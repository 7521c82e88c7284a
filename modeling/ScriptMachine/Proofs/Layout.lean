import ScriptMachine.Proofs.Match
/-!
# Where the code of a tree stands

Code is made by adding instructions at the end and patching jumps later, so the code of a part is
finished only with the whole. Here the places of all parts are stated about the finished chunk.

* `Core.Expr.At`, `Core.Stmt.At`: the code of a tree stands between two places of a chunk;
* `Core.Func.at_chunk`: the chunk of a function holds the code of its body.
-/

namespace ScriptMachine

namespace Core

mutual

/-- The code of an expression stands in a chunk from one place up to another. -/
def Expr.At (c : Chunk) : Expr → (start stop : Nat) → Prop
  | .constant pos v, i, j =>
    (∃ k, c.code[i]? = some ⟨.constant k, pos⟩ ∧ c.constants[k]? = some v) ∧ j = i + 1
  | .boolean pos b, i, j => c.code[i]? = some ⟨.boolean b, pos⟩ ∧ j = i + 1
  | .none pos, i, j => c.code[i]? = some ⟨.none, pos⟩ ∧ j = i + 1
  | .list pos items, i, j =>
    ∃ k, Expr.AtAll c items i k ∧ c.code[k]? = some ⟨.newList items.length, pos⟩ ∧ j = k + 1
  | .local pos slot, i, j => c.code[i]? = some ⟨.getLocal slot, pos⟩ ∧ j = i + 1
  | .global pos slot, i, j => c.code[i]? = some ⟨.getGlobal slot, pos⟩ ∧ j = i + 1
  | .index pos object place, i, j =>
    ∃ k n, object.At c i k ∧ place.At c k n ∧ c.code[n]? = some ⟨.getIndex, pos⟩ ∧ j = n + 1
  | .call pos callee args, i, j =>
    ∃ k n, callee.At c i k ∧ Expr.AtAll c args k n ∧ c.code[n]? = some ⟨.call args.length, pos⟩ ∧
      j = n + 1
  | .unary pos op operand, i, j =>
    ∃ k, operand.At c i k ∧ c.code[k]? = some ⟨.unary op, pos⟩ ∧ j = k + 1
  | .binary pos op lhs rhs, i, j =>
    ∃ k n, lhs.At c i k ∧ rhs.At c k n ∧ c.code[n]? = some ⟨.binary op, pos⟩ ∧ j = n + 1
  | .logical pos op lhs rhs, i, j =>
    ∃ k, lhs.At c i k ∧ c.code[k]? = some ⟨shortcut op j, pos⟩ ∧
      c.code[k + 1]? = some ⟨.pop, pos⟩ ∧ rhs.At c (k + 2) j

/-- The code of expressions stands in a chunk, one after the other. -/
def Expr.AtAll (c : Chunk) : List Expr → (start stop : Nat) → Prop
  | [], i, j => j = i
  | e :: es, i, j => ∃ k, e.At c i k ∧ Expr.AtAll c es k j

end

mutual

/-- The code of a statement stands in a chunk from one place up to another, and jumps out of the
loop around it lead to `exit`. -/
def Stmt.At (c : Chunk) : Stmt → (exit start stop : Nat) → Prop
  | .expr pos e, _, i, j => ∃ k, e.At c i k ∧ c.code[k]? = some ⟨.pop, pos⟩ ∧ j = k + 1
  | .assign pos target value, _, i, j =>
    ∃ k, value.At c i k ∧ c.code[k]? = some ⟨target.store, pos⟩ ∧ j = k + 1
  | .setIndex pos object place value, _, i, j =>
    ∃ k n p, object.At c i k ∧ place.At c k n ∧ value.At c n p ∧
      c.code[p]? = some ⟨.setIndex, pos⟩ ∧ j = p + 1
  | .ret pos value, _, i, j => ∃ k, value.At c i k ∧ c.code[k]? = some ⟨.ret, pos⟩ ∧ j = k + 1
  | .branch pos cond body rest, exit, i, j =>
    ∃ k n, cond.At c i k ∧ c.code[k]? = some ⟨.jumpIfFalse (n + 1), pos⟩ ∧
      Stmt.AtAll c body exit (k + 1) n ∧ c.code[n]? = some ⟨.jump j, pos⟩ ∧
      Stmt.AtAll c rest exit (n + 1) j
  | .loop pos cond body, _, i, j =>
    ∃ k n, cond.At c i k ∧ c.code[k]? = some ⟨.jumpIfFalse j, pos⟩ ∧
      Stmt.AtAll c body j (k + 1) n ∧ c.code[n]? = some ⟨.jump i, pos⟩ ∧ j = n + 1
  | .leave pos, exit, i, j => c.code[i]? = some ⟨.jump exit, pos⟩ ∧ j = i + 1
  | .pass, _, i, j => j = i

/-- The code of statements stands in a chunk, one after the other. -/
def Stmt.AtAll (c : Chunk) : List Stmt → (exit start stop : Nat) → Prop
  | [], _, i, j => j = i
  | s :: ss, exit, i, j => ∃ k, s.At c exit i k ∧ Stmt.AtAll c ss exit k j

end

/-! ## Code that grows -/

variable {pos : Position}

namespace Assembly

/-- The jumps that leave the innermost loop. -/
def pending (a : Assembly) : List Nat := a.loops.headD []

/-- The jumps out of the loop were all made before. -/
def Tidy (a : Assembly) : Prop := ∀ k ∈ a.pending, k < a.code.size

/-- Adding code to `a` can lead to `a'`: what was there stays, and new jumps out of the loop around
are recorded. -/
structure Extends (a a' : Assembly) : Prop where
  size : a.code.size ≤ a'.code.size
  code : ∀ k, k < a.code.size → a'.code[k]? = a.code[k]?
  constants : ∀ (k : Nat) v, a.constants[k]? = some v → a'.constants[k]? = some v
  loops : a'.loops.tail = a.loops.tail
  pending : ∃ new, a'.pending = new ++ a.pending ∧
    ∀ k ∈ new, a.code.size ≤ k ∧ ∃ t pos, a'.code[k]? = some ⟨.jump t, pos⟩

/-- A chunk is the code from `lo` on as it will be in the end: jumps out of the loop around lead to
`exit`. -/
structure Stands (a : Assembly) (c : Chunk) (exit lo : Nat) : Prop where
  code : ∀ (k : Nat) i, lo ≤ k → a.code[k]? = some i →
    c.code[k]? = some (if k ∈ a.pending then { i with op := i.op.retarget exit } else i)
  constants : ∀ (k : Nat) v, a.constants[k]? = some v → c.constants[k]? = some v

variable {a b a' : Assembly} {c : Chunk} {exit lo : Nat}

theorem Extends.refl (a : Assembly) : a.Extends a where
  size := Nat.le_refl _
  code _ _ := rfl
  constants _ _ h := h
  loops := rfl
  pending := ⟨[], rfl, by simp⟩

theorem Extends.trans (h : a.Extends b) (h' : b.Extends a') : a.Extends a' where
  size := Nat.le_trans h.size h'.size
  code k hk := (h'.code k (Nat.lt_of_lt_of_le hk h.size)).trans (h.code k hk)
  constants k v hv := h'.constants k v (h.constants k v hv)
  loops := h'.loops.trans h.loops
  pending := by
    obtain ⟨new, hnew, hjumps⟩ := h.pending
    obtain ⟨new', hnew', hjumps'⟩ := h'.pending
    refine ⟨new' ++ new, by rw [hnew', hnew, List.append_assoc], fun k hk => ?_⟩
    rcases List.mem_append.1 hk with hk | hk
    · exact ⟨Nat.le_trans h.size (hjumps' k hk).1, (hjumps' k hk).2⟩
    · obtain ⟨hle, t, pos, hcode⟩ := hjumps k hk
      have hlt : k < b.code.size := (Array.getElem?_eq_some_iff.1 hcode).1
      exact ⟨hle, t, pos, by rw [h'.code k hlt, hcode]⟩

theorem Extends.tidy (h : a.Extends a') (ha : a.Tidy) : a'.Tidy := by
  intro k hk
  obtain ⟨new, hnew, hjumps⟩ := h.pending
  rw [hnew] at hk
  rcases List.mem_append.1 hk with hk | hk
  · obtain ⟨_, t, pos, hcode⟩ := hjumps k hk
    exact (Array.getElem?_eq_some_iff.1 hcode).1
  · exact Nat.lt_of_lt_of_le (ha k hk) h.size

/-- What was there before is recorded as it was. -/
theorem Extends.mem_pending_iff (h : a.Extends a') {k : Nat} (hk : k < a.code.size) :
    k ∈ a'.pending ↔ k ∈ a.pending := by
  obtain ⟨new, hnew, hjumps⟩ := h.pending
  rw [hnew, List.mem_append]
  refine or_iff_right fun hmem => ?_
  exact absurd (hjumps k hmem).1 (Nat.not_le.2 hk)

theorem extends_emit (a : Assembly) (op : Op) (pos : Position) : a.Extends (a.emit op pos) where
  size := by simp [emit]
  code k hk := by
    simp only [emit]
    rw [Array.getElem?_push_lt hk, Array.getElem?_eq_getElem hk]
  constants _ _ h := h
  loops := rfl
  pending := ⟨[], rfl, by simp⟩

theorem extends_push_constant (a : Assembly) (v : Value) :
    a.Extends { a with constants := a.constants.push v } where
  size := Nat.le_refl _
  code _ _ := rfl
  constants k w h := by
    have hk := (Array.getElem?_eq_some_iff.1 h).1
    rw [Array.getElem?_push_lt hk, ← h, Array.getElem?_eq_getElem hk]
  loops := rfl
  pending := ⟨[], rfl, by simp⟩

theorem extends_constant (a : Assembly) (v : Value) (pos : Position) :
    a.Extends (a.constant v pos) := by
  unfold constant
  split
  · exact a.extends_emit _ pos
  · exact (a.extends_push_constant v).trans (extends_emit _ _ pos)

/-! ## Patching -/

@[simp] theorem size_patch (a : Assembly) (jump : Nat) :
    (a.patch jump).code.size = a.code.size := by
  simp [patch]

theorem getElem?_patch (a : Assembly) (jump k : Nat) :
    (a.patch jump).code[k]? =
      if k = jump then a.code[k]?.map fun i => { i with op := i.op.retarget a.code.size }
      else a.code[k]? := by
  simp only [patch, Array.getElem?_modify, eq_comm]

theorem retarget_retarget (op : Op) (s t : Nat) : (op.retarget s).retarget t = op.retarget t := by
  cases op <;> rfl

@[simp] theorem size_patchAll (a : Assembly) (jumps : List Nat) :
    (a.patchAll jumps).code.size = a.code.size := by
  induction jumps generalizing a with
  | nil => rfl
  | cons jump jumps ih => exact (ih (a.patch jump)).trans (a.size_patch jump)

theorem getElem?_patchAll (a : Assembly) (jumps : List Nat) (k : Nat) :
    (a.patchAll jumps).code[k]? =
      a.code[k]?.map fun i =>
        if k ∈ jumps then { i with op := i.op.retarget a.code.size } else i := by
  induction jumps generalizing a with
  | nil => simp [patchAll]
  | cons jump jumps ih =>
    show ((a.patch jump).patchAll jumps).code[k]? = _
    rw [ih, getElem?_patch, size_patch]
    cases hcode : a.code[k]? with
    | none => simp
    | some i =>
      by_cases hk : k = jump <;> by_cases hmem : k ∈ jumps <;>
        simp_all [retarget_retarget]

@[simp] theorem constants_patchAll (a : Assembly) (jumps : List Nat) :
    (a.patchAll jumps).constants = a.constants := by
  induction jumps generalizing a with
  | nil => rfl
  | cons jump jumps ih => exact ih (a.patch jump)

/-- Patching a jump that was added later leaves what was there before as it was. -/
theorem Extends.patch (h : a.Extends a') {jump : Nat} (hjump : a.code.size ≤ jump) :
    a.Extends (a'.patch jump) where
  size := by rw [size_patch]; exact h.size
  code k hk := by
    rw [getElem?_patch, if_neg (by omega)]
    exact h.code k hk
  constants := h.constants
  loops := h.loops
  pending := by
    obtain ⟨new, hnew, hjumps⟩ := h.pending
    refine ⟨new, hnew, fun k hk => ⟨(hjumps k hk).1, ?_⟩⟩
    obtain ⟨_, t, pos, hcode⟩ := hjumps k hk
    rw [getElem?_patch, hcode]
    split
    · exact ⟨_, pos, rfl⟩
    · exact ⟨t, pos, rfl⟩

theorem Extends.patchAll (h : a.Extends a') {jumps : List Nat}
    (hjumps : ∀ jump ∈ jumps, a.code.size ≤ jump) : a.Extends (a'.patchAll jumps) := by
  induction jumps generalizing a' with
  | nil => exact h
  | cons jump jumps ih =>
    exact ih (h.patch (hjumps jump (by simp))) fun k hk => hjumps k (by simp [hk])

/-! ## Finished code -/

variable {lo' : Nat}

/-- Finished code is finished code of all that agrees with it. -/
theorem Stands.of_agree (h : a'.Stands c exit lo) (hlo : lo ≤ lo')
    (hcode : ∀ k, lo' ≤ k → k < a.code.size → a'.code[k]? = a.code[k]?)
    (hpending : ∀ k, lo' ≤ k → k < a.code.size → (k ∈ a'.pending ↔ k ∈ a.pending))
    (hconstants : ∀ (k : Nat) v, a.constants[k]? = some v → a'.constants[k]? = some v) :
    a.Stands c exit lo' where
  code k i hk hi := by
    have hlt : k < a.code.size := (Array.getElem?_eq_some_iff.1 hi).1
    have hstands := h.code k i (Nat.le_trans hlo hk) (by rw [hcode k hk hlt, hi])
    simp only [hpending k hk hlt] at hstands
    exact hstands
  constants k v hv := h.constants k v (hconstants k v hv)

theorem Stands.of_extends (h : a'.Stands c exit lo) (he : a.Extends a') : a.Stands c exit lo :=
  h.of_agree (Nat.le_refl _) (fun k _ hk => he.code k hk) (fun _ _ hk => he.mem_pending_iff hk)
    he.constants

theorem Stands.mono (h : a.Stands c exit lo) (hlo : lo ≤ lo') : a.Stands c exit lo' :=
  h.of_agree hlo (fun _ _ _ => rfl) (fun _ _ _ => Iff.rfl) fun _ _ hv => hv

/-- The instruction added last stands in the finished code. -/
theorem Stands.emitted {op : Op} (h : (a.emit op pos).Stands c exit lo)
    (ha : a.Tidy) (hlo : lo ≤ a.code.size) : c.code[a.code.size]? = some ⟨op, pos⟩ := by
  have hcode := h.code a.code.size ⟨op, pos⟩ hlo (by simp [emit])
  have hmem : a.code.size ∉ (a.emit op pos).pending := fun hmem => Nat.lt_irrefl _ (ha _ hmem)
  rwa [if_neg hmem] at hcode

variable {jump : Nat} (h : (a.patch jump).Stands c exit lo)

include h

/-- Behind a patched jump the code was finished before. -/
theorem Stands.of_patch (hlo : lo ≤ lo') (hjump : jump < lo') : a.Stands c exit lo' :=
  h.of_agree hlo (fun k hk _ => by rw [getElem?_patch, if_neg (by omega)]) (fun _ _ _ => Iff.rfl)
    fun _ _ hv => hv

/-- A patched jump leads to the end of the code. -/
theorem Stands.patched {i : Instr} (hlo : lo ≤ jump) (hjump : jump ∉ a.pending)
    (hi : a.code[jump]? = some i) :
    c.code[jump]? = some { i with op := i.op.retarget a.code.size } := by
  have hcode := h.code jump { i with op := i.op.retarget a.code.size } hlo
    (by rw [getElem?_patch, if_pos rfl, hi]; rfl)
  have hmem : jump ∉ (a.patch jump).pending := hjump
  rwa [if_neg hmem] at hcode

end Assembly

/-! ## The code of expressions -/

mutual

theorem Expr.extends_emit : (e : Expr) → (a : Assembly) → a.Extends (e.emit a)
  | .constant pos v, a => a.extends_constant v pos
  | .boolean pos b, a => a.extends_emit (.boolean b) pos
  | .none pos, a => a.extends_emit .none pos
  | .list pos items, a => (Expr.extends_emitAll items a).trans (Assembly.extends_emit _ _ pos)
  | .local pos slot, a => a.extends_emit (.getLocal slot) pos
  | .global pos slot, a => a.extends_emit (.getGlobal slot) pos
  | .call pos callee args, a =>
    ((callee.extends_emit a).trans (Expr.extends_emitAll args _)).trans
      (Assembly.extends_emit _ _ pos)
  | .unary pos op operand, a => (operand.extends_emit a).trans (Assembly.extends_emit _ _ pos)
  | .index pos lhs rhs, a | .binary pos _ lhs rhs, a =>
    ((lhs.extends_emit a).trans (rhs.extends_emit _)).trans (Assembly.extends_emit _ _ pos)
  | .logical pos op lhs rhs, a => by
    have hlhs := lhs.extends_emit a
    have hrhs := rhs.extends_emit (((lhs.emit a).emit (shortcut op 0) pos).emit .pop pos)
    exact (hlhs.trans ((Assembly.extends_emit _ _ pos).trans
      ((Assembly.extends_emit _ _ pos).trans hrhs))).patch hlhs.size

theorem Expr.extends_emitAll : (es : List Expr) → (a : Assembly) → a.Extends (Expr.emitAll es a)
  | [], a => .refl a
  | e :: es, a => (e.extends_emit a).trans (Expr.extends_emitAll es (e.emit a))

end

section

variable {c : Chunk} {exit : Nat}

/-- The place of a constant in the finished code. -/
theorem Assembly.Stands.constant {a : Assembly} {v : Value} {lo : Nat}
    (h : (a.constant v pos).Stands c exit lo) (ha : a.Tidy) (hlo : lo ≤ a.code.size) :
    ∃ k, c.code[a.code.size]? = some ⟨.constant k, pos⟩ ∧ c.constants[k]? = some v := by
  unfold Assembly.constant at h
  split at h
  · rename_i k hk
    refine ⟨k, h.emitted ha hlo, h.constants k v ?_⟩
    by_cases hv : v.isNumber
    · rw [if_pos hv] at hk
      obtain ⟨hlt, heq, _⟩ := Array.findIdx?_eq_some_iff_getElem.1 hk
      have heq := eq_of_beq heq
      exact (Array.getElem?_eq_getElem hlt).trans (congrArg some heq)
    · rw [if_neg hv] at hk
      cases hk
  · refine ⟨a.constants.size, h.emitted (a := { a with constants := a.constants.push v }) ha hlo,
      h.constants _ _ ?_⟩
    simp [Assembly.emit]

theorem Assembly.size_constant (a : Assembly) (v : Value) (pos : Position) :
    (a.constant v pos).code.size = a.code.size + 1 := by
  unfold Assembly.constant
  split <;> simp [Assembly.emit]

@[simp] theorem Assembly.size_emit (a : Assembly) (op : Op) (pos : Position) :
    (a.emit op pos).code.size = a.code.size + 1 := by
  simp [Assembly.emit]

/-- The finished code of an operator with a shortcut around its second operand. -/
theorem Assembly.Stands.of_shortcut {a b : Assembly} {op : LogicalOp} {lo : Nat}
    (h : (b.patch a.code.size).Stands c exit lo) (ha : a.Tidy) (hlo : lo ≤ a.code.size)
    (hext : ((a.emit (shortcut op 0) pos).emit .pop pos).Extends b) :
    a.Stands c exit lo ∧ c.code[a.code.size]? = some ⟨shortcut op b.code.size, pos⟩ ∧
      c.code[a.code.size + 1]? = some ⟨.pop, pos⟩ ∧ b.Stands c exit (a.code.size + 2) := by
  have hjump := a.extends_emit (shortcut op 0) pos
  have hpop := (a.emit (shortcut op 0) pos).extends_emit .pop pos
  refine ⟨h.of_extends ((hjump.trans (hpop.trans hext)).patch (Nat.le_refl _)), ?_, ?_, ?_⟩
  · have hmem : a.code.size ∉ b.pending := by
      rw [(hpop.trans hext).mem_pending_iff (by simp)]
      exact fun hk => Nat.lt_irrefl _ (ha _ hk)
    have hcode := h.patched (i := ⟨shortcut op 0, pos⟩) hlo hmem (by
      rw [(hpop.trans hext).code _ (by simp)]
      simp [Assembly.emit])
    rw [hcode]
    cases op <;> rfl
  · have hp := h.of_patch (Nat.le_succ_of_le hlo) (Nat.lt_succ_self _)
    have hcode := (hp.of_extends hext).emitted (hjump.tidy ha) (by simp)
    rwa [Assembly.size_emit] at hcode
  · exact h.of_patch (Nat.le_add_right_of_le hlo) (by omega)

mutual

/-- The code of an expression stands where it was added. -/
theorem Expr.at_emit : (e : Expr) → {a : Assembly} → a.Tidy →
    (e.emit a).Stands c exit a.code.size → e.At c a.code.size (e.emit a).code.size
  | .constant pos v, a, ha, h => ⟨h.constant ha (Nat.le_refl _), a.size_constant v pos⟩
  | .boolean pos _, a, ha, h | .none pos, a, ha, h | .local pos _, a, ha, h
  | .global pos _, a, ha, h =>
    ⟨h.emitted ha (Nat.le_refl _), a.size_emit _ pos⟩
  | .list pos items, a, ha, h => by
    have hext := Expr.extends_emitAll items a
    exact ⟨_, Expr.atAll_emitAll items ha (h.of_extends (Assembly.extends_emit _ _ pos)),
      h.emitted (hext.tidy ha) hext.size, Assembly.size_emit _ _ pos⟩
  | .call pos callee args, a, ha, h => by
    have hcallee := callee.extends_emit a
    have hargs := Expr.extends_emitAll args (callee.emit a)
    have hp := h.of_extends (Assembly.extends_emit _ _ pos)
    exact ⟨_, _, callee.at_emit ha (hp.of_extends hargs),
      Expr.atAll_emitAll args (hcallee.tidy ha) (hp.mono hcallee.size),
      h.emitted (hargs.tidy (hcallee.tidy ha)) (hcallee.trans hargs).size,
      Assembly.size_emit _ _ pos⟩
  | .unary pos op operand, a, ha, h => by
    have hext := operand.extends_emit a
    exact ⟨_, operand.at_emit ha (h.of_extends (Assembly.extends_emit _ _ pos)),
      h.emitted (hext.tidy ha) hext.size, Assembly.size_emit _ _ pos⟩
  | .index pos lhs rhs, a, ha, h | .binary pos _ lhs rhs, a, ha, h => by
    have hlhs := lhs.extends_emit a
    have hrhs := rhs.extends_emit (lhs.emit a)
    have hp := h.of_extends (Assembly.extends_emit _ _ pos)
    exact ⟨_, _, lhs.at_emit ha (hp.of_extends hrhs),
      rhs.at_emit (hlhs.tidy ha) (hp.mono hlhs.size),
      h.emitted (hrhs.tidy (hlhs.tidy ha)) (hlhs.trans hrhs).size, Assembly.size_emit _ _ pos⟩
  | .logical pos op lhs rhs, a, ha, h => by
    have hlhs := lhs.extends_emit a
    have hrhs := rhs.extends_emit (((lhs.emit a).emit (shortcut op 0) pos).emit .pop pos)
    obtain ⟨hl, hjump, hpop, hr⟩ := h.of_shortcut (hlhs.tidy ha) hlhs.size hrhs
    have hsize : (Expr.emit (.logical pos op lhs rhs) a).code.size = (rhs.emit
        (((lhs.emit a).emit (shortcut op 0) pos).emit .pop pos)).code.size :=
      Assembly.size_patch _ _
    have hright := rhs.at_emit (a := ((lhs.emit a).emit (shortcut op 0) pos).emit .pop pos)
      ((Assembly.extends_emit _ _ pos).tidy ((Assembly.extends_emit _ _ pos).tidy (hlhs.tidy ha)))
      (by simpa using hr)
    rw [hsize]
    exact ⟨_, lhs.at_emit ha hl, hjump, hpop, by simpa using hright⟩

/-- The code of expressions stands where it was added. -/
theorem Expr.atAll_emitAll : (es : List Expr) → {a : Assembly} → a.Tidy →
    (Expr.emitAll es a).Stands c exit a.code.size →
    Expr.AtAll c es a.code.size (Expr.emitAll es a).code.size
  | [], _, _, _ => rfl
  | e :: es, a, ha, h => by
    have he := e.extends_emit a
    exact ⟨_, e.at_emit ha (h.of_extends (Expr.extends_emitAll es _)),
      Expr.atAll_emitAll es (he.tidy ha) (h.mono he.size)⟩

end

/-! ## The code of statements -/

theorem Assembly.extends_leave (a : Assembly) (pos : Position) : a.Extends (a.leave pos) := by
  unfold Assembly.leave
  cases hloops : a.loops with
  | nil => exact .refl a
  | cons breaks loops =>
    refine ⟨by simp, fun k hk => ?_, fun _ _ h => h, by simp [Assembly.emit, hloops], ?_⟩
    · exact
        (Assembly.extends_emit { a with loops := (a.code.size :: breaks) :: loops } _ pos).code k hk
    · refine ⟨[a.code.size], by simp [Assembly.pending, Assembly.emit, hloops], fun k hk => ?_⟩
      obtain rfl := List.mem_singleton.1 hk
      exact ⟨Nat.le_refl _, 0, pos, by simp [Assembly.emit]⟩

section

variable {a b : Assembly} (h : a.enterLoop.Extends b)

include h

theorem Assembly.Extends.pending_leaveLoop : b.leaveLoop.pending = a.pending := by
  show b.loops.tail.headD [] = a.loops.headD []
  rw [h.loops]
  rfl

/-- Code that was added inside of a loop is code that was added around it. -/
theorem Assembly.Extends.leaveLoop :
    a.Extends b.leaveLoop where
  size := h.size
  code := h.code
  constants := h.constants
  loops := by
    show b.loops.tail.tail = a.loops.tail
    rw [h.loops]
    rfl
  pending := ⟨[], h.pending_leaveLoop, by simp⟩

/-- The jumps out of a loop were all made inside of it. -/
theorem Assembly.Extends.mem_pending_enterLoop {k : Nat}
    (hk : k ∈ b.pending) : a.code.size ≤ k ∧ ∃ t pos, b.code[k]? = some ⟨.jump t, pos⟩ := by
  obtain ⟨new, hnew, hjumps⟩ := h.pending
  have hnil : a.enterLoop.pending = [] := rfl
  rw [hnew, hnil, List.append_nil] at hk
  exact hjumps k hk

end

mutual

theorem Stmt.extends_emit : (s : Stmt) → (a : Assembly) → a.Extends (s.emit a)
  | .expr pos value, a | .assign pos _ value, a | .ret pos value, a =>
    (value.extends_emit a).trans (Assembly.extends_emit _ _ pos)
  | .setIndex pos object place value, a =>
    (((object.extends_emit a).trans (place.extends_emit _)).trans (value.extends_emit _)).trans
      (Assembly.extends_emit _ _ pos)
  | .branch pos cond body rest, a => by
    have hcond := cond.extends_emit a
    have hbody := (Assembly.extends_emit (cond.emit a) (.jumpIfFalse 0) pos).trans
      (Stmt.extends_emitAll body _)
    have hjump := (hbody.trans (Assembly.extends_emit _ (.jump 0) pos)).patch (Nat.le_refl _)
    have hrest := Stmt.extends_emitAll rest
      (((Stmt.emitAll body ((cond.emit a).emit (.jumpIfFalse 0) pos)).emit (.jump 0) pos).patch
        (cond.emit a).code.size)
    exact (hcond.trans (hjump.trans hrest)).patch (hcond.trans hbody).size
  | .loop pos cond body, a => by
    have hcond := cond.extends_emit a
    have hjump := Assembly.extends_emit (cond.emit a) (.jumpIfFalse 0) pos
    have hbody := Stmt.extends_emitAll body ((cond.emit a).emit (.jumpIfFalse 0) pos).enterLoop
    have hall := hcond.trans (((hjump.trans hbody.leaveLoop).trans
      (Assembly.extends_emit _ (.jump a.code.size) pos)).patch (Nat.le_refl _))
    refine hall.patchAll fun k hk => ?_
    have hle := (hbody.mem_pending_enterLoop (List.mem_reverse.1 hk)).1
    exact Nat.le_trans (hcond.trans hjump).size hle
  | .leave pos, a => a.extends_leave pos
  | .pass, a => .refl a

theorem Stmt.extends_emitAll : (ss : List Stmt) → (a : Assembly) → a.Extends (Stmt.emitAll ss a)
  | [], a => .refl a
  | s :: ss, a => (s.extends_emit a).trans (Stmt.extends_emitAll ss (s.emit a))

end

/-- The finished code of a conditional: the first jump leads over the body, the second one over the
rest. -/
theorem Assembly.Stands.of_branch {a b d : Assembly} {lo : Nat}
    (h : (d.patch b.code.size).Stands c exit lo) (ha : a.Tidy) (hlo : lo ≤ a.code.size)
    (hbody : (a.emit (.jumpIfFalse 0) pos).Extends b)
    (hrest : ((b.emit (.jump 0) pos).patch a.code.size).Extends d) :
    a.Stands c exit lo ∧ c.code[a.code.size]? = some ⟨.jumpIfFalse (b.code.size + 1), pos⟩ ∧
      b.Stands c exit (a.code.size + 1) ∧ c.code[b.code.size]? = some ⟨.jump d.code.size, pos⟩ ∧
      d.Stands c exit (b.code.size + 1) := by
  have hjif := a.extends_emit (.jumpIfFalse 0) pos
  have hjump := b.extends_emit (.jump 0) pos
  have hab : a.code.size < b.code.size := Nat.lt_of_lt_of_le (by simp) hbody.size
  have hlt : ∀ k, k ≤ b.code.size → k < ((b.emit (.jump 0) pos).patch a.code.size).code.size := by
    intro k hk
    simp
    omega
  -- the rest leaves the jumps of the loop as the body made them, and the code before it as it was
  have hpending : ∀ k, k ≤ b.code.size → (k ∈ d.pending ↔ k ∈ b.pending) :=
    fun k hk => hrest.mem_pending_iff (hlt k hk)
  have hbefore : ∀ k, k < b.code.size → k ≠ a.code.size →
      (d.patch b.code.size).code[k]? = b.code[k]? := by
    intro k hk hne
    rw [getElem?_patch, if_neg (by omega), hrest.code k (hlt k (by omega)), getElem?_patch,
      if_neg hne, hjump.code k hk]
  refine ⟨h.of_extends ?_, ?_, h.of_agree (by omega) ?_ ?_ ?_, ?_, h.of_patch (by omega) (by omega)⟩
  · exact (((hjif.trans (hbody.trans hjump)).patch (Nat.le_refl _)).trans hrest).patch
      (Nat.le_of_lt hab)
  · have hmem : a.code.size ∉ (d.patch b.code.size).pending := by
      show _ ∉ d.pending
      rw [hpending _ (by omega), hbody.mem_pending_iff (by simp)]
      exact fun hk => Nat.lt_irrefl _ (ha _ hk)
    have hcode := h.code a.code.size ⟨.jumpIfFalse (b.code.size + 1), pos⟩ hlo (by
      rw [getElem?_patch, if_neg (by omega), hrest.code _ (hlt _ (by omega)), getElem?_patch,
        if_pos rfl, hjump.code _ hab, hbody.code _ (by simp)]
      simp [Assembly.emit, Op.retarget])
    rwa [if_neg hmem] at hcode
  · exact fun k hk hk' => hbefore k hk' (by omega)
  · exact fun k _ hk => hpending k (by omega)
  · exact fun k v hv => hrest.constants k v (hjump.constants k v hv)
  · have hmem : b.code.size ∉ d.pending := by
      rw [hpending _ (by omega)]
      exact fun hk => Nat.lt_irrefl _ ((hbody.tidy (hjif.tidy ha)) _ hk)
    exact h.patched (i := ⟨.jump 0, pos⟩) (by omega) hmem (by
      rw [hrest.code _ (hlt _ (by omega)), getElem?_patch, if_neg (by omega)]
      simp [Assembly.emit])

/-- The finished code of a loop: all jumps out of the loop lead behind it. -/
theorem Assembly.Stands.of_loop {a b : Assembly} {start lo : Nat}
    (h : (((b.leaveLoop.emit (.jump start) pos).patch a.code.size).patchAll
      b.pending.reverse).Stands c exit lo)
    (ha : ∀ k ∈ a.pending, k < lo) (hlo : lo ≤ a.code.size)
    (hbody : (a.emit (.jumpIfFalse 0) pos).enterLoop.Extends b) :
    a.Stands c exit lo ∧ c.code[a.code.size]? = some ⟨.jumpIfFalse (b.code.size + 1), pos⟩ ∧
      b.Stands c (b.code.size + 1) (a.code.size + 1) ∧
      c.code[b.code.size]? = some ⟨.jump start, pos⟩ := by
  have hab : a.code.size + 1 ≤ b.code.size := by
    have := hbody.size
    simpa [Assembly.enterLoop] using this
  have hbreaks : ∀ k ∈ b.pending, a.code.size < k ∧ k < b.code.size := by
    intro k hk
    obtain ⟨hle, t, p, hi⟩ := hbody.mem_pending_enterLoop hk
    simp only [size_emit] at hle
    exact ⟨hle, (Array.getElem?_eq_some_iff.1 hi).1⟩
  have hjump := b.leaveLoop.extends_emit (.jump start) pos
  have hfinal : ∀ k i, lo ≤ k → (b.leaveLoop.emit (.jump start) pos).code[k]? = some i →
      c.code[k]? = some (if k = a.code.size ∨ k ∈ b.pending
        then { i with op := i.op.retarget (b.code.size + 1) } else i) := by
    intro k i hk hi
    have houter : k ∉ (((b.leaveLoop.emit (.jump start) pos).patch a.code.size).patchAll
        b.pending.reverse).pending := by
      rw [Assembly.pending, Assembly.loops_patchAll]
      show k ∉ b.leaveLoop.pending
      rw [hbody.pending_leaveLoop]
      exact fun hmem => absurd (ha k hmem) (by omega)
    have hcode := h.code k (if k = a.code.size ∨ k ∈ b.pending
      then { i with op := i.op.retarget (b.code.size + 1) } else i) hk (by
        rw [getElem?_patchAll, getElem?_patch, hi, size_patch, size_emit]
        by_cases hk' : k = a.code.size <;> by_cases hmem : k ∈ b.pending <;>
          simp_all [Assembly.leaveLoop, retarget_retarget])
    rwa [if_neg houter] at hcode
  refine ⟨h.of_extends ?_, ?_, ⟨?_, ?_⟩, ?_⟩
  · refine ((((a.extends_emit (.jumpIfFalse 0) pos).trans hbody.leaveLoop).trans hjump).patch
      (Nat.le_refl _)).patchAll fun k hk => ?_
    exact Nat.le_of_lt (hbreaks k (List.mem_reverse.1 hk)).1
  · have hcode := hfinal a.code.size ⟨.jumpIfFalse 0, pos⟩ hlo (by
      rw [hjump.code _ hab]
      show b.code[_]? = _
      rw [hbody.code _ (by simp [Assembly.enterLoop])]
      simp [Assembly.enterLoop, Assembly.emit])
    rwa [if_pos (Or.inl rfl)] at hcode
  · intro k i hk hi
    have hk' : k < b.code.size := (Array.getElem?_eq_some_iff.1 hi).1
    have hcode := hfinal k i (by omega) (by rw [hjump.code k hk']; exact hi)
    have hne : k ≠ a.code.size := by omega
    simpa only [hne, false_or] using hcode
  · intro k v hv
    exact h.constants k v (by rw [Assembly.constants_patchAll]; exact hv)
  · have hcode := hfinal b.code.size ⟨.jump start, pos⟩ (by omega) (by
      simp [Assembly.emit, Assembly.leaveLoop])
    have hmem : ¬ (b.code.size = a.code.size ∨ b.code.size ∈ b.pending) := by
      rintro (heq | hk)
      · omega
      · exact absurd (hbreaks _ hk).2 (Nat.lt_irrefl _)
    rwa [if_neg hmem] at hcode

variable {val : Value → Value → Prop} {locals globals : Nat}

mutual

/-- The code of a statement stands where it was added. -/
theorem Stmt.at_emit : {s t : Stmt} → {inLoop : Bool} → {exit : Nat} → {a : Assembly} →
    Stmt.Matches val locals globals inLoop s t → a.Tidy → (inLoop = true → 0 < a.loops.length) →
    (s.emit a).Stands c exit a.code.size → s.At c exit a.code.size (s.emit a).code.size
  | .expr pos value, _, _, _, a, _, ha, _, h | .assign pos _ value, _, _, _, a, _, ha, _, h
  | .ret pos value, _, _, _, a, _, ha, _, h => by
    have hext := value.extends_emit a
    exact ⟨_, value.at_emit ha (h.of_extends (Assembly.extends_emit _ _ pos)),
      h.emitted (hext.tidy ha) hext.size, Assembly.size_emit _ _ pos⟩
  | .setIndex pos object place value, _, _, _, a, _, ha, _, h => by
    have hobject := object.extends_emit a
    have hplace := place.extends_emit (object.emit a)
    have hvalue := value.extends_emit (place.emit (object.emit a))
    have hp := h.of_extends (Assembly.extends_emit _ _ pos)
    exact ⟨_, _, _, object.at_emit ha (hp.of_extends (hplace.trans hvalue)),
      place.at_emit (hobject.tidy ha) ((hp.of_extends hvalue).mono hobject.size),
      value.at_emit (hplace.tidy (hobject.tidy ha)) (hp.mono (hobject.trans hplace).size),
      h.emitted (hvalue.tidy (hplace.tidy (hobject.tidy ha)))
        (hobject.trans (hplace.trans hvalue)).size,
      Assembly.size_emit _ _ pos⟩
  | .branch pos cond body rest, _, inLoop, exit, a, .branch _ hbodies hrests, ha, hloop, h => by
    have hcond := cond.extends_emit a
    have hbody := Stmt.extends_emitAll body ((cond.emit a).emit (.jumpIfFalse 0) pos)
    have hrest := Stmt.extends_emitAll rest
      (((Stmt.emitAll body ((cond.emit a).emit (.jumpIfFalse 0) pos)).emit (.jump 0) pos).patch
        (cond.emit a).code.size)
    have htidy := hcond.tidy ha
    have hbodyTidy := hbody.tidy ((Assembly.extends_emit _ (.jumpIfFalse 0) pos).tidy htidy)
    have hloops : inLoop = true → 0 < (cond.emit a).loops.length := by
      rw [cond.loops_emit a]
      exact hloop
    obtain ⟨hc, hjif, hb, hjump, hr⟩ := h.of_branch htidy hcond.size hbody hrest
    refine ⟨_, _, cond.at_emit ha hc, hjif, ?_, ?_, ?_⟩
    · have hat := Stmt.atAll_emitAll (a := (cond.emit a).emit (.jumpIfFalse 0) pos) hbodies
        ((Assembly.extends_emit _ _ pos).tidy htidy) hloops (by simpa using hb)
      simpa using hat
    · rw [hjump]
      simp [Stmt.emit]
    · have hat := Stmt.atAll_emitAll hrests
        (a := ((Stmt.emitAll body ((cond.emit a).emit (.jumpIfFalse 0) pos)).emit
          (.jump 0) pos).patch (cond.emit a).code.size) ?_ ?_ (by simpa using hr)
      · simpa [Stmt.emit] using hat
      · intro k hk
        have := hbodyTidy k hk
        simp
        omega
      · intro hl
        show 0 < (Stmt.emitAll body ((cond.emit a).emit (.jumpIfFalse 0) pos)).loops.length
        rw [Stmt.length_loops_emitAll]
        exact hloops hl
  | .loop pos cond body, _, inLoop, exit, a, .loop _ hbodies, ha, _, h => by
    have hcond := cond.extends_emit a
    have hbody := Stmt.extends_emitAll body ((cond.emit a).emit (.jumpIfFalse 0) pos).enterLoop
    have hpending : (cond.emit a).pending = a.pending :=
      congrArg (List.headD · []) (cond.loops_emit a)
    obtain ⟨hc, hjif, hb, hjump⟩ := h.of_loop (by rw [hpending]; exact ha) hcond.size hbody
    have hsize : (Stmt.emit (.loop pos cond body) a).code.size = (Stmt.emitAll body
        ((cond.emit a).emit (.jumpIfFalse 0) pos).enterLoop).code.size + 1 := by
      simp [Stmt.emit, Assembly.leaveLoop]
    have hat :=
      Stmt.atAll_emitAll (a := ((cond.emit a).emit (.jumpIfFalse 0) pos).enterLoop) hbodies
        (by simp [Assembly.Tidy, Assembly.pending, Assembly.enterLoop])
          (by simp [Assembly.enterLoop])
      (by simpa [Assembly.enterLoop] using hb)
    rw [hsize]
    refine ⟨_, _, cond.at_emit ha hc, hjif, ?_, hjump, rfl⟩
    simpa [Assembly.enterLoop] using hat
  | .leave pos, _, _, exit, a, .leave, ha, hloop, h => by
    obtain ⟨breaks, loops, hloops⟩ := List.exists_cons_of_length_pos (hloop rfl)
    have hemit : Stmt.emit (.leave pos) a =
        { a with loops := (a.code.size :: breaks) :: loops }.emit (.jump 0) pos := by
      simp only [Stmt.emit, Assembly.leave, hloops]
    rw [hemit] at h ⊢
    have hat := h.code a.code.size ⟨.jump 0, pos⟩ (Nat.le_refl _) (by simp [Assembly.emit])
    rw [if_pos (by simp [Assembly.pending, Assembly.emit])] at hat
    exact ⟨hat, Assembly.size_emit _ _ pos⟩
  | .pass, _, _, _, _, _, _, _, _ => rfl

/-- The code of statements stands where it was added. -/
theorem Stmt.atAll_emitAll : {ss ts : List Stmt} → {inLoop : Bool} → {exit : Nat} → {a : Assembly} →
    Stmt.MatchesAll val locals globals inLoop ss ts → a.Tidy →
    (inLoop = true → 0 < a.loops.length) →
    (Stmt.emitAll ss a).Stands c exit a.code.size →
    Stmt.AtAll c ss exit a.code.size (Stmt.emitAll ss a).code.size
  | [], _, _, _, _, _, _, _, _ => rfl
  | s :: ss, _, _, _, a, .cons hs hss, ha, hloop, h => by
    have hext := s.extends_emit a
    refine ⟨_, Stmt.at_emit hs ha hloop (h.of_extends (Stmt.extends_emitAll ss _)),
      Stmt.atAll_emitAll hss (hext.tidy ha) (fun hl => ?_) (h.mono hext.size)⟩
    rw [s.length_loops_emit a]
    exact hloop hl

end

end

/-- **The chunk of a function holds the code of its body from the first instruction to the
last.** -/
theorem Func.at_chunk {val : Value → Value → Prop} {globals : Nat} {d e : Func}
    (h : d.Matches val globals e) (exit : Nat) :
    Stmt.AtAll d.chunk d.body exit 0 d.chunk.code.size := by
  refine Stmt.atAll_emitAll (a := {}) h.body (by simp [Assembly.Tidy, Assembly.pending]) (by simp)
    ⟨fun k i _ hi => ?_, fun _ _ hv => hv⟩
  have hnil : (Stmt.emitAll d.body {}).pending = [] := by
    have hlen := Stmt.length_loops_emitAll d.body {}
    rw [Assembly.pending, List.length_eq_zero_iff.1 hlen]
    rfl
  rw [hnil, if_neg (by simp)]
  exact hi

end Core

end ScriptMachine
