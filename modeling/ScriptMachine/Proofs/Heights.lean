import ScriptMachine.Proofs.Layout
/-!
# The height of the stack

Every instruction takes a fixed number of values off the stack and leaves a fixed number on it. So
the code alone tells how many values lie above the base of a call before each of its instructions.

* `Chunk.Verified`: code whose operands are in range, whose jumps agree with the heights, and that
  never takes more than it has put on the stack;
* `Core.Func.verified`: **the code of every function is of that kind**.
-/

namespace ScriptMachine

namespace Op

/-- The number of values that an instruction takes off the stack. -/
def takes : Op → Nat
  | .constant _ | .none | .boolean _ | .getGlobal _ | .getLocal _ | .jump _ => 0
  | .pop | .setGlobal _ | .setLocal _ | .unary _ | .ret => 1
  | .jumpIfFalse _ | .jumpIfFalseKeep _ | .jumpIfTrueKeep _ => 1
  | .binary _ | .getIndex => 2
  | .setIndex => 3
  | .call argc => argc + 1
  | .newList count => count

/-- The number of values that an instruction leaves in their place. -/
def gives : Op → Nat
  | .constant _ | .none | .boolean _ | .getGlobal _ | .getLocal _ => 1
  | .unary _ | .binary _ | .getIndex | .call _ | .newList _ => 1
  | .jumpIfFalseKeep _ | .jumpIfTrueKeep _ => 1
  | .pop | .setGlobal _ | .setLocal _ | .setIndex | .jump _ | .jumpIfFalse _ | .ret => 0

/-- Where a jump leads. -/
def target? : Op → Option Nat
  | .jump t | .jumpIfFalse t | .jumpIfFalseKeep t | .jumpIfTrueKeep t => some t
  | _ => Option.none

/-- Whether the next instruction may follow. -/
def falls : Op → Bool
  | .jump _ | .ret => false
  | _ => true

/-- The operand of an instruction is in range. -/
def InRange (c : Chunk) (globals : Nat) : Op → Prop
  | .constant index => index < c.constants.size
  | .getLocal slot | .setLocal slot => slot < c.locals
  | .getGlobal slot | .setGlobal slot => slot < globals
  | _ => True

end Op

namespace Chunk

/-- The height after some instructions that come one after the other. -/
def heightAfter (start : Nat) (code : List Instr) : Nat :=
  code.foldl (fun h i => h - i.op.takes + i.op.gives) start

/-- The number of values above the base of a call before the instruction at an index. At first these
are the local variables. -/
def height (c : Chunk) (pc : Nat) : Nat := heightAfter c.locals (c.code.toList.take pc)

@[simp] theorem height_zero (c : Chunk) : c.height 0 = c.locals := rfl

theorem height_succ {c : Chunk} {pc : Nat} {i : Instr} (h : c.code[pc]? = some i) :
    c.height (pc + 1) = c.height pc - i.op.takes + i.op.gives := by
  have hget : c.code.toList[pc]? = some i := by rw [Array.getElem?_toList, h]
  rw [height, height, List.take_add_one, hget, heightAfter, List.foldl_append]
  rfl

/-- An instruction finds what it takes above the local variables, its operand is in range, and it
leads to instructions of the right height. -/
structure Checks (c : Chunk) (globals pc : Nat) (op : Op) : Prop where
  operand : op.InRange c globals
  takes : c.locals + op.takes ≤ c.height pc
  falls : op.falls = true → pc + 1 < c.code.size
  jumps : ∀ target, op.target? = some target →
    target < c.code.size ∧ c.height target = c.height pc - op.takes + op.gives

/-- Code in which every instruction is in order. -/
structure Verified (c : Chunk) (globals : Nat) : Prop where
  params : c.params ≤ c.locals
  start : 0 < c.code.size
  checks : ∀ pc i, c.code[pc]? = some i → c.Checks globals pc i.op

theorem Verified.mono {c : Chunk} {globals globals' : Nat} (h : c.Verified globals)
    (hle : globals ≤ globals') : c.Verified globals' := by
  refine ⟨h.params, h.start, fun pc i hi => ?_⟩
  obtain ⟨hoperand, htakes, hfalls, hjumps⟩ := h.checks pc i hi
  refine ⟨?_, htakes, hfalls, hjumps⟩
  cases hop : i.op <;> rw [hop] at hoperand <;> simp only [Op.InRange] at hoperand ⊢ <;> omega

/-- The instructions between two places are in order. -/
def ChecksAll (c : Chunk) (globals i j : Nat) : Prop :=
  ∀ pc x, i ≤ pc → pc < j → c.code[pc]? = some x → c.Checks globals pc x.op

variable {c : Chunk}

theorem ChecksAll.nil {globals i : Nat} : c.ChecksAll globals i i :=
  fun _ _ hi hj _ => absurd hj (Nat.not_lt.2 hi)

theorem ChecksAll.trans {globals i k j : Nat} (h : c.ChecksAll globals i k)
    (h' : c.ChecksAll globals k j) : c.ChecksAll globals i j := fun pc x hi hj hx =>
  (Nat.lt_or_ge pc k).elim (fun hk => h pc x hi hk hx) fun hk => h' pc x hk hj hx

/-- One more instruction. -/
theorem ChecksAll.snoc {globals i k : Nat} {x : Instr} (h : c.ChecksAll globals i k)
    (hcode : c.code[k]? = some x) (hx : c.Checks globals k x.op) :
    c.ChecksAll globals i (k + 1) := by
  intro pc y hi hj hy
  rcases Nat.lt_succ_iff_lt_or_eq.1 hj with hk | rfl
  · exact h pc y hi hk hy
  · exact Option.some.inj (hcode.symm.trans hy) ▸ hx

/-- An instruction that leads to the next one only. -/
theorem Checks.of_falls {globals pc : Nat} {op : Op} (hop : op.InRange c globals)
    (hnext : pc + 1 < c.code.size) (htarget : op.target? = none)
    (htakes : c.locals + op.takes ≤ c.height pc := by simp only [Op.takes]; omega) :
    c.Checks globals pc op :=
  ⟨hop, htakes, fun _ => hnext, fun target h => by rw [htarget] at h; cases h⟩

/-- An instruction that may jump. -/
theorem Checks.of_jumps {globals pc target : Nat} {op : Op} (htarget : op.target? = some target)
    (htakes : c.locals + op.takes ≤ c.height pc) (hnext : op.falls = true → pc + 1 < c.code.size)
    (hlt : target < c.code.size) (hheight : c.height target = c.height pc - op.takes + op.gives) :
    c.Checks globals pc op := by
  refine ⟨?_, htakes, hnext, fun t ht => ?_⟩
  · cases op <;> trivial
  · obtain rfl := Option.some.inj (htarget.symm.trans ht)
    exact ⟨hlt, hheight⟩

end Chunk

namespace Core

open Chunk (ChecksAll)

section

variable {c : Chunk} {globals : Nat} {val : Value → Value → Prop}

/-! ## Heights -/

mutual

/-- An expression leaves one value. -/
theorem Expr.At.height : {e : Expr} → {i j : Nat} → e.At c i j → c.height j = c.height i + 1
  | .constant _ _, i, _, ⟨⟨_, hcode, _⟩, rfl⟩ | .boolean _ _, i, _, ⟨hcode, rfl⟩
  | .none _, i, _, ⟨hcode, rfl⟩
  | .local _ _, i, _, ⟨hcode, rfl⟩ | .global _ _, i, _, ⟨hcode, rfl⟩ => Chunk.height_succ hcode
  | .list _ items, i, _, ⟨k, hitems, hcode, rfl⟩ => by
    have h := Expr.AtAll.height hitems
    rw [Chunk.height_succ hcode, h]
    simp only [Op.takes, Op.gives]
    omega
  | .index _ _ _, i, _, ⟨k, n, hobject, hplace, hcode, rfl⟩ => by
    have h := hobject.height
    have h' := hplace.height
    rw [Chunk.height_succ hcode, h', h]
    rfl
  | .call _ _ args, i, _, ⟨k, n, hcallee, hargs, hcode, rfl⟩ => by
    have h := hcallee.height
    have h' := Expr.AtAll.height hargs
    rw [Chunk.height_succ hcode, h', h]
    simp only [Op.takes, Op.gives]
    omega
  | .unary _ _ _, i, _, ⟨k, hoperand, hcode, rfl⟩ => by
    rw [Chunk.height_succ hcode, hoperand.height]
    rfl
  | .binary _ _ _ _, i, _, ⟨k, n, hlhs, hrhs, hcode, rfl⟩ => by
    have h := hlhs.height
    have h' := hrhs.height
    rw [Chunk.height_succ hcode, h', h]
    rfl
  | .logical _ op _ _, i, j, ⟨k, hlhs, hcode, hpop, hrhs⟩ => by
    have h := hrhs.height
    rw [h, Chunk.height_succ hpop, Chunk.height_succ hcode, hlhs.height]
    cases op <;> rfl

/-- Expressions leave one value each. -/
theorem Expr.AtAll.height : {es : List Expr} → {i j : Nat} → Expr.AtAll c es i j →
    c.height j = c.height i + es.length
  | [], _, _, rfl => rfl
  | e :: es, i, j, ⟨k, he, hes⟩ => by
    rw [Expr.AtAll.height hes, he.height, List.length_cons]
    omega

end

mutual

/-- A statement leaves the stack as high as it was. -/
theorem Stmt.At.height : {s : Stmt} → {exit i j : Nat} → s.At c exit i j → c.height j = c.height i
  | .expr _ _, _, _, _, ⟨k, he, hcode, rfl⟩ => by
    rw [Chunk.height_succ hcode, he.height]
    rfl
  | .assign _ target _, _, _, _, ⟨k, hvalue, hcode, rfl⟩ => by
    rw [Chunk.height_succ hcode, hvalue.height]
    cases target <;> rfl
  | .setIndex _ _ _ _, _, _, _, ⟨k, n, p, hobject, hplace, hvalue, hcode, rfl⟩ => by
    have h := hobject.height
    have h' := hplace.height
    rw [Chunk.height_succ hcode, hvalue.height, h', h]
    rfl
  | .ret _ _, _, _, _, ⟨k, hvalue, hcode, rfl⟩ => by
    rw [Chunk.height_succ hcode, hvalue.height]
    rfl
  | .branch _ _ _ _, _, _, _, ⟨k, n, hcond, hskip, hbody, hjump, hrest⟩ => by
    rw [Stmt.AtAll.height hrest, Chunk.height_succ hjump, Stmt.AtAll.height hbody,
      Chunk.height_succ hskip, hcond.height]
    rfl
  | .loop _ _ _, _, _, _, ⟨k, n, hcond, hskip, hbody, hjump, rfl⟩ => by
    rw [Chunk.height_succ hjump, Stmt.AtAll.height hbody, Chunk.height_succ hskip, hcond.height]
    rfl
  | .leave _, _, _, _, ⟨hcode, rfl⟩ => Chunk.height_succ hcode
  | .pass, _, _, _, rfl => rfl

theorem Stmt.AtAll.height : {ss : List Stmt} → {exit i j : Nat} → Stmt.AtAll c ss exit i j →
    c.height j = c.height i
  | [], _, _, _, rfl => rfl
  | _ :: _, _, _, _, ⟨_, hs, hss⟩ => (Stmt.AtAll.height hss).trans hs.height

end

/-! ## Places -/

mutual

theorem Expr.At.le : {e : Expr} → {i j : Nat} → e.At c i j → i < j
  | .constant _ _, _, _, ⟨_, rfl⟩ | .boolean _ _, _, _, ⟨_, rfl⟩ | .none _, _, _, ⟨_, rfl⟩
  | .local _ _, _, _, ⟨_, rfl⟩ | .global _ _, _, _, ⟨_, rfl⟩ => Nat.lt_succ_self _
  | .list _ _, _, _, ⟨_, hitems, _, rfl⟩ => Nat.lt_succ_of_le (Expr.AtAll.le hitems)
  | .index _ _ _, _, _, ⟨_, _, hobject, hplace, _, rfl⟩ =>
    Nat.lt_succ_of_lt (Nat.lt_trans hobject.le hplace.le)
  | .call _ _ _, _, _, ⟨_, _, hcallee, hargs, _, rfl⟩ =>
    Nat.lt_succ_of_lt (Nat.lt_of_lt_of_le hcallee.le (Expr.AtAll.le hargs))
  | .unary _ _ _, _, _, ⟨_, hoperand, _, rfl⟩ => Nat.lt_succ_of_lt hoperand.le
  | .binary _ _ _ _, _, _, ⟨_, _, hlhs, hrhs, _, rfl⟩ =>
    Nat.lt_succ_of_lt (Nat.lt_trans hlhs.le hrhs.le)
  | .logical _ _ _ _, _, _, ⟨k, hlhs, _, _, hrhs⟩ => by
    have h := hlhs.le
    have h' := hrhs.le
    omega

theorem Expr.AtAll.le : {es : List Expr} → {i j : Nat} → Expr.AtAll c es i j → i ≤ j
  | [], _, _, rfl => Nat.le_refl _
  | _ :: _, _, _, ⟨_, he, hes⟩ => Nat.le_trans (Nat.le_of_lt he.le) (Expr.AtAll.le hes)

end

mutual

theorem Stmt.At.le : {s : Stmt} → {exit i j : Nat} → s.At c exit i j → i ≤ j
  | .expr _ _, _, _, _, ⟨_, he, _, rfl⟩ | .assign _ _ _, _, _, _, ⟨_, he, _, rfl⟩
  | .ret _ _, _, _, _, ⟨_, he, _, rfl⟩ =>
    Nat.le_succ_of_le (Nat.le_of_lt he.le)
  | .setIndex _ _ _ _, _, _, _, ⟨_, _, _, hobject, hplace, hvalue, _, rfl⟩ => by
    have h := hobject.le
    have h' := hplace.le
    have h'' := hvalue.le
    omega
  | .branch _ _ _ _, _, _, _, ⟨_, _, hcond, _, hbody, _, hrest⟩ => by
    have h := hcond.le
    have h' := Stmt.AtAll.le hbody
    have h'' := Stmt.AtAll.le hrest
    omega
  | .loop _ _ _, _, _, _, ⟨_, _, hcond, _, hbody, _, rfl⟩ => by
    have h := hcond.le
    have h' := Stmt.AtAll.le hbody
    omega
  | .leave _, _, _, _, ⟨_, rfl⟩ => Nat.le_succ _
  | .pass, _, _, _, rfl => Nat.le_refl _

theorem Stmt.AtAll.le : {ss : List Stmt} → {exit i j : Nat} → Stmt.AtAll c ss exit i j → i ≤ j
  | [], _, _, _, rfl => Nat.le_refl _
  | _ :: _, _, _, _, ⟨_, hs, hss⟩ => Nat.le_trans hs.le (Stmt.AtAll.le hss)

end

/-! ## Checks -/

mutual

/-- The code of an expression is in order, if its slots are in bounds and something follows it. -/
theorem Expr.At.checks : {e f : Expr} → {i j : Nat} → e.At c i j →
    Expr.Matches val c.locals globals e f →
    c.locals ≤ c.height i → j < c.code.size → c.ChecksAll globals i j
  | .constant _ _, _, i, _, ⟨⟨k, hcode, hconstant⟩, rfl⟩, _, hi, hj =>
    ChecksAll.nil.snoc hcode (.of_falls (Array.getElem?_eq_some_iff.1 hconstant).1 hj rfl hi)
  | .boolean _ _, _, _, _, ⟨hcode, rfl⟩, _, hi, hj | .none _, _, _, _, ⟨hcode, rfl⟩, _, hi, hj =>
    ChecksAll.nil.snoc hcode (.of_falls trivial hj rfl hi)
  | .local _ _, _, _, _, ⟨hcode, rfl⟩, .local hslot, hi, hj
  | .global _ _, _, _, _, ⟨hcode, rfl⟩, .global hslot, hi, hj =>
    ChecksAll.nil.snoc hcode (.of_falls hslot hj rfl hi)
  | .list _ items, _, i, _, ⟨k, hitems, hcode, rfl⟩, .list hmatches, hi, hj => by
    have hheight := Expr.AtAll.height hitems
    exact (Expr.AtAll.checks hitems hmatches hi (by omega)).snoc hcode (.of_falls trivial hj rfl)
  | .call _ _ args, _, i, _, ⟨k, n, hcallee, hargs, hcode, rfl⟩, .call hmcallee hmargs, hi, hj => by
    have hheight := hcallee.height
    have hheight' := Expr.AtAll.height hargs
    have hle := Expr.AtAll.le hargs
    exact ((hcallee.checks hmcallee hi (by omega)).trans
      (Expr.AtAll.checks hargs hmargs (by omega) (by omega))).snoc hcode (.of_falls trivial hj rfl)
  | .unary _ _ _, _, i, _, ⟨k, hoperand, hcode, rfl⟩, .unary hmoperand, hi, hj => by
    have hheight := hoperand.height
    exact (hoperand.checks hmoperand hi (by omega)).snoc hcode (.of_falls trivial hj rfl)
  | .index _ _ _, _, i, _, ⟨k, n, hlhs, hrhs, hcode, rfl⟩, .index hmlhs hmrhs, hi, hj
  | .binary _ _ _ _, _, i, _, ⟨k, n, hlhs, hrhs, hcode, rfl⟩, .binary hmlhs hmrhs, hi, hj => by
    have hheight := hlhs.height
    have hheight' := hrhs.height
    have hlt := hrhs.le
    exact ((hlhs.checks hmlhs hi (by omega)).trans (hrhs.checks hmrhs (by omega) (by omega))).snoc
      hcode (.of_falls trivial hj rfl)
  | .logical _ op _ _, _, i, j, ⟨k, hlhs, hcode, hpop, hrhs⟩, .logical hmlhs hmrhs, hi, hj => by
    have hheight := hlhs.height
    have hskip : c.height (k + 1) = c.height k := by
      rw [Chunk.height_succ hcode, hheight]
      cases op <;> rfl
    have hpopped : c.height (k + 2) = c.height i := by
      rw [Chunk.height_succ hpop, hskip, hheight]
      rfl
    have hend := hrhs.height
    have hlt := hrhs.le
    refine (((hlhs.checks hmlhs hi (by omega)).snoc hcode ?_).snoc hpop ?_).trans
      (hrhs.checks hmrhs (by omega) hj)
    · refine .of_jumps (by cases op <;> rfl) ?_ (fun _ => by omega) hj ?_
      · cases op <;> simp only [shortcut, Op.takes] <;> omega
      · cases op <;> simp only [shortcut, Op.takes, Op.gives] <;> omega
    · exact .of_falls trivial (by omega) rfl

theorem Expr.AtAll.checks : {es fs : List Expr} → {i j : Nat} → Expr.AtAll c es i j →
    Expr.MatchesAll val c.locals globals es fs → c.locals ≤ c.height i → j < c.code.size →
    c.ChecksAll globals i j
  | [], _, _, _, rfl, _, _, _ => ChecksAll.nil
  | _ :: _, _, _, _, ⟨k, he, hes⟩, .cons hme hmes, hi, hj => by
    have hheight := he.height
    have hle := Expr.AtAll.le hes
    exact (he.checks hme hi (by omega)).trans (Expr.AtAll.checks hes hmes (by omega) hj)

end

mutual

/-- The code of a statement is in order, if something follows it and a loop around it has an end. -/
theorem Stmt.At.checks : {s t : Stmt} → {inLoop : Bool} → {exit i j : Nat} → s.At c exit i j →
    Stmt.Matches val c.locals globals inLoop s t → c.height i = c.locals → j < c.code.size →
    (inLoop = true → exit < c.code.size ∧ c.height exit = c.locals) → c.ChecksAll globals i j
  | .assign _ target _, _, _, _, _, _, ⟨k, hvalue, hcode, rfl⟩, .assign htarget hmvalue, hi, hj,
      _ => by
    have hheight := hvalue.height
    refine (hvalue.checks hmvalue (by omega) (by omega)).snoc hcode ?_
    cases target with
    | «local» slot | global slot =>
      exact .of_falls htarget hj rfl (by simp only [Target.store, Op.takes]; omega)
  | .setIndex _ _ _ _, _, _, _, _, _, ⟨k, n, p, hobject, hplace, hvalue, hcode, rfl⟩,
    .setIndex hmobject hmplace hmvalue, hi, hj, _ => by
    have hheight := hobject.height
    have hheight' := hplace.height
    have hheight'' := hvalue.height
    have hlt := hplace.le
    have hlt' := hvalue.le
    exact (((hobject.checks hmobject (by omega) (by omega)).trans
      (hplace.checks hmplace (by omega) (by omega))).trans
      (hvalue.checks hmvalue (by omega) (by omega))).snoc hcode (.of_falls trivial hj rfl)
  | .expr _ _, _, _, _, _, _, ⟨k, hvalue, hcode, rfl⟩, .expr hmvalue, hi, hj, _
  | .ret _ _, _, _, _, _, _, ⟨k, hvalue, hcode, rfl⟩, .ret hmvalue, hi, hj, _ => by
    have hheight := hvalue.height
    exact (hvalue.checks hmvalue (by omega) (by omega)).snoc hcode (.of_falls trivial hj rfl)
  | .branch _ _ _ _, _, _, exit, i, j, ⟨k, n, hcond, hskip, hbody, hjump, hrest⟩,
    .branch hmcond hmbody hmrest, hi, hj, hexit => by
    have hheight := hcond.height
    have hskipped : c.height (k + 1) = c.locals := by
      rw [Chunk.height_succ hskip, hheight, hi]
      rfl
    have hbodied := Stmt.AtAll.height hbody
    have hjumped : c.height (n + 1) = c.height n := Chunk.height_succ hjump
    have hrested := Stmt.AtAll.height hrest
    have hle := Stmt.AtAll.le hbody
    have hle' := Stmt.AtAll.le hrest
    refine ((((hcond.checks hmcond (by omega) (by omega)).snoc hskip ?_).trans
      (Stmt.AtAll.checks hbody hmbody (by omega) (by omega) hexit)).snoc hjump ?_).trans
      (Stmt.AtAll.checks hrest hmrest (by omega) hj hexit)
    · refine .of_jumps rfl ?_ (fun _ => by omega) (by omega) ?_ <;> simp only [Op.takes, Op.gives]
        <;> omega
    · refine .of_jumps rfl ?_ nofun hj ?_ <;> simp only [Op.takes, Op.gives] <;> omega
  | .loop _ _ _, _, _, exit, i, _, ⟨k, n, hcond, hskip, hbody, hjump, rfl⟩, .loop hmcond hmbody, hi,
      hj, _ => by
    have hheight := hcond.height
    have hskipped : c.height (k + 1) = c.locals := by
      rw [Chunk.height_succ hskip, hheight, hi]
      rfl
    have hbodied := Stmt.AtAll.height hbody
    have hjumped : c.height (n + 1) = c.height n := Chunk.height_succ hjump
    have hlt := hcond.le
    have hle := Stmt.AtAll.le hbody
    refine (((hcond.checks hmcond (by omega) (by omega)).snoc hskip ?_).trans
      (Stmt.AtAll.checks hbody hmbody (by omega) (by omega) fun _ => ⟨hj, by omega⟩)).snoc hjump ?_
    · refine .of_jumps rfl ?_ (fun _ => by omega) hj ?_ <;> simp only [Op.takes, Op.gives] <;> omega
    · refine .of_jumps rfl ?_ nofun (by omega) ?_ <;> simp only [Op.takes, Op.gives] <;> omega
  | .leave _, _, _, exit, _, _, ⟨hcode, rfl⟩, .leave, hi, hj, hexit => by
    obtain ⟨hlt, hheight⟩ := hexit rfl
    refine ChecksAll.nil.snoc hcode (.of_jumps rfl ?_ nofun hlt ?_)
      <;> simp only [Op.takes, Op.gives] <;> omega
  | .pass, _, _, _, _, _, rfl, _, _, _, _ => ChecksAll.nil

theorem Stmt.AtAll.checks : {ss ts : List Stmt} → {inLoop : Bool} → {exit i j : Nat} →
    Stmt.AtAll c ss exit i j →
    Stmt.MatchesAll val c.locals globals inLoop ss ts → c.height i = c.locals → j < c.code.size →
    (inLoop = true → exit < c.code.size ∧ c.height exit = c.locals) → c.ChecksAll globals i j
  | [], _, _, _, _, _, rfl, _, _, _, _ => ChecksAll.nil
  | _ :: _, _, _, _, _, _, ⟨k, hs, hss⟩, .cons hms hmss, hi, hj, hexit => by
    have hheight := hs.height
    have hle := Stmt.AtAll.le hss
    exact (hs.checks hms hi (by omega) hexit).trans (Stmt.AtAll.checks hss hmss (by omega) hj hexit)

end

theorem Stmt.atAll_append {ss ts : List Stmt} {exit i j : Nat}
    (h : Stmt.AtAll c (ss ++ ts) exit i j) :
    ∃ k, Stmt.AtAll c ss exit i k ∧ Stmt.AtAll c ts exit k j := by
  induction ss generalizing i with
  | nil => exact ⟨i, rfl, h⟩
  | cons s ss ih =>
    obtain ⟨k, hs, hrest⟩ := h
    obtain ⟨n, hss, hts⟩ := ih hrest
    exact ⟨n, ⟨k, hs, hss⟩, hts⟩

theorem Stmt.matchesAll_append {ss ts us : List Stmt} {locals : Nat} {inLoop : Bool}
    (h : Stmt.MatchesAll val locals globals inLoop (ss ++ ts) us) :
    ∃ vs ws, Stmt.MatchesAll val locals globals inLoop ss vs ∧
    Stmt.MatchesAll val locals globals inLoop ts ws := by
  induction ss generalizing us with
  | nil => exact ⟨[], us, .nil, h⟩
  | cons s ss ih =>
    cases h with
    | cons head tail =>
      obtain ⟨vs, ws, hvs, hws⟩ := ih tail
      exact ⟨_ :: vs, ws, .cons head hvs, hws⟩

/-- **The code of every function is in order**, if its slots are in bounds. -/
theorem Func.verified {d e : Func} (h : d.Matches val globals e) : d.chunk.Verified globals := by
  obtain ⟨ss, pos, v, hbody⟩ := h.ends
  have hat := Func.at_chunk h 0
  have hmatches : Stmt.MatchesAll val d.chunk.locals globals false d.body e.body := h.body
  rw [hbody] at hat hmatches
  obtain ⟨k, hss, n, ⟨p, hvalue, hret, rfl⟩, hsize⟩ := Stmt.atAll_append hat
  have hsize : d.chunk.code.size = p + 1 := hsize
  obtain ⟨vs, ws, hmss, hmret⟩ := Stmt.matchesAll_append hmatches
  obtain ⟨w, hmvalue⟩ : ∃ w, Expr.Matches val d.chunk.locals globals v w := by
    cases hmret with
    | cons head _ => cases head with | ret value => exact ⟨_, value⟩
  have hheight := Stmt.AtAll.height hss
  have hheight' := hvalue.height
  have hlt := hvalue.le
  have hzero := d.chunk.height_zero
  -- everything but the last instruction has another one behind it
  have hchecks := ((Stmt.AtAll.checks hss hmss hzero (by omega) nofun).trans
    (hvalue.checks hmvalue (by omega) (by omega))).snoc hret
    ⟨trivial, by simp only [Op.takes]; omega, nofun, nofun⟩
  refine ⟨h.params_le, by omega, fun pc i hi => hchecks pc i (Nat.zero_le _) ?_ hi⟩
  rw [← hsize]
  exact (Array.getElem?_eq_some_iff.1 hi).1

end

end Core

end ScriptMachine
