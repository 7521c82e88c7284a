import ScriptMachine.Proofs.Heights
import ScriptMachine.Proofs.Steps
/-!
# What instructions do to the stack and to calls

An instruction takes its operands off the stack, leaves its results there and goes on: with the
instruction behind it, at the target of a jump, in a function that it calls, or in the caller of the
one that it leaves.

* `Machine.Follows`: where an instruction may lead;
* `Machine.follows_exec`: **every instruction leads there**.
-/

namespace ScriptMachine

variable {σ α : Type}

variable {f : Failure}

namespace Machine

variable {m n : Machine σ} {size : Nat} {frames : Array Frame} {broken : Prop}

/-- An instruction finds what it takes off the stack, and its operand is in range. -/
def Serves (m : Machine σ) (chunk : Chunk) (base : Nat) (op : Op) : Prop :=
  op.takes ≤ m.stack.size ∧
    match op with
    | .constant index => index < chunk.constants.size
    | .getLocal slot => base + slot < m.stack.size
    | .setLocal slot => base + slot + 1 < m.stack.size
    | .setGlobal slot => slot < m.globals.size
    | .ret => 0 < m.frames.size
    | _ => True

/-- Why a computation fails: with a panic, or with an internal error if something is broken. -/
def Faulty (broken : Prop) (f : Failure) : Prop := f = .panic ∨ f = .unknown ∧ broken

/-- A computation ends with so many values on the stack and with such calls, or fails. -/
def Lands (size : Nat) (frames : Array Frame) (broken : Prop) : Checked σ (Machine σ) → Prop
  | .ok n => n.stack.size = size ∧ n.frames = frames
  | .error (f, _) => Faulty broken f

theorem Lands.faulty {c : Checked σ (Machine σ)} (h : Lands size frames broken c)
    (hc : c = .error (f, n)) : Faulty broken f := by
  subst hc
  exact h

section

variable (m : Machine σ)

theorem lands_push (v : Value) : Lands (m.stack.size + 1) m.frames broken (m.push v) := by
  unfold push
  split
  · exact .inl rfl
  · exact ⟨Array.size_push v, rfl⟩

theorem lands_pushObject (o : Object (Native σ)) :
    Lands (m.stack.size + 1) m.frames broken (m.pushObject o) := by
  have hpush : Lands (m.stack.size + 1) m.frames broken ((m.alloc o).2.push (m.alloc o).1) :=
    lands_push (m.alloc o).2 (m.alloc o).1
  have hpoint (n : Machine σ) : n.safePoint.stack = n.stack ∧ n.safePoint.frames = n.frames := by
    unfold safePoint
    split <;> exact ⟨rfl, rfl⟩
  show Lands _ _ _ (do let m ← (m.alloc o).2.push (m.alloc o).1; return m.safePoint)
  cases hr : (m.alloc o).2.push (m.alloc o).1 with
  | error e => rw [hr] at hpush; exact hpush
  | ok n =>
    rw [hr] at hpush
    obtain ⟨hstack, hframes⟩ := hpoint n
    exact ⟨(congrArg Array.size hstack).trans hpush.1, hframes.trans hpush.2⟩

theorem lands_binary (op : BinaryOp) (lhs rhs : Value) :
    Lands (m.stack.size + 1) m.frames broken (m.binary op lhs rhs) := by
  unfold binary
  split
  · exact lands_push m _
  · exact lands_push m _
  · split
    · exact lands_push m _
    · split
      · split
        · exact lands_pushObject m _
        · split
          · exact lands_push m _
          · exact .inl rfl
      · exact .inl rfl

theorem lands_unary (op : UnaryOp) (v : Value) :
    Lands (m.stack.size + 1) m.frames broken (m.unary op v) := by
  unfold unary
  split
  · exact lands_push m _
  · split
    · exact lands_push m _
    · exact .inl rfl

/-- An index that was found names a place of the list, so there is an item. -/
theorem listIndex_cases (list index : Value) :
    (∃ i v id, m.listIndex list index = .ok i ∧ m.listItem? list i = some v ∧
      list.asObject? = some id) ∨ ∃ n, m.listIndex list index = .error (.panic, n) := by
  unfold listIndex
  split
  · exact .inr ⟨_, rfl⟩
  · rename_i items hitems
    obtain ⟨id, hid⟩ : ∃ id, list.asObject? = some id := by
      cases hid : list.asObject? with
      | some id => exact ⟨id, rfl⟩
      | none => simp [listItems?, object?, hid] at hitems
    split
    · exact .inr ⟨_, rfl⟩
    · split
      · split
        · rename_i i _ hlt
          exact .inl ⟨i, items[i], id,
            rfl, by rw [listItem?, hitems]; exact Array.getElem?_eq_getElem hlt, hid⟩
        · exact .inr ⟨_, rfl⟩
      · exact .inr ⟨_, rfl⟩

theorem lands_getIndex (list index : Value) :
    Lands (m.stack.size + 1) m.frames broken (m.getIndex list index) := by
  obtain ⟨i, v, -, hindex, hitem, -⟩ | ⟨n, hindex⟩ := m.listIndex_cases list index
  · have hget : m.getIndex list index = m.push v := by
      simp [getIndex, hindex, hitem, bind, Except.bind]
    rw [hget]
    exact lands_push m _
  · have hget : m.getIndex list index = .error (.panic, n) := by
      simp [getIndex, hindex, bind, Except.bind]
    rw [hget]
    exact .inl rfl

theorem lands_setIndex (list index v : Value) :
    Lands m.stack.size m.frames broken (m.setIndex list index v) := by
  obtain ⟨i, _, id, hindex, hitem, hid⟩ | ⟨n, hindex⟩ := m.listIndex_cases list index
  · have hset : m.setIndex list index v =
        .ok { m with heap := m.heap.modify id fun o => o.setItem i v } := by
      simp [setIndex, hindex, hitem, hid, bind, Except.bind]
    rw [hset]
    exact ⟨rfl, rfl⟩
  · have hset : m.setIndex list index v = .error (.panic, n) := by
      simp [setIndex, hindex, bind, Except.bind]
    rw [hset]
    exact .inl rfl

theorem lands_newList (count : Nat) (h : ¬ count ≤ m.stack.size → broken) :
    Lands (m.stack.size - count + 1) m.frames broken (m.newList count) := by
  unfold newList
  split
  · rename_i hlt
    exact .inr ⟨rfl, h (Nat.not_le.2 hlt)⟩
  · have hlands :
      Lands _ _ broken (pushObject { m with stack := m.stack.shrink (m.stack.size - count) }
        (.list (m.stack.extract (m.stack.size - count) m.stack.size))) := lands_pushObject _ _
    simpa using hlands

theorem lands_getGlobal (slot : Nat) :
    Lands (m.stack.size + 1) m.frames broken (m.getGlobal slot) := by
  unfold getGlobal
  split
  · exact lands_push m _
  · exact .inl rfl

theorem lands_setGlobal (slot : Nat) (v : Value) (h : ¬ slot < m.globals.size → broken) :
    Lands m.stack.size m.frames broken (m.setGlobal slot v) := by
  unfold setGlobal
  split
  · exact ⟨rfl, rfl⟩
  · rename_i hset
    refine .inr ⟨rfl, h fun hlt => ?_⟩
    unfold Globals.set? at hset
    rw [if_pos (show slot < m.globals.slots.size from hlt)] at hset
    cases hset

theorem lands_getLocal (place : Nat) (h : ¬ place < m.stack.size → broken) :
    Lands (m.stack.size + 1) m.frames broken (m.getLocal place) := by
  unfold getLocal
  split
  · exact lands_push m _
  · rename_i hnone
    exact .inr ⟨rfl, h fun hlt => by rw [Array.getElem?_eq_getElem hlt] at hnone; cases hnone⟩

theorem lands_setLocal (place : Nat) (v : Value) (h : ¬ place < m.stack.size → broken) :
    Lands m.stack.size m.frames broken (m.setLocal place v) := by
  unfold setLocal
  split
  · exact ⟨Array.size_setIfInBounds, rfl⟩
  · rename_i hlt
    exact .inr ⟨rfl, h hlt⟩

end

theorem lands_pushLocals (count : Nat) (m : Machine σ) :
    Lands (m.stack.size + count) m.frames broken (pushLocals count m) := by
  induction count generalizing m with
  | zero => exact ⟨rfl, rfl⟩
  | succ count ih =>
    have hpush : Lands (m.stack.size + 1) m.frames broken (m.push .none) := lands_push m .none
    unfold pushLocals
    split <;> rename_i hr <;> rw [hr] at hpush
    · rename_i n
      have hrest := ih n
      rw [hpush.1, hpush.2, Nat.add_right_comm] at hrest
      exact hrest
    · exact hpush

/-- Where an instruction may lead. -/
inductive Follows (m : Machine σ) (entry : Nat) (chunk : Chunk) (base : Nat) (op : Op) :
    Step σ → Prop
  | falls {n : Machine σ} (falls : op.falls = true)
    (size : n.stack.size = m.stack.size - op.takes + op.gives) (frames : n.frames = m.frames) :
    Follows m entry chunk base op (.next n)
  | jumps {n : Machine σ} {target : Nat} (jumps : op.target? = some target)
    (size : n.stack.size = m.stack.size - op.takes + op.gives)
    (frames : n.frames = (m.jump target).frames) :
    Follows m entry chunk base op (.next n)
  | enters {n : Machine σ} {f : ScriptFunction} {v : Value} {callee : Nat}
    (calls : op = .call f.arity) (place : callee + f.arity + 1 = m.stack.size) (found : v ∈ m.stack)
    (function : m.object? v = some (.function f))
    (size : n.stack.size = m.stack.size + (f.chunk.locals - f.chunk.params))
    (frames : n.frames = m.frames.push { chunk := f.chunk, base := callee + 1 }) :
    Follows m entry chunk base op (.next n)
  | asks {f : NativeFunction (Native σ)} {args : List Value} {callee : Nat}
    (calls : op = .call f.arity) (place : callee + f.arity + 1 = m.stack.size) :
    Follows m entry chunk base op (.native f args callee m)
  | returns {n : Machine σ} {f : Frame} (returns : op = .ret) (left : m.frames.back? = some f)
    (inner : m.frames.size ≠ entry + 1)
    (size : n.stack.size = min (f.base - 1) (m.stack.size - 1) + 1)
    (frames : n.frames = m.frames.pop) :
    Follows m entry chunk base op (.next n)
  | done {n : Machine σ} {v : Value} (returns : op = .ret) (outer : m.frames.size = entry + 1) :
    Follows m entry chunk base op (.done v n)
  | fails {n : Machine σ} {f : Failure} (fault : Faulty (¬ m.Serves chunk base op) f) :
    Follows m entry chunk base op (.failed f n)

section Exec

variable {entry base : Nat} {chunk : Chunk} {op : Op}

/-- What takes and gives as much as the instruction says leads to the next one. -/
theorem Lands.follows {c : Checked σ (Machine σ)}
    (h : Lands size m.frames (¬ m.Serves chunk base op) c) (hfalls : op.falls = true)
    (hsize : size = m.stack.size - op.takes + op.gives) :
    m.Follows entry chunk base op (.ofChecked c) := by
  cases c with
  | ok n => exact .falls hfalls (h.1.trans hsize) h.2
  | error e => exact .fails h

/-- Goes on with the top of a stack from which `k` values were taken already. -/
theorem follows_withTop {next : Value → Machine σ → Step σ} {k : Nat}
    (hn : n.stack.size + k = m.stack.size) (htakes : k < op.takes)
    (h : ∀ v, 0 < n.stack.size → m.Follows entry chunk base op (next v n.pop)) :
    m.Follows entry chunk base op (exec.withTop n next) := by
  unfold exec.withTop takeTop
  cases hback : n.stack.back? with
  | some v => exact h v (Array.size_pos_of_mem (Array.mem_of_back? hback))
  | none =>
    have hempty : n.stack = #[] := Array.back?_eq_none_iff.1 hback
    refine .fails (.inr ⟨rfl, fun hserves => ?_⟩)
    have hsize := hserves.1
    rw [hempty] at hn
    simp only [List.size_toArray, List.length_nil] at hn
    omega

theorem follows_withTwo {next : Value → Value → Machine σ → Step σ} {k : Nat}
    (hn : n.stack.size + k = m.stack.size) (htakes : k + 1 < op.takes)
    (h : ∀ lhs rhs, 1 < n.stack.size → m.Follows entry chunk base op (next lhs rhs n.pop.pop)) :
    m.Follows entry chunk base op (exec.withTwo n next) := by
  refine follows_withTop hn (by omega) fun rhs hpos => ?_
  have hpop : n.pop.stack.size = n.stack.size - 1 := Array.size_pop
  refine follows_withTop (k := k + 1) (by omega) htakes fun lhs hpos' => h lhs rhs (by omega)

theorem size_pop (m : Machine σ) : m.pop.stack.size = m.stack.size - 1 := Array.size_pop

/-- A test that leads to its target or falls through. -/
theorem follows_test {target : Nat} {test : Bool} (hfalls : op.falls = true)
    (hjumps : op.target? = some target) (hsize : n.stack.size = m.stack.size - op.takes + op.gives)
    (hframes : n.frames = m.frames) :
    m.Follows entry chunk base op (.next (if test then n else n.jump target)) := by
  cases test with
  | true => exact .falls hfalls hsize hframes
  | false => exact .jumps hjumps hsize (by rw [if_neg Bool.false_ne_true, jump, jump, hframes])

theorem lands_enter {f : ScriptFunction} {callee : Nat} :
    Lands (m.stack.size + (f.chunk.locals - f.chunk.params))
      (m.frames.push { chunk := f.chunk, base := callee + 1 }) broken (m.enter f callee) := by
  unfold enter
  split
  · exact .inl rfl
  · have hlocals : Lands (m.stack.size + (f.chunk.locals - f.chunk.params)) m.frames broken
        (pushLocals (f.chunk.locals - f.chunk.params) m) := lands_pushLocals _ m
    cases hr : pushLocals (f.chunk.locals - f.chunk.params) m with
    | error e => rw [hr] at hlocals; exact hlocals
    | ok n =>
      rw [hr] at hlocals
      exact ⟨hlocals.1, congrArg (Array.push · _) hlocals.2⟩

theorem follows_call (argc : Nat) : m.Follows entry chunk base (.call argc) (m.call argc) := by
  unfold call
  split
  · rename_i hle
    exact .fails (.inr ⟨rfl,
      fun hserves => absurd hserves.1 (Nat.not_le.2 (Nat.lt_succ_of_le hle))⟩)
  · rename_i hlt
    have hplace : m.stack.size - argc - 1 + argc + 1 = m.stack.size := by omega
    have hmem : m.stack.getD (m.stack.size - argc - 1) .none ∈ m.stack := by
      rw [Array.getD_eq_getD_getElem?, Array.getElem?_eq_getElem (by omega)]
      exact Array.getElem_mem _
    dsimp only
    split
    · rename_i f hobject
      split
      · rename_i harity
        subst harity
        have hlands : Lands _ _ (¬ m.Serves chunk base (.call f.arity))
            (m.enter f (m.stack.size - f.arity - 1)) :=
          lands_enter
        cases hr : m.enter f (m.stack.size - f.arity - 1) with
        | error e => rw [hr] at hlands; exact .fails hlands
        | ok n => rw [hr] at hlands; exact .enters rfl hplace hmem hobject hlands.1 hlands.2
      · exact .fails (.inl rfl)
    · rename_i f hobject
      split
      · rename_i harity
        subst harity
        exact .asks rfl hplace
      · exact .fails (.inl rfl)
    · exact .fails (.inl rfl)

theorem follows_ret (v : Value) : m.Follows entry chunk base .ret (m.pop.ret entry v) := by
  unfold ret
  split
  · rename_i hnone
    have hempty : m.frames = #[] := Array.back?_eq_none_iff.1 hnone
    refine .fails (.inr ⟨rfl, fun hserves => ?_⟩)
    exact absurd hserves.2 (by simp [hempty])
  · rename_i f hback
    split
    · rename_i houter
      exact .done rfl houter
    · rename_i hinner
      have hlands : Lands _ _ (¬ m.Serves chunk base .ret)
          (push { m with stack := m.stack.pop.shrink (f.base - 1), frames := m.frames.pop } v) :=
            lands_push _ v
      have hsize : (m.stack.pop.shrink (f.base - 1)).size =
          min (f.base - 1) (m.stack.size - 1) := by
        simp
      show m.Follows entry chunk base .ret (.ofChecked
        (push { m with stack := m.stack.pop.shrink (f.base - 1), frames := m.frames.pop } v))
      cases hr :
          push { m with stack := m.stack.pop.shrink (f.base - 1), frames := m.frames.pop } v with
      | error e => rw [hr] at hlands; exact .fails hlands
      | ok n => rw [hr] at hlands; exact .returns rfl hback hinner (hsize ▸ hlands.1) hlands.2

/-- What needs a value on the stack and finds none is not served. -/
theorem not_serves_of_back? (htakes : 0 < op.takes) (hback : m.stack.back? = none) :
    ¬ m.Serves chunk base op := by
  intro hserves
  have hempty : m.stack = #[] := Array.back?_eq_none_iff.1 hback
  have hsize := hserves.1
  rw [hempty] at hsize
  exact absurd hsize (Nat.not_le.2 htakes)

/-- Every instruction leads where it may. -/
theorem follows_exec (m : Machine σ) (entry : Nat) (chunk : Chunk) (base : Nat) (op : Op) :
    m.Follows entry chunk base op (m.exec entry chunk base op) := by
  cases op with
  | constant index =>
    unfold exec
    dsimp only
    split
    · exact Lands.follows (lands_push m _) rfl rfl
    · rename_i hget
      refine .fails (.inr ⟨rfl, fun hserves => ?_⟩)
      exact absurd (Array.getElem?_eq_none_iff.1 hget) (Nat.not_le.2 hserves.2)
  | none | boolean b => exact Lands.follows (lands_push m _) rfl rfl
  | pop => exact follows_withTop (k := 0) rfl (by decide) fun v _ => .falls rfl m.size_pop rfl
  | getGlobal slot => exact Lands.follows (lands_getGlobal m slot) rfl rfl
  | setGlobal slot =>
    refine follows_withTop (k := 0) rfl Nat.one_pos fun v hpos => ?_
    exact Lands.follows (lands_setGlobal m.pop slot v fun hslot hserves => hslot hserves.2)
      rfl m.size_pop
  | getLocal slot =>
    exact Lands.follows (lands_getLocal m _ fun hslot hserves => hslot hserves.2) rfl rfl
  | setLocal slot =>
    refine follows_withTop (k := 0) rfl Nat.one_pos fun v hpos => ?_
    refine Lands.follows (lands_setLocal m.pop (base + slot) v fun hslot hserves => hslot ?_)
      rfl m.size_pop
    rw [size_pop]
    exact Nat.lt_sub_of_add_lt hserves.2
  | unary op =>
    refine follows_withTop (k := 0) rfl Nat.one_pos fun v hpos =>
      Lands.follows (lands_unary m.pop op v) rfl ?_
    rw [size_pop]
    rfl
  | binary op =>
    refine follows_withTwo (k := 0) rfl Nat.one_lt_two fun lhs rhs hpos =>
      Lands.follows (lands_binary m.pop.pop op lhs rhs) rfl ?_
    rw [size_pop, size_pop]
    rfl
  | jump target => exact .jumps rfl rfl rfl
  | jumpIfFalse target =>
    exact follows_withTop (k := 0) rfl Nat.one_pos fun v hpos => follows_test rfl rfl m.size_pop rfl
  | jumpIfFalseKeep target =>
    unfold exec
    dsimp only
    split
    · rename_i v hback
      have hpos : 0 < m.stack.size := Array.size_pos_of_mem (Array.mem_of_back? hback)
      exact follows_test rfl rfl (Nat.sub_add_cancel hpos).symm rfl
    · rename_i hback
      exact .fails (.inr ⟨rfl, not_serves_of_back? Nat.one_pos hback⟩)
  | jumpIfTrueKeep target =>
    unfold exec
    dsimp only
    split
    · rename_i v hback
      have hpos : 0 < m.stack.size := Array.size_pos_of_mem (Array.mem_of_back? hback)
      split
      · exact .jumps rfl (Nat.sub_add_cancel hpos).symm rfl
      · exact .falls rfl (Nat.sub_add_cancel hpos).symm rfl
    · rename_i hback
      exact .fails (.inr ⟨rfl, not_serves_of_back? Nat.one_pos hback⟩)
  | call argc => exact follows_call argc
  | ret => exact follows_withTop (k := 0) rfl Nat.one_pos fun v hpos => follows_ret v
  | newList count =>
    exact Lands.follows (lands_newList m count fun hcount hserves => hcount hserves.1) rfl rfl
  | getIndex =>
    refine follows_withTwo (k := 0) rfl Nat.one_lt_two fun list index hpos =>
      Lands.follows (lands_getIndex m.pop.pop list index) rfl ?_
    rw [size_pop, size_pop]
    rfl
  | setIndex =>
    refine follows_withTop (k := 0) rfl (by decide : 0 < 3) fun v hpos => ?_
    refine follows_withTwo (k := 1) (by rw [size_pop]; omega) (by decide : 2 < 3)
      fun list index hpos' => Lands.follows (lands_setIndex m.pop.pop.pop list index v) rfl ?_
    rw [size_pop, size_pop, size_pop]
    rfl

theorem Faulty.weaken (h : Faulty broken f) : Faulty True f := h.imp_right fun h => ⟨h.1, trivial⟩

/-- A step fails for want of an instruction, or executes one. -/
theorem step_cases (m : Machine σ) (entry : Nat) : (∃ n, m.step entry = .failed .unknown n) ∨
    ∃ (g : Frame) (op : Op), m.step entry = (m.jump (g.pc + 1)).exec entry g.chunk g.base op := by
  unfold step
  split
  · exact .inl ⟨_, rfl⟩
  · rename_i g hback
    split
    · exact .inl ⟨_, rfl⟩
    · exact .inr ⟨g, _, rfl⟩

theorem faulty_step (h : m.step entry = .failed f n) : Faulty True f := by
  obtain ⟨n', hfails⟩ | ⟨g, op, hexec⟩ := m.step_cases entry
  · cases hfails.symm.trans h
    exact .inr ⟨rfl, trivial⟩
  · have hfollows := follows_exec (m.jump (g.pc + 1)) entry g.chunk g.base op
    rw [← hexec, h] at hfollows
    cases hfollows with
    | fails hfault => exact hfault.weaken

/-- A call of a native function leaves the heap to that function. -/
theorem heap_of_step_native {f : NativeFunction (Native σ)} {args : List Value} {callee : Nat}
    (h : m.step entry = .native f args callee n) : n.heap = m.heap := by
  obtain ⟨n', hfails⟩ | ⟨g, op, hexec⟩ := m.step_cases entry
  · cases hfails.symm.trans h
  · have hfollows := follows_exec (m.jump (g.pc + 1)) entry g.chunk g.base op
    rw [← hexec, h] at hfollows
    cases hfollows with
    | asks => rfl

/-- A value is an object that is not alive. -/
def Freed (m : Machine σ) (v : Value) : Prop :=
  ∃ id, v.asObject? = some id ∧ m.heap.contains id = false

/-- The value of a native function takes the place of the call, unless it is an object that is not
alive. -/
theorem lands_resume (m : Machine σ) (name : String) (callee : Nat) (v : Value) :
    Lands (min callee m.stack.size + 1) m.frames (m.Freed v) (m.resume name callee v) := by
  have hpush : Lands (min callee m.stack.size + 1) m.frames (m.Freed v)
      ({ m with stack := m.stack.shrink callee }.push v) := by
    have hlands : Lands _ _ (m.Freed v) (push { m with stack := m.stack.shrink callee } v) :=
      lands_push _ v
    rwa [show (m.stack.shrink callee).size = min callee m.stack.size by simp] at hlands
  unfold resume
  split
  · exact .inl rfl
  · cases hid : v.asObject? with
    | none => simpa using hpush
    | some id =>
      cases halive : m.heap.contains id with
      | true => simpa [halive] using hpush
      | false => simpa [halive] using .inr ⟨rfl, id, hid, halive⟩

end Exec

end Machine

variable {call : Callback σ} {m n : Machine σ}

/-- A run of instructions fails with a panic or an internal error. -/
theorem faulty_runSteps {entry fuel : Nat} (h : runSteps call entry fuel m = .failed f n) :
    Machine.Faulty True f := by
  obtain ⟨k, p, -, -, hfails⟩ := fails_of_runSteps h
  cases hfails with
  | step hstep => exact Machine.faulty_step hstep
  | resume _ _ hrefuses =>
    exact (Machine.Lands.faulty (Machine.lands_resume _ _ _ _) hrefuses).weaken

theorem faulty_execute {fuel : Nat} {chunk : Chunk}
    (h : execute call fuel chunk m = .failed f n) : Machine.Faulty True f := by
  unfold execute at h
  dsimp only at h
  split at h
  · cases h
  · rename_i hrun
    cases h
    exact faulty_runSteps hrun
  · cases h
  · cases h

end ScriptMachine
