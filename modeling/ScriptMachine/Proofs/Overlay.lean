import ScriptMachine.Proofs.Instructions
import ScriptMachine.Proofs.Lockstep
/-!
# Values below a call

All calls in progress share one stack. An instruction works on its operands and on the variables of
the innermost call. It neither looks at the values further down nor moves them, but for a
collection, which keeps what these lead to.

* `overlay`, `Machine.onto`: other values at the bottom of the stack;
* `Machine.onto_exec`, `Machine.onto_step`: **instructions do not look below the innermost call**.
-/

namespace ScriptMachine

variable {σ α : Type}

/-! ## Arrays -/

/-- An array with other first entries. -/
def overlay (w s : Array α) : Array α := w ++ s.extract w.size s.size

variable {k : Nat}

section Arrays

variable {w s : Array α} {i j : Nat}

theorem size_overlay (h : w.size ≤ s.size) : (overlay w s).size = s.size := by
  simp only [overlay, Array.size_append, Array.size_extract, Nat.min_self]
  omega

theorem getElem?_overlay (h : w.size ≤ s.size) (i : Nat) :
    (overlay w s)[i]? = if i < w.size then w[i]? else s[i]? := by
  unfold overlay
  rw [Array.getElem?_append]
  split
  · rfl
  · rename_i hi
    rw [Array.getElem?_extract, Nat.min_self]
    split
    · rw [show w.size + (i - w.size) = i by omega]
    · rw [Array.getElem?_eq_none (by omega)]

/-- Entries further up are the same. -/
theorem getElem?_overlay_of_le (h : w.size ≤ s.size) (hi : w.size ≤ i) :
    (overlay w s)[i]? = s[i]? := by
  rw [getElem?_overlay h, if_neg (Nat.not_lt.2 hi)]

theorem overlay_push (h : w.size ≤ s.size) (a : α) :
    overlay w (s.push a) = (overlay w s).push a := by
  have hpush : w.size ≤ (s.push a).size := by rw [Array.size_push]; omega
  refine Array.ext_getElem? fun i => ?_
  rw [getElem?_overlay hpush, Array.getElem?_push, Array.getElem?_push, getElem?_overlay h,
    size_overlay h]
  split
  · rw [if_neg (by omega)]
  · rfl

theorem overlay_pop (h : w.size < s.size) : overlay w s.pop = (overlay w s).pop := by
  have hpop : w.size ≤ s.pop.size := by rw [Array.size_pop]; omega
  refine Array.ext_getElem? fun i => ?_
  rw [getElem?_overlay hpop, Array.getElem?_pop, Array.getElem?_pop, getElem?_overlay (by omega),
    size_overlay (by omega)]
  split
  · rw [if_pos (by omega)]
  · rfl

theorem getElem?_shrink (s : Array α) (k i : Nat) :
    (s.shrink k)[i]? = if i < k then s[i]? else none := by
  rw [Array.shrink_eq_take]
  show (s.extract 0 k)[i]? = _
  rw [Array.getElem?_extract, Nat.zero_add]
  split
  · rw [if_pos (by omega)]
  · split
    · rw [Array.getElem?_eq_none (by omega)]
    · rfl

theorem overlay_shrink (h : w.size ≤ s.size) (hk : w.size ≤ k) :
    overlay w (s.shrink k) = (overlay w s).shrink k := by
  have hshrink : w.size ≤ (s.shrink k).size := by rw [Array.size_shrink]; omega
  refine Array.ext_getElem? fun i => ?_
  rw [getElem?_overlay hshrink, getElem?_shrink, getElem?_shrink, getElem?_overlay h]
  split
  · rw [if_pos (by omega)]
  · rfl

theorem overlay_set (h : w.size ≤ s.size) (hi : w.size ≤ i) (a : α) :
    overlay w (s.setIfInBounds i a) = (overlay w s).setIfInBounds i a := by
  have hset : w.size ≤ (s.setIfInBounds i a).size := by rwa [Array.size_setIfInBounds]
  refine Array.ext_getElem? fun j => ?_
  rw [getElem?_overlay hset, Array.getElem?_setIfInBounds, Array.getElem?_setIfInBounds,
    getElem?_overlay h, size_overlay h]
  split
  · rw [if_neg (by omega)]
  · rfl

theorem extract_overlay (h : w.size ≤ s.size) (hi : w.size ≤ i) :
    (overlay w s).extract i j = s.extract i j := by
  refine Array.ext_getElem? fun k => ?_
  rw [Array.getElem?_extract, Array.getElem?_extract, size_overlay h,
    getElem?_overlay_of_le h (by omega)]

theorem back?_overlay (h : w.size < s.size) : (overlay w s).back? = s.back? := by
  rw [Array.back?_eq_getElem?, Array.back?_eq_getElem?, size_overlay (by omega),
    getElem?_overlay_of_le (by omega) (by omega)]

theorem getD_overlay (h : w.size ≤ s.size) (hi : w.size ≤ i) (a : α) :
    (overlay w s).getD i a = s.getD i a := by
  rw [Array.getD_eq_getD_getElem?, Array.getD_eq_getD_getElem?, getElem?_overlay_of_le h hi]

/-- Its own first entries leave an array as it is. -/
theorem overlay_extract (s : Array α) (k : Nat) : overlay (s.extract 0 k) s = s := by
  have hsize : (s.extract 0 k).size ≤ s.size := by rw [Array.size_extract]; omega
  refine Array.ext_getElem? fun i => ?_
  rw [getElem?_overlay hsize, Array.getElem?_extract, Array.size_extract, Nat.zero_add]
  split
  · rfl
  · rfl

theorem extract_of_overlay_eq (h : w.size ≤ s.size) (heq : overlay w s = s) :
    s.extract 0 w.size = w := by
  refine Array.ext_getElem? fun i => ?_
  rw [Array.getElem?_extract, Nat.zero_add]
  split
  · rw [← heq, getElem?_overlay h, if_pos (by omega)]
  · rw [Array.getElem?_eq_none (by omega)]

end Arrays

/-! ## Machines -/

/-- The same machine with other values at the bottom of the stack. -/
def Machine.onto (m : Machine σ) (w : Array Value) : Machine σ :=
  { m with stack := overlay w m.stack }

/-- The same machine with other values at the bottom of the stack, or what two such machines have
become by a collection. -/
inductive Machine.Onto (w : Array Value) : Machine σ → Machine σ → Prop
  | same (m : Machine σ) : Onto w m (m.onto w)
  | collected (m : Machine σ) : Onto w m.safePoint (m.onto w).safePoint

theorem Machine.stack_safePoint (m : Machine σ) : m.safePoint.stack = m.stack := by
  unfold safePoint
  split <;> rfl

theorem Machine.Onto.stack_eq {w : Array Value} {m m' : Machine σ} (h : m.Onto w m') :
    m'.stack = overlay w m.stack := by
  cases h with
  | same => rfl
  | collected m => rw [stack_safePoint, stack_safePoint]; rfl

/-- Computations that end in the same way on machines with other values at the bottom of the
stack. -/
inductive Checked.Onto (w : Array Value) : Checked σ (Machine σ) → Checked σ (Machine σ) → Prop
  | ok {m m' : Machine σ} (onto : m.Onto w m') : Onto w (.ok m) (.ok m')
  | error (f : Failure) (m : Machine σ) : Onto w (.error (f, m)) (.error (f, m.onto w))

/-- Steps that are the same but for other values at the bottom of the stack. -/
inductive Step.Onto (w : Array Value) : Step σ → Step σ → Prop
  | next {m m' : Machine σ} (onto : m.Onto w m') : Onto w (.next m) (.next m')
  | done (v : Value) (m : Machine σ) : Onto w (.done v m) (.done v (m.onto w))
  | failed (f : Failure) (m : Machine σ) : Onto w (.failed f m) (.failed f (m.onto w))
  | native (f : NativeFunction (Native σ)) (args : List Value) (callee : Nat) (m : Machine σ) :
    Onto w (.native f args callee m) (.native f args callee (m.onto w))

theorem Checked.Onto.step {w : Array Value} {c c' : Checked σ (Machine σ)} (h : c.Onto w c') :
    (Step.ofChecked c).Onto w (.ofChecked c') := by
  cases h with
  | ok onto => exact .next onto
  | error f m => exact .failed f m

namespace Machine

variable {w : Array Value} {m : Machine σ}

@[simp] theorem object?_onto (v : Value) : (m.onto w).object? v = m.object? v := rfl

@[simp] theorem asString?_onto (v : Value) : (m.onto w).asString? v = m.asString? v := rfl

@[simp] theorem listItems?_onto (v : Value) : (m.onto w).listItems? v = m.listItems? v := rfl

@[simp] theorem listItem?_onto (v : Value) (i : Nat) : (m.onto w).listItem? v i = m.listItem? v i :=
  rfl

@[simp] theorem valuesEqual_onto (lhs rhs : Value) :
    (m.onto w).valuesEqual lhs rhs = m.valuesEqual lhs rhs := rfl

theorem onto_self (m : Machine σ) (k : Nat) : m.onto (m.stack.extract 0 k) = m := by
  unfold onto
  rw [overlay_extract]

theorem size_onto (h : w.size ≤ m.stack.size) : (m.onto w).stack.size = m.stack.size :=
  size_overlay h

theorem pop_onto (h : w.size < m.stack.size) : (m.onto w).pop = m.pop.onto w := by
  unfold pop onto
  dsimp only
  rw [overlay_pop h]

theorem setPush_onto (h : w.size ≤ m.stack.size) (v : Value) :
    { m.onto w with stack := (m.onto w).stack.push v } =
      { m with stack := m.stack.push v }.onto w := by
  unfold onto
  dsimp only
  rw [overlay_push h]

theorem onto_push (h : w.size ≤ m.stack.size) (v : Value) :
    Checked.Onto w (m.push v) ((m.onto w).push v) := by
  unfold push
  rw [size_onto h, setPush_onto h]
  show Checked.Onto w _ (if m.options.maxStackSize ≤ m.stack.size then _ else _)
  split
  · exact .error _ { m with message := "Stack overflow." }
  · exact .ok (.same _)

/-- A new object is pushed, and garbage may be collected. -/
theorem onto_pushObject (h : w.size ≤ m.stack.size) (o : Object (Native σ)) :
    Checked.Onto w (m.pushObject o) ((m.onto w).pushObject o) := by
  rw [pushObject_eq, pushObject_eq, size_onto h]
  show Checked.Onto w _ (if m.options.maxStackSize ≤ m.stack.size then _ else _)
  split
  · exact .error _ { (m.alloc o).2 with message := "Stack overflow." }
  · have halloc : ((m.onto w).alloc o).2 = (m.alloc o).2.onto w := rfl
    have hpush : { (m.alloc o).2.onto w with stack := (m.onto w).stack.push (m.alloc o).1 } =
        { (m.alloc o).2 with stack := m.stack.push (m.alloc o).1 }.onto w :=
      setPush_onto (m := (m.alloc o).2) h _
    rw [halloc, show ((m.onto w).alloc o).1 = (m.alloc o).1 from rfl, hpush]
    exact .ok (.collected _)

theorem onto_withTop {next : Value → Machine σ → Step σ} (h : w.size < m.stack.size)
    (hnext : ∀ v, Step.Onto w (next v m.pop) (next v (m.pop.onto w))) :
    Step.Onto w (exec.withTop m next) (exec.withTop (m.onto w) next) := by
  unfold exec.withTop takeTop
  rw [show (m.onto w).stack.back? = m.stack.back? from back?_overlay h, pop_onto h]
  cases m.stack.back? with
  | none => exact .failed _ { m with message := "value stack underflow" }
  | some v => exact hnext v

theorem onto_withTwo {next : Value → Value → Machine σ → Step σ} (h : w.size + 1 < m.stack.size)
    (hnext : ∀ lhs rhs, Step.Onto w (next lhs rhs m.pop.pop) (next lhs rhs (m.pop.pop.onto w))) :
    Step.Onto w (exec.withTwo m next) (exec.withTwo (m.onto w) next) := by
  have hpop := m.size_pop
  exact onto_withTop (by omega) fun rhs => onto_withTop (by omega) fun lhs => hnext lhs rhs

theorem onto_binary (h : w.size ≤ m.stack.size) (op : BinaryOp) (lhs rhs : Value) :
    Checked.Onto w (m.binary op lhs rhs) ((m.onto w).binary op lhs rhs) := by
  have herror (sign : String) :
      Checked.Onto w (m.operandError sign lhs rhs) ((m.onto w).operandError sign lhs rhs) :=
    .error _ { m with message := _ }
  unfold binary
  simp only [valuesEqual_onto, asString?_onto]
  split
  · exact onto_push h _
  · exact onto_push h _
  · split
    · exact onto_push h _
    · split
      · split
        · exact onto_pushObject h _
        · split
          · exact onto_push h _
          · exact herror _
      · exact herror _

theorem onto_unary (h : w.size ≤ m.stack.size) (op : UnaryOp) (v : Value) :
    Checked.Onto w (m.unary op v) ((m.onto w).unary op v) := by
  unfold unary
  split
  · exact onto_push h _
  · split
    · exact onto_push h _
    · exact .error _ { m with message := _ }

theorem onto_listIndex (list index : Value) :
    (∃ i, m.listIndex list index = .ok i ∧ (m.onto w).listIndex list index = .ok i) ∨
      ∃ message, m.listIndex list index = .error (.panic, { m with message }) ∧
        (m.onto w).listIndex list index = .error (.panic, { m with message }.onto w) := by
  unfold listIndex
  rw [listItems?_onto]
  split
  · exact .inr ⟨_, rfl, rfl⟩
  · split
    · exact .inr ⟨_, rfl, rfl⟩
    · split
      · split
        · exact .inl ⟨_, rfl, rfl⟩
        · exact .inr ⟨_, rfl, rfl⟩
      · exact .inr ⟨_, rfl, rfl⟩

theorem onto_getIndex (h : w.size ≤ m.stack.size) (list index : Value) :
    Checked.Onto w (m.getIndex list index) ((m.onto w).getIndex list index) := by
  unfold getIndex
  obtain ⟨i, hi, hi'⟩ | ⟨message, hi, hi'⟩ := m.onto_listIndex list index
  · rw [hi, hi']
    simp only [bind, Except.bind, listItem?_onto]
    split
    · exact onto_push h _
    · exact .error _ { m with message := _ }
  · rw [hi, hi']
    exact .error _ { m with message }

theorem onto_setIndex (list index v : Value) :
    Checked.Onto w (m.setIndex list index v) ((m.onto w).setIndex list index v) := by
  unfold setIndex
  obtain ⟨i, hi, hi'⟩ | ⟨message, hi, hi'⟩ := m.onto_listIndex list index
  · rw [hi, hi']
    simp only [bind, Except.bind, listItem?_onto]
    split
    · exact .ok (.same { m with heap := _ })
    · exact .error _ { m with message := _ }
  · rw [hi, hi']
    exact .error _ { m with message }

/-- The stack up to a place above the values at the bottom. -/
theorem shrink_onto (h : w.size ≤ m.stack.size) (hk : w.size ≤ k) :
    { m.onto w with stack := (m.onto w).stack.shrink k } =
      { m with stack := m.stack.shrink k }.onto w := by
  unfold onto
  dsimp only
  rw [overlay_shrink h hk]

theorem le_size_shrink (h : w.size ≤ m.stack.size) (hk : w.size ≤ k) :
    w.size ≤ (m.stack.shrink k).size := by
  rw [Array.size_shrink]
  omega

theorem onto_newList {count : Nat} (h : w.size + count ≤ m.stack.size) :
    Checked.Onto w (m.newList count) ((m.onto w).newList count) := by
  have hle : w.size ≤ m.stack.size := by omega
  have hkept : w.size ≤ m.stack.size - count := by omega
  have hitems : (m.onto w).stack.extract (m.stack.size - count) m.stack.size =
      m.stack.extract (m.stack.size - count) m.stack.size := extract_overlay hle hkept
  unfold newList
  dsimp only
  rw [size_onto hle, hitems, shrink_onto hle hkept]
  split
  · exact .error _ { m with message := "value stack underflow" }
  · exact onto_pushObject (le_size_shrink hle hkept) _

/-! ## Calls and variables -/

theorem onto_pushLocals (count : Nat) (h : w.size ≤ m.stack.size) :
    (∃ stack, pushLocals count m = .ok { m with stack } ∧
        pushLocals count (m.onto w) = .ok ({ m with stack }.onto w) ∧ w.size ≤ stack.size) ∨
      ∃ n, pushLocals count m = .error (.panic, n) ∧
      pushLocals count (m.onto w) = .error (.panic, n.onto w) := by
  induction count generalizing m with
  | zero => exact .inl ⟨m.stack, rfl, rfl, h⟩
  | succ count ih =>
    rw [pushLocals, pushLocals]
    by_cases hfull : m.options.maxStackSize ≤ m.stack.size
    · have hpush : m.push .none = .error (.panic, { m with message := "Stack overflow." }) :=
        if_pos hfull
      have hpush' : (m.onto w).push .none = .error (.panic,
          { m with message := "Stack overflow." }.onto w) :=
        if_pos (by rw [size_onto h]; exact hfull)
      rw [hpush, hpush']
      exact .inr ⟨_, rfl, rfl⟩
    · have hpush : m.push .none = .ok { m with stack := m.stack.push .none } := if_neg hfull
      have hpush' : (m.onto w).push .none =
          .ok ({ m with stack := m.stack.push .none }.onto w) := by
        rw [← setPush_onto h]
        exact if_neg (by rw [size_onto h]; exact hfull)
      rw [hpush, hpush']
      exact ih (by rw [Array.size_push]; omega)

theorem onto_getGlobal (h : w.size ≤ m.stack.size) (slot : Nat) :
    Checked.Onto w (m.getGlobal slot) ((m.onto w).getGlobal slot) := by
  unfold getGlobal
  rw [show (m.onto w).globals = m.globals from rfl]
  split
  · exact onto_push h _
  · exact .error _ { m with message := _ }

theorem onto_setGlobal (slot : Nat) (v : Value) :
    Checked.Onto w (m.setGlobal slot v) ((m.onto w).setGlobal slot v) := by
  unfold setGlobal
  rw [show (m.onto w).globals = m.globals from rfl]
  split
  · exact .ok (.same { m with globals := _ })
  · exact .error _ { m with message := _ }

theorem onto_getLocal {place : Nat} (h : w.size ≤ m.stack.size) (hplace : w.size ≤ place) :
    Checked.Onto w (m.getLocal place) ((m.onto w).getLocal place) := by
  unfold getLocal
  rw [show (m.onto w).stack[place]? = m.stack[place]? from getElem?_overlay_of_le h hplace]
  split
  · exact onto_push h _
  · exact .error _ { m with message := _ }

theorem onto_setLocal {place : Nat} (h : w.size ≤ m.stack.size) (hplace : w.size ≤ place)
    (v : Value) : Checked.Onto w (m.setLocal place v) ((m.onto w).setLocal place v) := by
  have hset : { m.onto w with stack := (m.onto w).stack.setIfInBounds place v } =
      { m with stack := m.stack.setIfInBounds place v }.onto w := by
    unfold onto
    dsimp only
    rw [overlay_set h hplace]
  unfold setLocal
  rw [size_onto h, hset]
  split
  · exact .ok (.same _)
  · exact .error _ { m with message := _ }

theorem onto_enter (h : w.size ≤ m.stack.size) (f : ScriptFunction) (callee : Nat) :
    Checked.Onto w (m.enter f callee) ((m.onto w).enter f callee) := by
  unfold enter
  rw [show (m.onto w).options = m.options from rfl, show (m.onto w).frames = m.frames from rfl]
  split
  · exact .error _ { m with message := _ }
  · obtain ⟨stack, hlocals, hlocals', -⟩ | ⟨n, hlocals, hlocals'⟩ :=
      onto_pushLocals (f.chunk.locals - f.chunk.params) h
    · rw [hlocals, hlocals']
      exact .ok (.same { m with stack, frames := _ })
    · rw [hlocals, hlocals']
      exact .error _ n

theorem onto_call {argc : Nat} (h : w.size + (argc + 1) ≤ m.stack.size) :
    Step.Onto w (m.call argc) ((m.onto w).call argc) := by
  have hle : w.size ≤ m.stack.size := by omega
  have hcallee : (m.onto w).stack.getD (m.stack.size - argc - 1) .none =
      m.stack.getD (m.stack.size - argc - 1) .none :=
    getD_overlay hle (by omega) _
  have hargs : (m.onto w).stack.extract (m.stack.size - argc - 1 + 1) m.stack.size =
      m.stack.extract (m.stack.size - argc - 1 + 1) m.stack.size := extract_overlay hle (by omega)
  unfold call
  dsimp only
  rw [size_onto hle, hcallee, hargs, object?_onto]
  split
  · exact .failed _ { m with message := _ }
  · split
    · split
      · exact (onto_enter hle _ _).step
      · exact .failed _ { m with message := _ }
    · split
      · exact .native _ _ _ m
      · exact .failed _ { m with message := _ }
    · exact .failed _ { m with message := _ }

/-- The value of a call takes the place of its callee and all that lies above it. -/
theorem onto_settle (h : w.size ≤ m.stack.size) (hk : w.size ≤ k) (v : Value) :
    Checked.Onto w ({ m with stack := m.stack.shrink k }.push v)
      ({ m.onto w with stack := (m.onto w).stack.shrink k }.push v) := by
  rw [shrink_onto h hk]
  exact onto_push (le_size_shrink h hk) v

variable {f : Frame}

theorem onto_ret (h : w.size ≤ m.stack.size) (hframe : m.frames.back? = some f)
    (hbase : w.size < f.base) (entry : Nat) (v : Value) :
    Step.Onto w (m.ret entry v) ((m.onto w).ret entry v) := by
  unfold ret
  rw [show (m.onto w).frames = m.frames from rfl, hframe]
  dsimp only
  split
  · exact .done v { m with frames := _ }
  · have hsettle :=
      onto_settle (m := { m with frames := m.frames.pop }) h (Nat.le_sub_one_of_lt hbase) v
    exact hsettle.step

theorem onto_resume {callee : Nat} (h : w.size ≤ m.stack.size) (hcallee : w.size ≤ callee)
    (name : String) (v : Value) :
    Checked.Onto w (m.resume name callee v) ((m.onto w).resume name callee v) := by
  have hfreed {freed : Bool} (message : String) :
      Checked.Onto w (if freed then m.internalError message
        else { m with stack := m.stack.shrink callee }.push v) (if freed
          then (m.onto w).internalError message
              else { m.onto w with stack := (m.onto w).stack.shrink callee }.push v) := by
    cases freed with
    | true => exact .error _ { m with message }
    | false => exact onto_settle h hcallee v
  unfold resume
  split
  · exact .error _ m
  · exact hfreed _

/-! ## Instructions -/

theorem onto_ite (b : Bool) (m n : Machine σ) :
    (if b then m else n).Onto w (if b then m.onto w else n.onto w) := by
  cases b with
  | true => exact .same m
  | false => exact .same n

/-- **Instructions do not look below their operands and the variables of the innermost call**, and
do not change anything there. -/
theorem onto_exec {op : Op} (hframe : m.frames.back? = some f) (hbase : w.size < f.base)
    (h : w.size + op.takes ≤ m.stack.size) (entry : Nat) (chunk : Chunk) :
    Step.Onto w (m.exec entry chunk f.base op) ((m.onto w).exec entry chunk f.base op) := by
  have hle : w.size ≤ m.stack.size := by omega
  have hpop := m.size_pop
  have hpop' := m.pop.size_pop
  unfold exec
  cases op with
  | constant index =>
    dsimp only
    split
    · exact (onto_push hle _).step
    · exact .failed _ { m with message := _ }
  | none | boolean b => exact (onto_push hle _).step
  | pop => exact onto_withTop h fun v => .next (.same _)
  | getGlobal slot => exact (onto_getGlobal hle slot).step
  | setGlobal slot => exact onto_withTop h fun v => (onto_setGlobal slot v).step
  | getLocal slot => exact (onto_getLocal hle (by omega)).step
  | setLocal slot =>
    replace h : w.size + 1 ≤ m.stack.size := h
    exact onto_withTop h fun v => (onto_setLocal (by omega) (by omega) v).step
  | unary op =>
    replace h : w.size + 1 ≤ m.stack.size := h
    exact onto_withTop h fun v => (onto_unary (by omega) op v).step
  | binary op =>
    replace h : w.size + 2 ≤ m.stack.size := h
    exact onto_withTwo h fun lhs rhs => (onto_binary (by omega) op lhs rhs).step
  | jump target => exact .next (.same (m.jump target))
  | jumpIfFalse target => exact onto_withTop h fun v => .next (onto_ite _ m.pop (m.pop.jump target))
  | jumpIfFalseKeep target =>
    rw [show (m.onto w).stack.back? = m.stack.back? from back?_overlay h]
    dsimp only
    split
    · exact .next (onto_ite _ m (m.jump target))
    · exact .failed _ { m with message := _ }
  | jumpIfTrueKeep target =>
    rw [show (m.onto w).stack.back? = m.stack.back? from back?_overlay h]
    dsimp only
    split
    · exact .next (onto_ite _ (m.jump target) m)
    · exact .failed _ { m with message := _ }
  | call argc => exact onto_call h
  | ret =>
    replace h : w.size + 1 ≤ m.stack.size := h
    exact onto_withTop h fun v => onto_ret (m := m.pop) (by omega) hframe hbase entry v
  | newList count => exact (onto_newList h).step
  | getIndex =>
    replace h : w.size + 2 ≤ m.stack.size := h
    exact onto_withTwo h fun list index => (onto_getIndex (by omega) list index).step
  | setIndex =>
    replace h : w.size + 3 ≤ m.stack.size := h
    exact onto_withTop (by omega) fun v => onto_withTwo (by omega) fun list index =>
      (onto_setIndex list index v).step

/-- The innermost call comes to an instruction, whose operands lie above the base of that call. -/
structure Executes (m : Machine σ) (f : Frame) (op : Op) : Prop where
  innermost : m.frames.back? = some f
  code : f.chunk.code[f.pc]?.map (·.op) = some op
  operands : f.base + op.takes ≤ m.stack.size

theorem Executes.step_eq {op : Op} (h : m.Executes f op) (entry : Nat) :
    m.step entry = (m.jump (f.pc + 1)).exec entry f.chunk f.base op := by
  obtain ⟨i, hi, rfl⟩ := Option.map_eq_some_iff.1 h.code
  unfold step
  simp only [h.innermost, hi]

/-- **The next instruction does not look below the innermost call.** -/
theorem Executes.onto_step {op : Op} (h : m.Executes f op) (hw : w.size < f.base) (entry : Nat) :
    Step.Onto w (m.step entry) ((m.onto w).step entry) := by
  have hover : (m.onto w).Executes f op := by
    refine ⟨h.innermost, h.code, ?_⟩
    rw [size_onto (by have := h.operands; omega)]
    exact h.operands
  obtain ⟨outer, hframes⟩ := Array.back?_eq_some_iff.1 h.innermost
  have hback : (m.jump (f.pc + 1)).frames.back? = some { f with pc := f.pc + 1 } := by
    rw [frames_jump hframes, Array.back?_push]
  rw [h.step_eq, hover.step_eq]
  exact onto_exec (m := m.jump (f.pc + 1)) hback hw
    (by have := h.operands; show _ ≤ m.stack.size; omega) entry f.chunk

end Machine

end ScriptMachine
