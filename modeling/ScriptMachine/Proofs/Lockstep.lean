import ScriptMachine.Execute
import ScriptMachine.Proofs.Heap
import ScriptMachine.Proofs.Link
import ScriptMachine.Proofs.Pointwise
import ScriptMachine.Proofs.Value
/-!
# Two machines in lockstep

An instruction looks at values only to tell their kinds, their numbers and texts, and whether two of
them are the same. So machines that correspond in these respects take corresponding steps.

* `Lockstep`: a correspondence that every change an instruction makes preserves;
* `Lockstep.takes_step`: **corresponding machines take corresponding steps**;
* `Lockstep.checks_resume`: corresponding results of native functions lead to corresponding
  machines.
-/

namespace ScriptMachine

variable {σ α : Type}

/-! ## Corresponding parts -/

/-- Code that differs in corresponding constants only. -/
structure Chunk.Corresponds (val : Value → Value → Prop) (c c' : Chunk) : Prop where
  shape : c' = { c with constants := c'.constants }
  constants : Pointwise val c.constants c'.constants

/-- Calls at one point of corresponding code. -/
structure Frame.Corresponds (val : Value → Value → Prop) (f f' : Frame) : Prop where
  chunk : f.chunk.Corresponds val f'.chunk
  pc : f.pc = f'.pc
  base : f.base = f'.base

/-- Objects of one kind with corresponding contents. -/
inductive Object.Corresponds (val : Value → Value → Prop) (code : Native σ → Native σ → Prop) :
    Object (Native σ) → Object (Native σ) → Prop
  | string {s : String} : Corresponds val code (.string s) (.string s)
  | list {xs ys : Array Value} (items : Pointwise val xs ys) :
    Corresponds val code (.list xs) (.list ys)
  | function {f f' : ScriptFunction} (name : f.name = f'.name) (arity : f.arity = f'.arity)
    (chunk : f.chunk.Corresponds val f'.chunk) : Corresponds val code (.function f) (.function f')
  | native {f f' : NativeFunction (Native σ)} (name : f.name = f'.name) (arity : f.arity = f'.arity)
    (body : code f.code f'.code) : Corresponds val code (.native f) (.native f')

variable {val val' : Value → Value → Prop}

variable {c c' : Chunk}

theorem Chunk.Corresponds.code_eq (h : c.Corresponds val c') : c.code = c'.code := by
  rw [h.shape]

theorem Chunk.Corresponds.mono (h : c.Corresponds val c')
    (hval : ∀ v v', val v v' → val' v v') : c.Corresponds val' c' :=
  ⟨h.shape, h.constants.mono hval⟩

theorem Chunk.Corresponds.refl {c : Chunk} (h : ∀ v ∈ c.constants, val v v) : c.Corresponds val c :=
  ⟨rfl, .refl h⟩

theorem Frame.Corresponds.mono {f f' : Frame} (h : f.Corresponds val f')
    (hval : ∀ v v', val v v' → val' v v') : f.Corresponds val' f' :=
  ⟨h.chunk.mono hval, h.pc, h.base⟩

theorem Object.Corresponds.typeName_eq {code : Native σ → Native σ → Prop}
    {o o' : Object (Native σ)} (h : o.Corresponds val code o') : o.typeName = o'.typeName := by
  cases h <;> rfl

theorem Machine.pushObject_eq (m : Machine σ) (o : Object (Native σ)) :
    m.pushObject o = if m.options.maxStackSize ≤ m.stack.size then
        .error (.panic, { (m.alloc o).2 with message := "Stack overflow." })
      else .ok ({ (m.alloc o).2 with stack := m.stack.push (m.alloc o).1 }).safePoint := by
  show ((m.alloc o).2.push (m.alloc o).1 >>= fun n => pure n.safePoint) = _
  unfold Machine.push
  have hoptions : (m.alloc o).2.options = m.options := rfl
  have hstack : (m.alloc o).2.stack = m.stack := rfl
  rw [hoptions, hstack]
  split <;> rfl

section

variable {code : Native σ → Native σ → Prop}

theorem Object.Corresponds.refl {o : Object (Native σ)} (hval : ∀ v ∈ o.references, val v v)
    (hcode : ∀ f, o = .native f → code f.code f.code) : o.Corresponds val code o := by
  cases o with
  | string s => exact .string
  | list items => exact .list (.refl hval)
  | function f => exact .function rfl rfl (.refl hval)
  | native f => exact .native rfl rfl (hcode f rfl)

variable {o o' : Object (Native σ)} (h : o.Corresponds val code o')

include h

theorem Object.Corresponds.symm
    (hval : ∀ v v', val v v' → val' v' v) (hcode : ∀ c c', code c c' → code c' c) :
    o'.Corresponds val' code o := by
  cases h with
  | string => exact .string
  | list items => exact .list (items.symm hval)
  | function name arity chunk =>
    exact .function name.symm arity.symm ⟨by rw [chunk.shape], chunk.constants.symm hval⟩
  | native name arity body => exact .native name.symm arity.symm (hcode _ _ body)

theorem Object.Corresponds.references : Pointwise val o.references o'.references := by
  cases h with
  | string | native => exact .empty
  | list items => exact items
  | function _ _ chunk => exact chunk.constants

end

/-- A correspondence between machines that changes of corresponding parts preserve. Worlds tell
which values correspond. What a machine looks like is known only as long as its heap `fits`. -/
structure Lockstep (σ : Type) where
  World : Type
  /-- Corresponding values. -/
  val : World → Value → Value → Prop
  /-- Corresponding machines. -/
  rel : World → Machine σ → Machine σ → Prop
  /-- Corresponding native functions. -/
  code : Native σ → Native σ → Prop
  fits : Heap (Native σ) → Heap (Native σ) → Prop
  val_of_asObject?_eq_none : ∀ {w v}, v.asObject? = none → val w v v
  val_cases : ∀ {w v v'}, val w v v' → (v = v' ∧ v.asObject? = none) ∨
    ∃ id id', v.asObject? = some id ∧ v'.asObject? = some id'
  val_eq_iff : ∀ {w m m' u u' v v'}, rel w m m' → fits m.heap m'.heap → val w u u' → val w v v' →
    (u = v ↔ u' = v')
  stack : ∀ {w m m'}, rel w m m' → fits m.heap m'.heap → Pointwise (val w) m.stack m'.stack
  frames : ∀ {w m m'}, rel w m m' → fits m.heap m'.heap →
    Pointwise (Frame.Corresponds (val w)) m.frames m'.frames
  global : ∀ {w m m'}, rel w m m' → fits m.heap m'.heap → ∀ slot,
    Option.Rel (val w) (m.globals.get? slot) (m'.globals.get? slot)
  object? : ∀ {w m m' v v'}, rel w m m' → fits m.heap m'.heap → val w v v' →
    Option.Rel (Object.Corresponds (val w) code) (m.object? v) (m'.object? v')
  names : ∀ {w m m'}, rel w m m' → m.globals.names = m'.globals.names
  limits : ∀ {w m m'}, rel w m m' → m.options.maxStackSize = m'.options.maxStackSize ∧
    m.options.maxCallDepth = m'.options.maxCallDepth
  setMessage : ∀ {w m m'}, rel w m m' → ∀ message, rel w { m with message } { m' with message }
  setCalls : ∀ {w m m' stack stack' frames frames'}, rel w m m' → Pointwise (val w) stack stack' →
    Pointwise (Frame.Corresponds (val w)) frames frames' →
    rel w { m with stack, frames } { m' with stack := stack', frames := frames' }
  setGlobal : ∀ {w m m' v v' slot globals globals'}, rel w m m' → val w v v' →
    m.globals.set? slot v = some globals → m'.globals.set? slot v' = some globals' →
    rel w { m with globals } { m' with globals := globals' }
  setItem : ∀ {w m m' v v' id id'}, rel w m m' → fits m.heap m'.heap → val w v v' →
    v.asObject? = some id → v'.asObject? = some id' → ∀ {i u u'}, val w u u' →
    rel w { m with heap := m.heap.modify id fun o => o.setItem i u }
      { m' with heap := m'.heap.modify id' fun o => o.setItem i u' }
  newString : ∀ {w m m'}, rel w m m' → ∀ s, ∃ w', (∀ v v', val w v v' → val w' v v') ∧
    rel w' (m.alloc (.string s)).2 (m'.alloc (.string s)).2 ∧
    val w' (m.alloc (.string s)).1 (m'.alloc (.string s)).1
  newList : ∀ {w m m' xs ys}, rel w m m' → Pointwise (val w) xs ys →
    ∃ w', (∀ v v', val w v v' → val w' v v') ∧
      rel w' (m.alloc (.list xs)).2 (m'.alloc (.list ys)).2 ∧
      val w' (m.alloc (.list xs)).1 (m'.alloc (.list ys)).1
  safePoint : ∀ {w m m'}, rel w m m' → ∃ w', rel w' m.safePoint m'.safePoint

namespace Lockstep

variable (R : Lockstep σ)

/-- Checked operations that end in the same way on corresponding machines, with the same message if
they fail. -/
inductive Checks : Checked σ (Machine σ) → Checked σ (Machine σ) → Prop
  | ok {w : R.World} {m m' : Machine σ} (rel : R.rel w m m') : Checks (.ok m) (.ok m')
  | error {w : R.World} {f : Failure} {m m' : Machine σ} (rel : R.rel w m m')
    (message : m.message = m'.message) : Checks (.error (f, m)) (.error (f, m'))

/-- Steps that lead to corresponding machines in the same way, with the same message if they
fail. -/
inductive Takes : Step σ → Step σ → Prop
  | next {w : R.World} {m m' : Machine σ} (rel : R.rel w m m') : Takes (.next m) (.next m')
  | done {w : R.World} {v v' : Value} {m m' : Machine σ} (val : R.val w v v') (rel : R.rel w m m') :
    Takes (.done v m) (.done v' m')
  | failed {w : R.World} {f : Failure} {m m' : Machine σ} (rel : R.rel w m m')
    (message : m.message = m'.message) : Takes (.failed f m) (.failed f m')
  | native {w : R.World} {f f' : NativeFunction (Native σ)} {args args' : Array Value}
    {callee : Nat} {m m' : Machine σ} (name : f.name = f'.name) (code : R.code f.code f'.code)
    (operands : Pointwise (R.val w) args args') (rel : R.rel w m m') :
    Takes (.native f args.toList callee m) (.native f' args'.toList callee m')

variable {R} {w : R.World} {m m' : Machine σ} {u u' v v' : Value}

theorem Checks.takes {c c' : Checked σ (Machine σ)} (h : R.Checks c c') :
    R.Takes (.ofChecked c) (.ofChecked c') := by
  cases h with
  | ok h => exact .next h
  | error h message => exact .failed h message

/-! ## Looking at values -/

theorem isTruthy_eq (hv : R.val w v v') : v.isTruthy = v'.isTruthy := by
  obtain ⟨rfl, -⟩ | ⟨id, id', hid, hid'⟩ := R.val_cases hv
  · rfl
  · rw [Value.isTruthy_of_asObject? hid, Value.isTruthy_of_asObject? hid']

theorem isInterrupt_eq (hv : R.val w v v') : v.isInterrupt = v'.isInterrupt := by
  obtain ⟨rfl, -⟩ | ⟨id, id', hid, hid'⟩ := R.val_cases hv
  · rfl
  · rw [Value.isInterrupt_of_asObject? hid, Value.isInterrupt_of_asObject? hid']

theorem asNumber?_eq (hv : R.val w v v') : v.asNumber? = v'.asNumber? := by
  obtain ⟨rfl, -⟩ | ⟨id, id', hid, hid'⟩ := R.val_cases hv
  · rfl
  · rw [Value.asNumber?_of_asObject? hid, Value.asNumber?_of_asObject? hid']

theorem val_ofBool (w : R.World) (b : Bool) : R.val w (.ofBool b) (.ofBool b) :=
  R.val_of_asObject?_eq_none (Value.asObject?_ofBool b)

theorem val_ofDouble (w : R.World) (x : Double) : R.val w (.ofDouble x) (.ofDouble x) :=
  R.val_of_asObject?_eq_none (Value.asObject?_ofDouble x)

theorem val_none (w : R.World) : R.val w .none .none :=
  R.val_of_asObject?_eq_none Value.asObject?_none

theorem checks_fail (h : R.rel w m m') (f : Failure) {s s' : String} (hs : s = s') :
    R.Checks (.error (f, { m with message := s })) (.error (f, { m' with message := s' })) := by
  subst hs
  exact .error (R.setMessage h s) rfl

theorem checks_setGlobal (h : R.rel w m m') (slot : Nat) (hv : R.val w v v') :
    R.Checks (m.setGlobal slot v) (m'.setGlobal slot v') := by
  unfold Machine.setGlobal
  have hsome : (m.globals.set? slot v).isSome = (m'.globals.set? slot v').isSome := by
    have hsize := congrArg List.length (R.names h)
    rw [Globals.length_names, Globals.length_names] at hsize
    unfold Globals.size at hsize
    unfold Globals.set?
    rw [hsize]
    split <;> rfl
  cases hx : m.globals.set? slot v with
  | none =>
    cases hy : m'.globals.set? slot v' with
    | none => exact checks_fail h _ rfl
    | some globals' => rw [hx, hy] at hsome; cases hsome
  | some globals =>
    cases hy : m'.globals.set? slot v' with
    | none => rw [hx, hy] at hsome; cases hsome
    | some globals' => exact .ok (R.setGlobal h hv hx hy)

variable (h : R.rel w m m') (hf : R.fits m.heap m'.heap)

include h hf

theorem asString?_eq (hv : R.val w v v') : m.asString? v = m'.asString? v' := by
  unfold Machine.asString?
  obtain ⟨ho, ho'⟩ | ⟨o, o', ho, ho', hoo⟩ := rel_cases (R.object? h hf hv)
  · rw [ho, ho']
  · rw [ho, ho']
    cases hoo <;> rfl

theorem listItems? (hv : R.val w v v') :
    Option.Rel (Pointwise (R.val w)) (m.listItems? v) (m'.listItems? v') := by
  unfold Machine.listItems?
  obtain ⟨ho, ho'⟩ | ⟨o, o', ho, ho', hoo⟩ := rel_cases (R.object? h hf hv) <;> rw [ho, ho']
  · exact .none
  · cases hoo with
    | list items => exact .some items
    | string | function | native => exact .none

theorem typeName_eq (hv : R.val w v v') : m.typeName v = m'.typeName v' := by
  obtain ⟨rfl, hprim⟩ | ⟨id, id', hid, hid'⟩ := R.val_cases hv
  · unfold Machine.typeName
    cases hkind : v.kind with
    | object id => exact absurd hkind (Value.kind_ne_object hprim id)
    | _ => rfl
  · have hobject := R.object? h hf hv
    simp only [Machine.object?, hid, hid'] at hobject
    simp only [Machine.typeName, Value.kind_of_asObject? hid, Value.kind_of_asObject? hid']
    obtain ⟨ho, ho'⟩ | ⟨o, o', ho, ho', hoo⟩ := rel_cases hobject
    · rw [ho, ho']
    · rw [ho, ho']
      exact hoo.typeName_eq

/-- The texts of corresponding values inside a list are the same. -/
theorem itemText_eq (room : Nat) (hv : R.val w v v') : m.itemText room v = m'.itemText room v' := by
  induction room using Nat.strongRecOn generalizing v v' with
  | ind room ih =>
    rw [Machine.itemText.eq_def, Machine.itemText.eq_def]
    dsimp only
    obtain ⟨rfl, hprim⟩ | ⟨id, id', hid, hid'⟩ := R.val_cases hv
    · cases hkind : v.kind with
      | object id => exact absurd hkind (Value.kind_ne_object hprim id)
      | _ => rfl
    · have hobject := R.object? h hf hv
      simp only [Machine.object?, hid, hid'] at hobject
      simp only [Value.kind_of_asObject? hid, Value.kind_of_asObject? hid']
      obtain ⟨ho, ho'⟩ | ⟨o, o', ho, ho', hoo⟩ := rel_cases hobject
      · rw [ho, ho']
      · rw [ho, ho']
        cases hoo with
        | string => rfl
        | function name _ _ | native name _ _ => simp only [name]
        | list items =>
          cases room with
          | zero => rfl
          | succ room =>
            simp only
            rw [items.map_toList_eq fun _ _ hu => ih room (Nat.lt_succ_self room) hu]

theorem display_eq (hv : R.val w v v') : m.display v = m'.display v' := by
  unfold Machine.display
  rw [asString?_eq h hf hv, itemText_eq h hf _ hv]

theorem valuesEqual_eq (hu : R.val w u u') (hv : R.val w v v') :
    m.valuesEqual u v = m'.valuesEqual u' v' := by
  have hsame : (u == v) = (u' == v') := by
    rw [Bool.eq_iff_iff, beq_iff_eq, beq_iff_eq]
    exact R.val_eq_iff h hf hu hv
  unfold Machine.valuesEqual
  rw [asNumber?_eq hu, asNumber?_eq hv, hsame, asString?_eq h hf hu, asString?_eq h hf hv]

/-! ## The stack -/

/-- Changes of the stack alone. -/
theorem setStack {stack stack' : Array Value} (hs : Pointwise (R.val w) stack stack') :
    R.rel w { m with stack } { m' with stack := stack' } :=
  R.setCalls h hs (R.frames h hf)

/-- Changes of the calls in progress alone. -/
theorem setFrames {frames frames' : Array Frame}
    (hfr : Pointwise (Frame.Corresponds (R.val w)) frames frames') :
    R.rel w { m with frames } { m' with frames := frames' } :=
  R.setCalls h (R.stack h hf) hfr

theorem rel_jump (target : Nat) : R.rel w (m.jump target) (m'.jump target) := by
  have hframes := R.frames h hf
  unfold Machine.jump
  rw [← hframes.size_eq]
  exact setFrames h hf (hframes.modify _ fun _ _ hfr => ⟨hfr.chunk, rfl, hfr.base⟩)

theorem checks_push (hv : R.val w v v') : R.Checks (m.push v) (m'.push v') := by
  have hstack := R.stack h hf
  unfold Machine.push
  rw [(R.limits h).1, hstack.size_eq]
  split
  · exact checks_fail h _ rfl
  · exact .ok (setStack h hf (hstack.push hv))

/-- Machines with a new object each, of which little is known before the object is on the stack. -/
theorem checks_pushObject {o o' : Object (Native σ)} {w' : R.World}
    (hle : ∀ v v', R.val w v v' → R.val w' v v') (halloc : R.rel w' (m.alloc o).2 (m'.alloc o').2)
    (hnew : R.val w' (m.alloc o).1 (m'.alloc o').1) :
    R.Checks (m.pushObject o) (m'.pushObject o') := by
  have hstack := R.stack h hf
  have hframes := (R.frames h hf).mono fun _ _ hfr => hfr.mono hle
  rw [Machine.pushObject_eq, Machine.pushObject_eq, (R.limits h).1, hstack.size_eq]
  split
  · exact checks_fail halloc _ rfl
  · have hpushed : R.rel w' { (m.alloc o).2 with stack := m.stack.push (m.alloc o).1 }
        { (m'.alloc o').2 with stack := m'.stack.push (m'.alloc o').1 } :=
      R.setCalls halloc ((hstack.mono hle).push hnew) hframes
    obtain ⟨w'', hsafe⟩ := R.safePoint hpushed
    exact .ok hsafe

/-- Instructions that work on the top of the stack. -/
theorem takes_withTop {next next' : Value → Machine σ → Step σ}
    (hnext : ∀ v v', R.val w v v' → R.rel w m.pop m'.pop →
      R.Takes (next v m.pop) (next' v' m'.pop)) :
    R.Takes (Machine.exec.withTop m next) (Machine.exec.withTop m' next') := by
  have hstack := R.stack h hf
  unfold Machine.exec.withTop Machine.takeTop
  obtain ⟨hx, hy⟩ | ⟨v, v', hx, hy, hv⟩ := rel_cases hstack.back? <;> rw [hx, hy]
  · exact .failed (R.setMessage h _) rfl
  · exact hnext v v' hv (setStack h hf hstack.pop)

theorem takes_withTwo {next next' : Value → Value → Machine σ → Step σ}
    (hnext : ∀ u u' v v', R.val w u u' → R.val w v v' → R.rel w m.pop.pop m'.pop.pop →
      R.Takes (next u v m.pop.pop) (next' u' v' m'.pop.pop)) :
    R.Takes (Machine.exec.withTwo m next) (Machine.exec.withTwo m' next') :=
  takes_withTop h hf fun v v' hv hpop =>
    takes_withTop hpop hf fun u u' hu hpop' => hnext u u' v v' hu hv hpop'

/-! ## Operators -/

theorem checks_operandError (sign : String) (hu : R.val w u u') (hv : R.val w v v') :
    R.Checks (m.operandError sign u v) (m'.operandError sign u' v') :=
  checks_fail h _ (by rw [typeName_eq h hf hu, typeName_eq h hf hv])

theorem checks_binary (op : BinaryOp)
    (hu : R.val w u u') (hv : R.val w v v') : R.Checks (m.binary op u v) (m'.binary op u' v') := by
  unfold Machine.binary
  split
  · rw [valuesEqual_eq h hf hu hv]
    exact checks_push h hf (val_ofBool w _)
  · rw [valuesEqual_eq h hf hu hv]
    exact checks_push h hf (val_ofBool w _)
  · rw [asNumber?_eq hu, asNumber?_eq hv]
    split
    · refine checks_push h hf ?_
      cases op <;> first | exact val_ofDouble w _ | exact val_ofBool w _
    · rw [asString?_eq h hf hu, asString?_eq h hf hv]
      split
      · split
        · rename_i s t _ _ _
          obtain ⟨w', hle, halloc, hnew⟩ := R.newString h (s ++ t)
          exact checks_pushObject h hf hle halloc hnew
        · split
          · exact checks_push h hf (val_ofBool w _)
          · exact checks_operandError h hf _ hu hv
      · exact checks_operandError h hf _ hu hv

theorem checks_unary (op : UnaryOp) (hv : R.val w v v') :
    R.Checks (m.unary op v) (m'.unary op v') := by
  unfold Machine.unary
  split
  · rw [isTruthy_eq hv]
    exact checks_push h hf (val_ofBool w _)
  · rw [asNumber?_eq hv]
    split
    · exact checks_push h hf (val_ofDouble w _)
    · exact checks_fail h _ (by rw [typeName_eq h hf hv])

/-! ## Lists -/

/-- An index names the same place, or fails with the same message. -/
theorem listIndex_cases (hu : R.val w u u') (hv : R.val w v v') :
    (∃ i, m.listIndex u v = .ok i ∧ m'.listIndex u' v' = .ok i) ∨
      ∃ message, m.listIndex u v = .error (.panic, { m with message }) ∧
        m'.listIndex u' v' = .error (.panic, { m' with message }) := by
  unfold Machine.listIndex
  obtain ⟨hx, hy⟩ | ⟨xs, ys, hx, hy, hitems⟩ := rel_cases (listItems? h hf hu)
  · rw [hx, hy, typeName_eq h hf hu]
    exact .inr ⟨_, rfl, rfl⟩
  · rw [hx, hy, asNumber?_eq hv, typeName_eq h hf hv]
    dsimp only [Machine.listIndex.outOfBounds]
    rw [hitems.size_eq]
    split
    · exact .inr ⟨_, rfl, rfl⟩
    · split
      · split
        · exact .inl ⟨_, rfl, rfl⟩
        · exact .inr ⟨_, rfl, rfl⟩
      · exact .inr ⟨_, rfl, rfl⟩

theorem listItem? (hu : R.val w u u') (i : Nat) :
    Option.Rel (R.val w) (m.listItem? u i) (m'.listItem? u' i) := by
  unfold Machine.listItem?
  obtain ⟨hx, hy⟩ | ⟨xs, ys, hx, hy, hitems⟩ := rel_cases (listItems? h hf hu) <;> rw [hx, hy]
  · exact .none
  · exact hitems i

theorem checks_getIndex (hu : R.val w u u') (hv : R.val w v v') :
    R.Checks (m.getIndex u v) (m'.getIndex u' v') := by
  unfold Machine.getIndex
  obtain ⟨i, hi, hi'⟩ | ⟨message, hi, hi'⟩ := listIndex_cases h hf hu hv <;> rw [hi, hi']
  · simp only [bind, Except.bind]
    obtain ⟨hx, hy⟩ | ⟨x, y, hx, hy, hitem⟩ := rel_cases (listItem? h hf hu i) <;> rw [hx, hy]
    · exact checks_fail h _ rfl
    · exact checks_push h hf hitem
  · exact checks_fail h _ rfl

theorem checks_setIndex {l l' : Value} (hl : R.val w l l') (hu : R.val w u u') (hv : R.val w v v') :
    R.Checks (m.setIndex l u v) (m'.setIndex l' u' v') := by
  unfold Machine.setIndex
  obtain ⟨i, hi, hi'⟩ | ⟨message, hi, hi'⟩ := listIndex_cases h hf hl hu <;> rw [hi, hi']
  · simp only [bind, Except.bind]
    obtain ⟨hx, hy⟩ | ⟨x, y, hx, hy, -⟩ := rel_cases (listItem? h hf hl i) <;> rw [hx, hy]
    · exact checks_fail h _ rfl
    · obtain ⟨rfl, hprim⟩ | ⟨id, id', hid, hid'⟩ := R.val_cases hl
      · rw [hprim]
        exact checks_fail h _ rfl
      · rw [hid, hid']
        exact .ok (R.setItem h hf hl hid hid' hv)
  · exact checks_fail h _ rfl

theorem checks_newList (count : Nat) : R.Checks (m.newList count) (m'.newList count) := by
  have hstack := R.stack h hf
  unfold Machine.newList
  rw [hstack.size_eq]
  split
  · exact checks_fail h _ rfl
  · have hshrunk := setStack h hf (hstack.shrink (m'.stack.size - count))
    obtain ⟨w', hle, halloc, hnew⟩ :=
      R.newList hshrunk (hstack.extract (m'.stack.size - count) m'.stack.size)
    exact checks_pushObject hshrunk hf hle halloc hnew

/-! ## Calls -/

/-- Local variables are pushed on both machines or overflow both. -/
theorem pushLocals_cases (count : Nat) :
    (∃ stack stack', Machine.pushLocals count m = .ok { m with stack } ∧
        Machine.pushLocals count m' = .ok { m' with stack := stack' } ∧
        Pointwise (R.val w) stack stack') ∨
      ∃ n n', Machine.pushLocals count m = .error (.panic, n) ∧
        Machine.pushLocals count m' = .error (.panic, n') ∧ R.rel w n n' ∧
        n.message = n'.message := by
  induction count generalizing m m' with
  | zero => exact .inl ⟨m.stack, m'.stack, rfl, rfl, R.stack h hf⟩
  | succ count ih =>
    have hstack := R.stack h hf
    unfold Machine.pushLocals Machine.push
    rw [(R.limits h).1, hstack.size_eq]
    by_cases hfull : m'.options.maxStackSize ≤ m'.stack.size
    · rw [if_pos hfull, if_pos hfull]
      exact .inr ⟨_, _, rfl, rfl, R.setMessage h _, rfl⟩
    · rw [if_neg hfull, if_neg hfull]
      exact ih (setStack h hf (hstack.push (val_none w))) hf

theorem checks_enter {f f' : ScriptFunction} (hchunk : f.chunk.Corresponds (R.val w) f'.chunk)
    (callee : Nat) : R.Checks (m.enter f callee) (m'.enter f' callee) := by
  have hframes := R.frames h hf
  have hlocals : f'.chunk.locals = f.chunk.locals := by rw [hchunk.shape]
  have hparams : f'.chunk.params = f.chunk.params := by rw [hchunk.shape]
  unfold Machine.enter
  rw [(R.limits h).2, hframes.size_eq, hlocals, hparams]
  split
  · exact checks_fail h _ rfl
  · obtain ⟨s, s', hs, hs', hstack⟩ | ⟨n, n', hn, hn', hrel, hmessage⟩ :=
      pushLocals_cases h hf (f.chunk.locals - f.chunk.params)
    · rw [hs, hs']
      exact .ok (R.setCalls (setStack h hf hstack) hstack (hframes.push ⟨hchunk, rfl, rfl⟩))
    · rw [hn, hn']
      exact .error hrel hmessage

theorem takes_call (argc : Nat) : R.Takes (m.call argc) (m'.call argc) := by
  have hstack := R.stack h hf
  unfold Machine.call
  rw [hstack.size_eq]
  split
  · exact (checks_fail h _ rfl).takes
  · have hcallee := hstack.getD (m'.stack.size - argc - 1) (val_none w)
    have htype := typeName_eq h hf hcallee
    dsimp only
    obtain ⟨ho, ho'⟩ | ⟨o, o', ho, ho', hoo⟩ :=
      rel_cases (R.object? h hf hcallee) <;> rw [ho, ho', htype]
    · exact (checks_fail h _ rfl).takes
    · cases hoo with
      | string | list => exact (checks_fail h _ rfl).takes
      | function name arity chunk =>
        dsimp only
        rw [name, arity]
        split
        · exact (checks_enter h hf chunk _).takes
        · exact (checks_fail h _ rfl).takes
      | native name arity body =>
        dsimp only
        rw [arity]
        split
        · exact .native name body (hstack.extract _ _) h
        · exact (checks_fail h _ (by rw [name])).takes

/-- Corresponding results of native functions take the place of their calls. An interruption has the
message that was left. -/
theorem checks_resume (name : String) (callee : Nat)
    (hv : R.val w v v') (hmessage : v.isInterrupt = true → m.message = m'.message) :
    R.Checks (m.resume name callee v) (m'.resume name callee v') := by
  have hpush := checks_push (setStack h hf ((R.stack h hf).shrink callee)) hf hv
  unfold Machine.resume
  rw [← isInterrupt_eq hv]
  split
  · rename_i hinterrupt
    exact .error h (hmessage hinterrupt)
  · obtain ⟨rfl, hprim⟩ | ⟨id, id', hid, hid'⟩ := R.val_cases hv
    · rw [hprim]
      exact hpush
    · have hobject := R.object? h hf hv
      simp only [Machine.object?, hid, hid'] at hobject
      have hlive : m.heap.contains id = m'.heap.contains id' := by
        rw [Heap.contains_eq_isSome_get?, Heap.contains_eq_isSome_get?]
        obtain ⟨ho, ho'⟩ | ⟨o, o', ho, ho', -⟩ := rel_cases hobject
        · rw [ho, ho']
        · rw [ho, ho']
          rfl
      rw [hid, hid']
      dsimp only
      rw [hlive]
      split
      · exact checks_fail h _ rfl
      · exact hpush

theorem takes_ret (entry : Nat) (hv : R.val w v v') :
    R.Takes (m.ret entry v) (m'.ret entry v') := by
  have hframes := R.frames h hf
  unfold Machine.ret
  obtain ⟨hx, hy⟩ | ⟨f, f', hx, hy, hff⟩ := rel_cases hframes.back?
  · rw [hx, hy]
    exact (checks_fail h _ rfl).takes
  · rw [hx, hy, hframes.size_eq]
    dsimp only
    split
    · exact .done hv (setFrames h hf hframes.pop)
    · rw [hff.base]
      have hclosed := R.setCalls h ((R.stack h hf).shrink (f'.base - 1)) hframes.pop
      exact (checks_push hclosed hf hv).takes

/-! ## Variables -/

theorem checks_getGlobal (slot : Nat) : R.Checks (m.getGlobal slot) (m'.getGlobal slot) := by
  unfold Machine.getGlobal
  obtain ⟨hx, hy⟩ | ⟨v, v', hx, hy, hv⟩ := rel_cases (R.global h hf slot) <;> rw [hx, hy]
  · exact checks_fail h _ (by rw [Globals.name_eq, Globals.name_eq, R.names h])
  · exact checks_push h hf hv

theorem checks_getLocal (place : Nat) : R.Checks (m.getLocal place) (m'.getLocal place) := by
  unfold Machine.getLocal
  obtain ⟨hx, hy⟩ | ⟨v, v', hx, hy, hv⟩ := rel_cases (R.stack h hf place) <;> rw [hx, hy]
  · exact checks_fail h _ rfl
  · exact checks_push h hf hv

theorem checks_setLocal (place : Nat) (hv : R.val w v v') :
    R.Checks (m.setLocal place v) (m'.setLocal place v') := by
  have hstack := R.stack h hf
  unfold Machine.setLocal
  rw [hstack.size_eq]
  split
  · exact .ok (setStack h hf (hstack.set place hv))
  · exact checks_fail h _ rfl

/-! ## Instructions -/

theorem takes_branch (hv : R.val w v v') (target : Nat) :
    R.Takes (.next (if v.isTruthy then m else m.jump target))
        (.next (if v'.isTruthy then m' else m'.jump target)) ∧
      R.Takes (.next (if v.isTruthy then m.jump target else m))
        (.next (if v'.isTruthy then m'.jump target else m')) := by
  rw [isTruthy_eq hv]
  have hjump := rel_jump h hf target
  split
  · exact ⟨.next h, .next hjump⟩
  · exact ⟨.next hjump, .next h⟩

theorem takes_exec (hc : c.Corresponds (R.val w) c') (entry base : Nat) (op : Op) :
    R.Takes (m.exec entry c base op) (m'.exec entry c' base op) := by
  unfold Machine.exec
  cases op with
  | constant index =>
    dsimp only
    obtain ⟨hx, hy⟩ | ⟨v, v', hx, hy, hv⟩ := rel_cases (hc.constants index) <;> rw [hx, hy]
    · exact (checks_fail h _ rfl).takes
    · exact (checks_push h hf hv).takes
  | none => exact (checks_push h hf (val_none w)).takes
  | boolean b => exact (checks_push h hf (val_ofBool w b)).takes
  | pop => exact takes_withTop h hf fun _ _ _ hpop => .next hpop
  | getGlobal slot => exact (checks_getGlobal h hf slot).takes
  | setGlobal slot =>
    exact takes_withTop h hf fun _ _ hv hpop => (checks_setGlobal hpop slot hv).takes
  | getLocal slot => exact (checks_getLocal h hf _).takes
  | setLocal slot =>
    exact takes_withTop h hf fun _ _ hv hpop => (checks_setLocal hpop hf _ hv).takes
  | unary op => exact takes_withTop h hf fun _ _ hv hpop => (checks_unary hpop hf op hv).takes
  | binary op =>
    exact takes_withTwo h hf fun _ _ _ _ hu hv hpop => (checks_binary hpop hf op hu hv).takes
  | jump target => exact .next (rel_jump h hf target)
  | jumpIfFalse target =>
    exact takes_withTop h hf fun _ _ hv hpop => (takes_branch hpop hf hv target).1
  | jumpIfFalseKeep target =>
    dsimp only
    obtain ⟨hx, hy⟩ | ⟨v, v', hx, hy, hv⟩ := rel_cases (R.stack h hf).back? <;> rw [hx, hy]
    · exact (checks_fail h _ rfl).takes
    · exact (takes_branch h hf hv target).1
  | jumpIfTrueKeep target =>
    dsimp only
    obtain ⟨hx, hy⟩ | ⟨v, v', hx, hy, hv⟩ := rel_cases (R.stack h hf).back? <;> rw [hx, hy]
    · exact (checks_fail h _ rfl).takes
    · exact (takes_branch h hf hv target).2
  | call argc => exact takes_call h hf argc
  | ret => exact takes_withTop h hf fun _ _ hv hpop => takes_ret hpop hf entry hv
  | newList count => exact (checks_newList h hf count).takes
  | getIndex =>
    exact takes_withTwo h hf fun _ _ _ _ hu hv hpop => (checks_getIndex hpop hf hu hv).takes
  | setIndex =>
    exact takes_withTop h hf fun _ _ hv hpop =>
      takes_withTwo hpop hf fun _ _ _ _ hl hu hpop' => (checks_setIndex hpop' hf hl hu hv).takes

/-- **Corresponding machines take corresponding steps.** -/
theorem takes_step (entry : Nat) : R.Takes (m.step entry) (m'.step entry) := by
  unfold Machine.step
  obtain ⟨hx, hy⟩ | ⟨f, f', hx, hy, hff⟩ := rel_cases (R.frames h hf).back? <;> rw [hx, hy]
  · exact (checks_fail h _ rfl).takes
  · dsimp only
    rw [← hff.chunk.code_eq, ← hff.pc, ← hff.base]
    split
    · exact (checks_fail h _ rfl).takes
    · exact takes_exec (rel_jump h hf _) hf hff.chunk entry f.base _

end Lockstep

end ScriptMachine
