import ScriptMachine.Proofs.Evaluate
import ScriptMachine.Proofs.Sources
import ScriptMachine.Proofs.Steps
/-!
# Calls in progress

A call that is being executed owns the top of the stack: its local variables, and above them the
operands of the expression that is being evaluated.

* `Activation.load`: a machine in the middle of a call;
* `Activation.Follows`: an instruction does to a loaded machine what an operator does to values.
-/

namespace ScriptMachine

/-- A call in progress: its code, the stack below its local variables, and the calls around it. -/
structure Activation where
  chunk : Chunk
  below : Array Value
  outer : Array Frame

namespace Activation

variable {σ : Type} {K : Activation} {m : Machine σ} {env temps : Array Value} {pc : Nat}
    {entry : Nat}

/-- A machine that executes a call, at an instruction, with given local variables and operands. -/
def load (K : Activation) (m : Machine σ) (env temps : Array Value) (pc : Nat) : Machine σ :=
  { m with
    stack := K.below ++ env ++ temps
    frames := K.outer.push { chunk := K.chunk, pc, base := K.below.size } }

/-- A machine whose stack and calls are those of an activation with more on top. -/
def Covers (K : Activation) (m m' : Machine σ) : Prop :=
  ∃ s fr, m' = { m with stack := K.below ++ s, frames := K.outer ++ fr }

theorem covers_load (K : Activation) (m : Machine σ) (env temps : Array Value) (pc : Nat) :
    K.Covers m (K.load m env temps pc) :=
  ⟨env ++ temps, #[{ chunk := K.chunk, pc, base := K.below.size }], by
    simp [load, Array.append_assoc]⟩

/-! ## The stack -/

theorem jump_load (target : Nat) :
    (K.load m env temps pc).jump target = K.load m env temps target := by
  have hframes := Machine.frames_jump (m := K.load m env temps pc) rfl target
  simp only [Machine.jump] at hframes ⊢
  rw [hframes]
  rfl

/-- An instruction is executed with the next one in mind. -/
theorem step_load {op : Op} {pos : Position} (h : K.chunk.code[pc]? = some ⟨op, pos⟩) :
    (K.load m env temps pc).step entry =
      (K.load m env temps (pc + 1)).exec entry K.chunk K.below.size op := by
  have hback : (K.load m env temps pc).frames.back? =
      some { chunk := K.chunk, pc, base := K.below.size } := by
    simp [load]
  simp only [Machine.step, hback, h, jump_load]

theorem stack_load_push (v : Value) :
    (K.load m env (temps.push v) pc).stack = (K.below ++ env ++ temps).push v :=
  Array.append_push

theorem back?_load (v : Value) : (K.load m env (temps.push v) pc).stack.back? = some v := by
  rw [stack_load_push, Array.back?_push]

theorem takeTop_load (v : Value) :
    (K.load m env (temps.push v) pc).takeTop = .ok (v, K.load m env temps pc) := by
  unfold Machine.takeTop Machine.pop
  rw [back?_load, stack_load_push, Array.pop_push]
  rfl

theorem withTop_load (v : Value) (next : Value → Machine σ → Step σ) :
    Machine.exec.withTop (K.load m env (temps.push v) pc) next =
      next v (K.load m env temps pc) := by
  simp only [Machine.exec.withTop, takeTop_load]

theorem withTwo_load (v w : Value) (next : Value → Value → Machine σ → Step σ) :
    Machine.exec.withTwo (K.load m env ((temps.push v).push w) pc) next =
      next v w (K.load m env temps pc) := by
  simp only [Machine.exec.withTwo, withTop_load]

theorem push_load (v : Value) :
    (K.load m env temps pc).push v =
      if m.options.maxStackSize ≤ (K.below ++ env ++ temps).size then
        (K.load m env temps pc).panic "Stack overflow."
      else .ok (K.load m env (temps.push v) pc) := by
  unfold Machine.push
  have heq : (K.load m env temps pc).stack = K.below ++ env ++ temps := rfl
  rw [heq]
  split
  · rw [if_pos ‹_›]
  · rw [if_neg ‹_›, ← Array.append_push]
    rfl

/-! ## Operators -/

/-- What an instruction does after it has taken its operands: it pushes the value of an operator, or
fails as the operator does. -/
def Follows (K : Activation) (env temps : Array Value) (pc : Nat) (x : Checked σ (Machine σ))
    (o : Outcome σ Failure Value) : Prop :=
  match o with
  | .ok v m => x = (K.load m env temps pc).push v
  | .failed f m => x = .error (f, K.load m env temps pc)
  | .unwound _ | .exhausted => False

theorem pushObject_load (hgc : m.options.gcStepObjects = 0) (o : Object (Native σ)) :
    K.Follows env temps pc ((K.load m env temps pc).pushObject o)
      (Run.lift (ε := Failure) (·.alloc o) m) := by
  show (K.load m env temps pc).pushObject o = (K.load (m.alloc o).2 env temps pc).push (m.alloc o).1
  have halloc : (K.load m env temps pc).alloc o = ((m.alloc o).1,
      K.load (m.alloc o).2 env temps pc) :=
    rfl
  have hsafe : ∀ m' : Machine σ, m'.options.gcStepObjects = 0 → m'.safePoint = m' := by
    intro m' h
    simp [Machine.safePoint, Heap.shouldCollect, h]
  unfold Machine.pushObject
  rw [halloc]
  simp only [push_load]
  split
  · rfl
  · exact congrArg Except.ok (hsafe _ hgc)

theorem binary_load (hgc : m.options.gcStepObjects = 0) (op : BinaryOp) (lhs rhs : Value) :
    K.Follows env temps pc ((K.load m env temps pc).binary op lhs rhs)
      (Core.operate op lhs rhs m) := by
  have hs : ∀ v, (K.load m env temps pc).asString? v = m.asString? v := fun _ => rfl
  unfold Machine.binary Core.operate
  cases op with
  | eq | ne => exact rfl
  | _ =>
    simp only [hs]
    cases lhs.asNumber? with
    | some x =>
      cases rhs.asNumber? with
      | some y => exact rfl
      | none =>
        cases m.asString? lhs with
        | none => exact rfl
        | some s =>
          cases m.asString? rhs with
          | none => exact rfl
          | some t => first | exact pushObject_load hgc _ | exact rfl
    | none =>
      cases m.asString? lhs with
      | none => exact rfl
      | some s =>
        cases m.asString? rhs with
        | none => exact rfl
        | some t => first | exact pushObject_load hgc _ | exact rfl

theorem unary_load (op : UnaryOp) (v : Value) :
    K.Follows env temps pc ((K.load m env temps pc).unary op v) (Core.operateUnary op v m) := by
  unfold Machine.unary Core.operateUnary
  cases op with
  | not => exact rfl
  | neg => cases v.asNumber? <;> exact rfl

/-! ## Lists and variables -/

theorem listIndex_load (list index : Value) :
    (K.load m env temps pc).listIndex list index =
      match m.listIndex list index with
      | .ok i => .ok i
      | .error e => .error (e.1, K.load e.2 env temps pc) := by
  have hitems : (K.load m env temps pc).listItems? list = m.listItems? list := rfl
  unfold Machine.listIndex
  rw [hitems]
  cases m.listItems? list with
  | none => rfl
  | some items =>
    cases index.asNumber? with
    | none => rfl
    | some x =>
      cases hx : x.toNat? with
      | none => simp only [hx]; rfl
      | some i =>
        simp only [hx]
        split <;> rfl

theorem getIndex_load (list index : Value) :
    K.Follows env temps pc ((K.load m env temps pc).getIndex list index)
      (Core.readItem list index m) := by
  unfold Machine.getIndex Core.readItem
  rw [listIndex_load]
  have hitem (i : Nat) : (K.load m env temps pc).listItem? list i = m.listItem? list i := rfl
  cases m.listIndex list index with
  | error e => exact rfl
  | ok i =>
    simp only [bind, Except.bind, hitem]
    cases m.listItem? list i <;> exact rfl

theorem getGlobal_load (slot : Nat) :
    K.Follows env temps pc ((K.load m env temps pc).getGlobal slot) (Core.readGlobal slot m) := by
  unfold Machine.getGlobal Core.readGlobal
  have hget : (K.load m env temps pc).globals.get? slot = m.globals.get? slot := rfl
  rw [hget]
  cases m.globals.get? slot <;> exact rfl

theorem getLocal_load {slot : Nat} (h : slot < env.size) :
    (K.load m env temps pc).getLocal (K.below.size + slot) =
      (K.load m env temps pc).push (env.getD slot .none) := by
  have hget : (K.load m env temps pc).stack[K.below.size + slot]? = some env[slot] := by
    show (K.below ++ env ++ temps)[K.below.size + slot]? = _
    rw [Array.append_assoc, Array.getElem?_append_right (by omega),
      Array.getElem?_append_left (by omega), Nat.add_sub_cancel_left, Array.getElem?_eq_getElem h]
  unfold Machine.getLocal
  rw [hget]
  simp [Array.getD, h]

/-- What an instruction does that changes the machine and pushes nothing. -/
def Changes (K : Activation) (env : Array Value) (pc : Nat) (x : Checked σ (Machine σ))
    (o : Outcome σ Failure Unit) : Prop :=
  match o with
  | .ok _ m => x = .ok (K.load m env #[] pc)
  | .failed f m => x = .error (f, K.load m env #[] pc)
  | .unwound _ | .exhausted => False

theorem setIndex_load (list index v : Value) :
    K.Changes env pc ((K.load m env #[] pc).setIndex list index v)
      (Core.writeItem list index v m) := by
  unfold Core.writeItem Machine.setIndex
  rw [listIndex_load]
  have hitem (i : Nat) : (K.load m env #[] pc).listItem? list i = m.listItem? list i := rfl
  cases m.listIndex list index with
  | error e => exact rfl
  | ok i =>
    simp only [bind, Except.bind, hitem]
    cases m.listItem? list i <;> cases list.asObject? <;> exact rfl

theorem setGlobal_load (slot : Nat) (v : Value) :
    K.Changes env pc ((K.load m env #[] pc).setGlobal slot v) (Core.writeGlobal slot v m) := by
  unfold Core.writeGlobal Machine.setGlobal
  have hset : (K.load m env #[] pc).globals.set? slot v = m.globals.set? slot v := rfl
  rw [hset]
  cases m.globals.set? slot v <;> exact rfl

theorem setLocal_load {slot : Nat} (h : slot < env.size) (v : Value) :
    (K.load m env #[] pc).setLocal (K.below.size + slot) v =
      .ok (K.load m (env.setIfInBounds slot v) #[] pc) := by
  unfold Machine.setLocal
  rw [if_pos (by show _ < (K.below ++ env ++ #[]).size; simp; omega)]
  simp only [load, Array.append_empty]
  rw [Array.setIfInBounds_append_right (Nat.le_add_right _ _), Nat.add_sub_cancel_left]

/-! ## Lists and calls -/

theorem extract_append_right {α : Type} (xs ys : Array α) :
    (xs ++ ys).extract xs.size (xs ++ ys).size = ys := by
  rw [Array.size_append, Array.extract_append_right]
  simp

theorem shrink_append_left {α : Type} (xs ys : Array α) : (xs ++ ys).shrink xs.size = xs := by
  rw [Array.shrink_eq_take, Array.take_eq_extract, Array.extract_append_left]
  simp

theorem newList_load (hgc : m.options.gcStepObjects = 0) (vs : List Value) :
    K.Follows env temps pc ((K.load m env (temps ++ vs.toArray) pc).newList vs.length)
      (Run.lift (ε := Failure) (·.alloc (.list vs.toArray)) m) := by
  have hstack : (K.load m env (temps ++ vs.toArray) pc).stack = (K.below ++ env ++ temps) ++
      vs.toArray := by
    simp [load, Array.append_assoc]
  have hlen : vs.toArray.size = vs.length := by simp
  have hsize : ((K.below ++ env ++ temps) ++ vs.toArray).size - vs.length =
      (K.below ++ env ++ temps).size := by
    rw [Array.size_append, hlen, Nat.add_sub_cancel]
  have hshrink : { K.load m env (temps ++ vs.toArray) pc with stack := K.below ++ env ++ temps } =
      K.load m env temps pc := rfl
  unfold Machine.newList
  rw [hstack, if_neg (by rw [Array.size_append, hlen]; omega)]
  simp only [hsize, extract_append_right, shrink_append_left, hshrink]
  exact pushObject_load hgc _

/-- The call of a function by an activation with the function and its arguments on top. -/
def callee (K : Activation) (f : ScriptFunction) (env temps : Array Value) (v : Value) (pc : Nat) :
    Activation where
  chunk := f.chunk
  below := K.below ++ env ++ temps.push v
  outer := K.outer.push { chunk := K.chunk, pc, base := K.below.size }

/-- The stack of an activation that is about to call a value. -/
theorem stack_load_call (v : Value) (args : List Value) :
    (K.load m env (temps.push v ++ args.toArray) pc).stack =
      (K.below ++ env ++ temps).push v ++ args.toArray := by
  rw [← Array.append_push, Array.append_assoc]
  rfl

theorem size_stack_load_call (v : Value) (args : List Value) :
    (K.load m env (temps.push v ++ args.toArray) pc).stack.size =
      (K.below ++ env ++ temps).size + 1 + args.length := by
  rw [stack_load_call, Array.size_append, Array.size_push]
  simp only [List.size_toArray]

/-- A call looks at the value below the arguments. -/
theorem call_load (v : Value) (args : List Value) :
    (K.load m env (temps.push v ++ args.toArray) pc).call args.length =
      match m.object? v with
      | some (.function f) =>
        .ofChecked (if args.length = f.arity then
          (K.load m env (temps.push v ++ args.toArray) pc).enter f (K.below ++ env ++ temps).size
          else (K.load m env (temps.push v ++ args.toArray) pc).arityError f.name
            f.arity args.length)
      | some (.native f) =>
        if args.length = f.arity then
          .native f args (K.below ++ env ++ temps).size
            (K.load m env (temps.push v ++ args.toArray) pc)
        else .ofChecked
          ((K.load m env (temps.push v ++ args.toArray) pc).arityError f.name f.arity args.length)
      | _ => .ofChecked ((K.load m env (temps.push v ++ args.toArray) pc).panic
          ("Can't call a value of type `" ++ m.typeName v ++ "`.")) := by
  have hsize : (K.load m env (temps.push v ++ args.toArray) pc).stack.size =
      (K.below ++ env ++ temps).size + 1 + args.length := size_stack_load_call v args
  have hcallee : (K.load m env (temps.push v ++ args.toArray) pc).stack.size - args.length - 1 =
      (K.below ++ env ++ temps).size := by omega
  have hget : (K.load m env (temps.push v ++ args.toArray) pc).stack.getD
      (K.below ++ env ++ temps).size .none = v := by
    rw [stack_load_call, Array.getD_eq_getD_getElem?, Array.getElem?_append_left (by simp)]
    simp
  have hargs : ((K.load m env (temps.push v ++ args.toArray) pc).stack.extract
      ((K.below ++ env ++ temps).size + 1)
      (K.load m env (temps.push v ++ args.toArray) pc).stack.size).toList = args := by
    rw [stack_load_call, ← Array.size_push v, extract_append_right]
  unfold Machine.call
  rw [if_neg (by omega)]
  simp only [hcallee, hget, hargs]
  rfl

/-- Local variables are pushed, unless the stack overflows. -/
theorem pushLocals_eq (count : Nat) (m : Machine σ) :
    Machine.pushLocals count m =
        .ok { m with stack := m.stack ++ Array.replicate count Value.none } ∨
      ∃ m', Machine.pushLocals count m = .error (.panic, m') ∧ m'.message = "Stack overflow." := by
  induction count generalizing m with
  | zero => exact .inl (by simp [Machine.pushLocals])
  | succ count ih =>
    unfold Machine.pushLocals
    cases hpush : m.push .none with
    | error e =>
      unfold Machine.push at hpush
      split at hpush
      · obtain rfl := Except.error.inj hpush
        exact .inr ⟨_, rfl, rfl⟩
      · cases hpush
    | ok m' =>
      unfold Machine.push at hpush
      split at hpush
      · cases hpush
      · obtain rfl := Except.ok.inj hpush
        have hstack : m.stack.push .none ++ Array.replicate count Value.none =
            m.stack ++ Array.replicate (count + 1) Value.none :=
          Array.toList_inj.1 (by simp [List.replicate_succ])
        rw [← hstack]
        exact ih _

/-- A call opens an activation of its own, unless a limit is reached. -/
theorem enter_load (v : Value) (args : List Value) (f : ScriptFunction) :
    (K.load m env (temps.push v ++ args.toArray) pc).enter f (K.below ++ env ++ temps).size =
        .ok ((K.callee f env temps v pc).load m
          (args.toArray ++ Array.replicate (f.chunk.locals - f.chunk.params) Value.none) #[] 0) ∨
      ∃ m', (K.load m env (temps.push v ++ args.toArray) pc).enter f
        (K.below ++ env ++ temps).size = .error (.panic, m') ∧ m'.message = "Stack overflow." := by
  unfold Machine.enter
  split
  · exact .inr ⟨_, rfl, rfl⟩
  · rcases pushLocals_eq (f.chunk.locals - f.chunk.params)
      (K.load m env (temps.push v ++ args.toArray) pc) with h | ⟨m', h, hm⟩
    · refine .inl ?_
      rw [h]
      refine congrArg Except.ok ?_
      simp only [load, callee, Array.append_assoc, Array.append_empty, Array.size_append,
        Array.size_push, Nat.add_assoc]
    · rw [h]
      exact .inr ⟨m', rfl, hm⟩

/-- The result of a native function takes the place of the call. -/
theorem resume_load (v : Value) (args : List Value) (name : String) (result : Value) :
    (K.load m env (temps.push v ++ args.toArray) pc).resume name
      (K.below ++ env ++ temps).size result =
      if result.isInterrupt then .error (.panic, K.load m env (temps.push v ++ args.toArray) pc)
      else if (result.asObject?.map fun id => m.heap.contains id) = some false then
        (K.load m env (temps.push v ++ args.toArray) pc).internalError
          ("native function `" ++ name ++ "` returned a freed object")
      else (K.load m env temps pc).push result := by
  have hshrink : { K.load m env (temps.push v ++ args.toArray) pc with
      stack := (K.load m env (temps.push v ++ args.toArray) pc).stack.shrink
        (K.below ++ env ++ temps).size } = K.load m env temps pc := by
    have hstack : (K.load m env (temps.push v ++ args.toArray) pc).stack =
        (K.below ++ env ++ temps) ++ (#[v] ++ args.toArray) := by
      rw [stack_load_call, ← Array.append_assoc]
      rfl
    rw [hstack, shrink_append_left]
    rfl
  unfold Machine.resume
  rw [hshrink]
  cases result.asObject? with
  | none => rfl
  | some id =>
    have hheap : (K.load m env (temps.push v ++ args.toArray) pc).heap.contains id =
        m.heap.contains id := rfl
    cases hc : m.heap.contains id <;>
      simp only [hheap, hc, Option.map_some, Bool.not_false, Bool.not_true, Bool.false_eq_true,
        if_true, if_false, Option.some.injEq, reduceCtorEq]

/-- A return to an activation leaves the result in the place of the call. -/
theorem ret_load_callee {f : ScriptFunction} {v : Value} {env' : Array Value} {pc' : Nat}
    (hentry : entry ≤ K.outer.size) (result : Value) :
    ((K.callee f env temps v pc).load m env' #[] pc').ret entry result =
      .ofChecked ((K.load m env temps pc).push result) := by
  have hback : ((K.callee f env temps v pc).load m env' #[] pc').frames.back? =
      some { chunk := f.chunk, pc := pc', base := (K.callee f env temps v pc).below.size } := by
    simp [load, callee]
  have hsize : ((K.callee f env temps v pc).load m env' #[] pc').frames.size ≠ entry + 1 := by
    simp [load, callee]
    omega
  have hbase : (K.callee f env temps v pc).below.size - 1 = (K.below ++ env ++ temps).size := by
    simp only [callee, Array.size_append, Array.size_push]
    omega
  have hstack : ((K.callee f env temps v pc).load m env' #[] pc').stack =
      (K.below ++ env ++ temps) ++ (#[v] ++ env') := by
    simp only [load, callee, Array.append_empty]
    rw [Array.append_push, ← Array.append_assoc]
    rfl
  unfold Machine.ret
  rw [hback]
  simp only [hsize, if_false, hbase, hstack, shrink_append_left]
  congr 2
  simp [load, callee]

/-- A return of the outermost call ends the run. -/
theorem ret_load_outermost (hentry : K.outer.size = entry) (result : Value) :
    (K.load m env #[] pc).ret entry result =
      .done result { m with stack := K.below ++ env, frames := K.outer } := by
  have hback : (K.load m env #[] pc).frames.back? =
      some { chunk := K.chunk, pc, base := K.below.size } := by
    simp [load]
  unfold Machine.ret
  rw [hback]
  simp only [load, Array.size_push, hentry, if_true, Array.append_empty, Array.pop_push]

end Activation

end ScriptMachine
