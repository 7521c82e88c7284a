import ScriptMachine.Execute
import ScriptMachine.Proofs.Match
import ScriptMachine.Proofs.Outcome
/-!
# Evaluating resolved programs

The meaning of a resolved program, by recursion on its tree and without any code, stack or calls in
progress. Fuel bounds how deep calls nest and how often each loop runs.

* `Core.Expr.eval`, `Core.Stmt.eval`: the parts of a function;
* `Core.Declarations`: the declarations that functions on the heap come from;
* `Core.apply`, `Core.Func.eval`: calls, and whole functions.
-/

namespace ScriptMachine

variable {σ α : Type}

/-- The end of an operation that may fail. -/
def Outcome.ofChecked : Checked σ (α × Machine σ) → Outcome σ Failure α
  | .ok (a, m) => .ok a m
  | .error (f, m) => .failed f m

/-- A run that does not end. -/
def Run.exhausted {ε : Type} : Run σ ε α := fun _ => .exhausted

namespace Core

/-! ## Operators, variables and lists -/

/-- The value of an operator. -/
def operate (op : BinaryOp) (lhs rhs : Value) : Run σ Failure Value := fun m =>
  match op with
  | .eq => .ok (.ofBool (m.valuesEqual lhs rhs)) m
  | .ne => .ok (.ofBool (!m.valuesEqual lhs rhs)) m
  | op =>
    match lhs.asNumber?, rhs.asNumber? with
    | some x, some y => .ok (Machine.numberOp op x y) m
    | _, _ =>
      match m.asString? lhs, m.asString? rhs with
      | some s, some t =>
        if op = .add then Run.lift (·.alloc (.string (s ++ t))) m
        else match Machine.stringOrder? op s t with
          | some b => .ok (.ofBool b) m
          | none => .ofChecked (m.operandError (Machine.opSign op) lhs rhs)
      | _, _ => .ofChecked (m.operandError (Machine.opSign op) lhs rhs)

/-- The value of a sign or a negation. -/
def operateUnary (op : UnaryOp) (v : Value) : Run σ Failure Value := fun m =>
  match op with
  | .not => .ok (.ofBool (!v.isTruthy)) m
  | .neg =>
    match v.asNumber? with
    | some x => .ok (.ofDouble x.neg) m
    | none => .ofChecked (m.panic ("Can't negate a value of type `" ++ m.typeName v ++ "`."))

/-- The item of a list at an index. -/
def readItem (list index : Value) : Run σ Failure Value := fun m =>
  .ofChecked do
    let i ← m.listIndex list index
    match m.listItem? list i with
    | some v => return (v, m)
    | none => m.internalError "list index out of range"

/-- Replaces the item of a list at an index. -/
def writeItem (list index v : Value) : Run σ Failure Unit := fun m =>
  .ofChecked do return ((), ← m.setIndex list index v)

/-- The value of a global variable. -/
def readGlobal (slot : Nat) : Run σ Failure Value := fun m =>
  match m.globals.get? slot with
  | some v => .ok v m
  | none => .ofChecked (m.panic ("`" ++ m.globals.name slot ++ "` is used before it was assigned."))

/-- Assigns to a global variable. -/
def writeGlobal (slot : Nat) (v : Value) : Run σ Failure Unit := fun m =>
  .ofChecked do return ((), ← m.setGlobal slot v)

/-- Whether the first operand decides the result. -/
def decides (op : LogicalOp) (v : Value) : Bool :=
  match op with
  | .and => !v.isTruthy
  | .or => v.isTruthy

/-! ## Expressions and statements -/

section

variable (apply : Value → List Value → Run σ Failure Value)

mutual

/-- The value of an expression. -/
def Expr.eval (env : Array Value) : Expr → Run σ Failure Value
  | .constant _ v => return v
  | .boolean _ b => return .ofBool b
  | .none _ => return .none
  | .list _ items => do
    let vs ← Expr.evalAll env items
    Run.lift (·.alloc (.list vs.toArray))
  | .local _ slot => return env.getD slot .none
  | .global _ slot => readGlobal slot
  | .index _ object place => do
    let list ← object.eval env
    let i ← place.eval env
    readItem list i
  | .call _ callee args => do
    let f ← callee.eval env
    let vs ← Expr.evalAll env args
    apply f vs
  | .unary _ op operand => do
    let v ← operand.eval env
    operateUnary op v
  | .binary _ op lhs rhs => do
    let x ← lhs.eval env
    let y ← rhs.eval env
    operate op x y
  | .logical _ op lhs rhs => do
    let v ← lhs.eval env
    if decides op v then return v else rhs.eval env

/-- The values of expressions, from left to right. -/
def Expr.evalAll (env : Array Value) : List Expr → Run σ Failure (List Value)
  | [] => return []
  | e :: es => do
    let v ← e.eval env
    let vs ← Expr.evalAll env es
    return v :: vs

end

/-- How a statement ends: the next one follows, or the loop around is left, each with the local
variables as they are then, or the function returns. -/
inductive Exit
  | next (env : Array Value)
  | left (env : Array Value)
  | returned (v : Value)

/-- Repeats the body of a loop as long as its condition holds. -/
def repeatWhile (cond : Array Value → Run σ Failure Value)
    (body : Array Value → Run σ Failure Exit) : (fuel : Nat) → Array Value → Run σ Failure Exit
  | 0, _ => Run.exhausted
  | fuel + 1, env => do
    let v ← cond env
    if v.isTruthy then
      match ← body env with
      | .next env => repeatWhile cond body fuel env
      | .left env => return .next env
      | .returned v => return .returned v
    else return .next env

/-- Assigns to a variable; gives the local variables afterwards. -/
def Target.assign (env : Array Value) (v : Value) : Target → Run σ Failure (Array Value)
  | .local slot => return env.setIfInBounds slot v
  | .global slot => do
    writeGlobal slot v
    return env

mutual

/-- Executes a statement. -/
def Stmt.eval (fuel : Nat) : Stmt → Array Value → Run σ Failure Exit
  | .expr _ e, env => do
    let _ ← e.eval apply env
    return .next env
  | .assign _ target value, env => do
    let v ← value.eval apply env
    let env ← target.assign env v
    return .next env
  | .setIndex _ object place value, env => do
    let list ← object.eval apply env
    let i ← place.eval apply env
    let v ← value.eval apply env
    writeItem list i v
    return .next env
  | .ret _ value, env => do
    let v ← value.eval apply env
    return .returned v
  | .branch _ cond body rest, env => do
    let v ← cond.eval apply env
    if v.isTruthy then Stmt.evalAll fuel body env else Stmt.evalAll fuel rest env
  | .loop _ cond body, env =>
    repeatWhile (fun env => cond.eval apply env) (Stmt.evalAll fuel body) fuel env
  | .leave _, env => return .left env
  | .pass, env => return .next env

/-- Executes statements in order. -/
def Stmt.evalAll (fuel : Nat) : List Stmt → Array Value → Run σ Failure Exit
  | [], env => return .next env
  | s :: ss, env => do
    match ← s.eval fuel env with
    | .next env => Stmt.evalAll fuel ss env
    | exit => return exit

end

/-- Executes a function with the values of its parameters; its other variables have no value yet. -/
def Func.evalBody (fuel : Nat) (d : Func) (args : List Value) : Run σ Failure Value := do
  let env := args.toArray ++ Array.replicate (d.locals - d.params) Value.none
  match ← Stmt.evalAll apply fuel d.body env with
  | .returned v => return v
  | _ => return .none

end

/-! ## Calls -/

/-- A way from the functions on the heap back to declarations with their code. -/
structure Declarations where
  find? : ScriptFunction → Option Func
  script_eq : ∀ {f : ScriptFunction} {d : Func}, find? f = some d → d.script = f
  inBounds : ∀ {f : ScriptFunction} {d : Func}, find? f = some d → ∃ globals, d.Scoped globals
  isSome_find? : ∀ {d : Func} {globals : Nat}, d.Scoped globals → (find? d.script).isSome = true

open Classical in
/-- There is such a way: any declaration that gave the code will do. -/
noncomputable def Declarations.choose : Declarations where
  find? f :=
    if h : ∃ d : Func, d.script = f ∧ ∃ globals, d.Scoped globals then some h.choose else none
  script_eq {f d} h := by
    split at h
    · rename_i hd
      obtain rfl := Option.some.inj h
      exact hd.choose_spec.1
    · cases h
  inBounds {f d} h := by
    split at h
    · rename_i hd
      obtain rfl := Option.some.inj h
      exact hd.choose_spec.2
    · cases h
  isSome_find? {d globals} h := by
    rw [dif_pos ⟨d, rfl, globals, h⟩]
    rfl

/-- Calls a native function. It is refused if it raised a panic or returned an object that was
freed. -/
def applyNative (call : Callback σ) (f : NativeFunction (Native σ)) (args : List Value) :
    Run σ Failure Value := do
  Run.modify fun m => { m with nativeDepth := m.nativeDepth + 1 }
  let v ← Run.infallible (call (f.code args))
  Run.modify fun m => { m with nativeDepth := m.nativeDepth - 1 }
  fun m =>
    if v.isInterrupt then .failed .panic m
    else if (v.asObject?.map fun id => m.heap.contains id) = some false then
      .ofChecked (m.internalError ("native function `" ++ f.name ++ "` returned a freed object"))
    else .ok v m

/-- Calls a value with arguments. -/
def apply (call : Callback σ) (sources : Declarations) :
    (fuel : Nat) → Value → List Value → Run σ Failure Value
  | 0, _, _ => Run.exhausted
  | fuel + 1, v, args => fun m =>
    match m.object? v with
    | some (.function f) =>
      if args.length = f.arity then
        match sources.find? f with
        | some d => d.evalBody (apply call sources fuel) fuel args m
        | none => .failed .unknown m
      else .ofChecked (m.arityError f.name f.arity args.length)
    | some (.native f) =>
      if args.length = f.arity then applyNative call f args m
      else .ofChecked (m.arityError f.name f.arity args.length)
    | _ => .ofChecked (m.panic ("Can't call a value of type `" ++ m.typeName v ++ "`."))

/-- **Executes a program**, as a function without arguments. -/
def Func.eval (call : Callback σ) (sources : Declarations) (fuel : Nat) (d : Func) :
    Run σ Failure Value :=
  d.evalBody (apply call sources fuel) fuel []

end Core

end ScriptMachine
