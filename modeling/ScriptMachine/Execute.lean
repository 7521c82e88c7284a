import ScriptMachine.Machine.Report
import ScriptMachine.Run
/-!
# Running bytecode

One step executes one instruction of the innermost call. A step leads to the next machine, ends the
program, fails, or asks for a native function to be called; the loop around it calls the function
and puts its result in the place of the call. Values live on the stack while they are in use, so
that a collection finds them.

* `Machine.step`: one instruction;
* `Machine.resume`: the return of a native function;
* `execute`: a whole chunk.
-/

namespace ScriptMachine

/-- The result of something that may fail, or the failure with the machine that it leaves. -/
abbrev Checked (σ α : Type) := Except (Failure × Machine σ) α

/-- Where a step leads. -/
inductive Step (σ : Type)
  | next (m : Machine σ)
  | done (v : Value) (m : Machine σ)
  | failed (f : Failure) (m : Machine σ)
  /-- A native function is to be called; its arguments lie on the stack above the callee. -/
  | native (f : NativeFunction (Native σ)) (args : List Value) (callee : Nat) (m : Machine σ)

/-- A step that does nothing but change the machine, or fails. -/
@[inline] def Step.ofChecked {σ : Type} : Checked σ (Machine σ) → Step σ
  | .ok m => .next m
  | .error (f, m) => .failed f m

namespace Machine

variable {σ α : Type}

/-! ## Failing -/

/-- Fails with a message for the script's author. -/
def panic (m : Machine σ) (message : String) : Checked σ α := .error (.panic, { m with message })

/-- Fails because the code or the machine is broken. -/
def internalError (m : Machine σ) (message : String) : Checked σ α :=
  .error (.unknown, { m with message })

/-- Fails because an operator does not fit its operands. -/
def operandError (m : Machine σ) (op : String) (lhs rhs : Value) : Checked σ α :=
  m.panic ("Can't apply `" ++ op ++ "` to `" ++ m.typeName lhs ++ "` and `" ++
    m.typeName rhs ++ "`.")

/-- Fails because there is nothing on the stack to work on. -/
def underflow (m : Machine σ) : Checked σ α := m.internalError "value stack underflow"

/-! ## The stack -/

/-- Pushes a value, if the stack may grow. -/
def push (m : Machine σ) (v : Value) : Checked σ (Machine σ) :=
  if m.options.maxStackSize ≤ m.stack.size then m.panic "Stack overflow."
  else .ok { m with stack := m.stack.push v }

def pop (m : Machine σ) : Machine σ := { m with stack := m.stack.pop }

/-- The value on top of the stack, and the machine without it. -/
def takeTop (m : Machine σ) : Checked σ (Value × Machine σ) :=
  match m.stack.back? with
  | some v => .ok (v, m.pop)
  | none => m.underflow

/-- Continues the innermost call at an instruction. -/
def jump (m : Machine σ) (target : Nat) : Machine σ :=
  { m with frames := m.frames.modify (m.frames.size - 1) fun f => { f with pc := target } }

/-- Pushes a new object, and collects garbage when it is time. -/
def pushObject (m : Machine σ) (o : Object (Native σ)) : Checked σ (Machine σ) := do
  let (v, m) := m.alloc o
  let m ← m.push v
  return m.safePoint

/-! ## Operators -/

/-- The sign of an operator in messages. -/
def opSign : BinaryOp → String
  | .add => "+"
  | .sub => "-"
  | .mul => "*"
  | .div => "/"
  | .mod => "%"
  | .pow => "^"
  | .eq => "=="
  | .ne => "!="
  | .lt => "<"
  | .le => "<="
  | .gt => ">"
  | .ge => ">="

/-- Equality: numbers by value, strings by their characters, everything else by identity. -/
def valuesEqual (m : Machine σ) (lhs rhs : Value) : Bool :=
  match lhs.asNumber?, rhs.asNumber? with
  | some x, some y => x.numericEq y
  | _, _ =>
    lhs == rhs ||
      match m.asString? lhs, m.asString? rhs with
      | some s, some t => s == t
      | _, _ => false

/-- The result of an operator on two numbers. -/
def numberOp : BinaryOp → Double → Double → Value
  | .add, x, y => .ofDouble (x.add y)
  | .sub, x, y => .ofDouble (x.sub y)
  | .mul, x, y => .ofDouble (x.mul y)
  | .div, x, y => .ofDouble (x.div y)
  | .mod, x, y => .ofDouble (x.rem y)
  | .pow, x, y => .ofDouble (x.pow y)
  | .eq, x, y => .ofBool (x.numericEq y)
  | .ne, x, y => .ofBool (!x.numericEq y)
  | .lt, x, y => .ofBool (x.lt y)
  | .le, x, y => .ofBool (x.le y)
  | .gt, x, y => .ofBool (y.lt x)
  | .ge, x, y => .ofBool (y.le x)

/-- The order of two strings, by code points, for the operators that compare. -/
def stringOrder? : BinaryOp → String → String → Option Bool
  | .lt, s, t => some (s < t)
  | .le, s, t => some (!(t < s))
  | .gt, s, t => some (t < s)
  | .ge, s, t => some (!(s < t))
  | _, _, _ => none

/-- Applies an operator to values that were taken off the stack. Strings can be joined and compared,
everything can be tested for equality, and all else is for numbers. -/
def binary (m : Machine σ) (op : BinaryOp) (lhs rhs : Value) : Checked σ (Machine σ) :=
  match op with
  | .eq => m.push (.ofBool (m.valuesEqual lhs rhs))
  | .ne => m.push (.ofBool (!m.valuesEqual lhs rhs))
  | op =>
    match lhs.asNumber?, rhs.asNumber? with
    | some x, some y => m.push (numberOp op x y)
    | _, _ =>
      match m.asString? lhs, m.asString? rhs with
      | some s, some t =>
        if op = .add then m.pushObject (.string (s ++ t))
        else match stringOrder? op s t with
          | some b => m.push (.ofBool b)
          | none => m.operandError (opSign op) lhs rhs
      | _, _ => m.operandError (opSign op) lhs rhs

/-- Applies a sign or a negation to a value that was taken off the stack. -/
def unary (m : Machine σ) (op : UnaryOp) (v : Value) : Checked σ (Machine σ) :=
  match op with
  | .not => m.push (.ofBool (!v.isTruthy))
  | .neg =>
    match v.asNumber? with
    | some x => m.push (.ofDouble x.neg)
    | none => m.panic ("Can't negate a value of type `" ++ m.typeName v ++ "`.")

/-! ## Lists -/

/-- The place in a list that an index value names, or the failure. -/
def listIndex (m : Machine σ) (list index : Value) : Checked σ Nat :=
  match m.listItems? list with
  | none => m.panic ("Can't index a value of type `" ++ m.typeName list ++ "`.")
  | some items =>
    match index.asNumber? with
    | none => m.panic ("List index must be a number, found `" ++ m.typeName index ++ "`.")
    | some x =>
      match x.toNat? with
      | some i => if i < items.size then .ok i else outOfBounds x items.size
      | none => outOfBounds x items.size
where
  /-- Fails because there is no such place. -/
  outOfBounds (x : Double) (size : Nat) : Checked σ Nat :=
    m.panic ("Index " ++ x.scriptText ++ " is out of bounds for a list of length " ++
      toString size ++ ".")

/-- The item at a place of a list. -/
def listItem? (m : Machine σ) (list : Value) (i : Nat) : Option Value :=
  (m.listItems? list).bind (·[i]?)

/-- Pushes an item of a list. -/
def getIndex (m : Machine σ) (list index : Value) : Checked σ (Machine σ) := do
  let i ← m.listIndex list index
  match m.listItem? list i with
  | some v => m.push v
  | none => m.internalError "list index out of range"

/-- Replaces an item of a list. -/
def setIndex (m : Machine σ) (list index v : Value) : Checked σ (Machine σ) := do
  let i ← m.listIndex list index
  match m.listItem? list i, list.asObject? with
  | some _, some id => .ok { m with heap := m.heap.modify id fun o => o.setItem i v }
  | _, _ => m.internalError "list index out of range"

/-- Puts the topmost values into a new list. -/
def newList (m : Machine σ) (count : Nat) : Checked σ (Machine σ) :=
  if m.stack.size < count then m.underflow
  else
    let kept := m.stack.size - count
    let items := m.stack.extract kept m.stack.size
    ({ m with stack := m.stack.shrink kept }).pushObject (.list items)

/-! ## Calls -/

/-- Fails because a function does not take that many arguments. -/
def arityError (m : Machine σ) (name : String) (arity argc : Nat) : Checked σ α :=
  m.panic ("`" ++ name ++ "` expects " ++ toString arity ++ " argument" ++
    (if arity = 1 then "" else "s") ++ ", got " ++ toString argc ++ ".")

/-- Pushes a number of empty local variables. -/
def pushLocals : (count : Nat) → Machine σ → Checked σ (Machine σ)
  | 0, m => .ok m
  | count + 1, m =>
    match m.push .none with
    | .ok m => pushLocals count m
    | .error e => .error e

/-- Opens a call of a script function, whose callee lies at a place on the stack. -/
def enter (m : Machine σ) (f : ScriptFunction) (callee : Nat) : Checked σ (Machine σ) :=
  if m.options.maxCallDepth ≤ m.frames.size then m.panic "Stack overflow."
  else do
    let m ← pushLocals (f.chunk.locals - f.chunk.params) m
    return { m with frames := m.frames.push { chunk := f.chunk, base := callee + 1 } }

/-- Calls the value below `argc` arguments. -/
def call (m : Machine σ) (argc : Nat) : Step σ :=
  if m.stack.size ≤ argc then .ofChecked m.underflow
  else
    let callee := m.stack.size - argc - 1
    let v := m.stack.getD callee .none
    match m.object? v with
    | some (.function f) =>
      .ofChecked (if argc = f.arity then m.enter f callee else m.arityError f.name f.arity argc)
    | some (.native f) =>
      if argc = f.arity then .native f (m.stack.extract (callee + 1) m.stack.size).toList callee m
      else .ofChecked (m.arityError f.name f.arity argc)
    | _ => .ofChecked (m.panic ("Can't call a value of type `" ++ m.typeName v ++ "`."))

/-- Puts the result of a native function in the place of its call. The interrupt value ends the
script with the message that was left, and a freed object is refused. -/
def resume (m : Machine σ) (name : String) (callee : Nat) (result : Value) :
    Checked σ (Machine σ) :=
  if result.isInterrupt then .error (.panic, m)
  else
    let freed := match result.asObject? with
      | some id => !m.heap.contains id
      | none => false
    if freed then
      m.internalError ("native function `" ++ name ++ "` returned a freed object")
    else ({ m with stack := m.stack.shrink callee }).push result

/-- Closes the innermost call. When only `entry` calls are left, the program is done; otherwise the
locals, the arguments and the callee give way to the result. -/
def ret (m : Machine σ) (entry : Nat) (result : Value) : Step σ :=
  match m.frames.back? with
  | none => .ofChecked (m.internalError "return without a frame")
  | some f =>
    if m.frames.size = entry + 1 then .done result { m with frames := m.frames.pop }
    else
      let m := { m with stack := m.stack.shrink (f.base - 1), frames := m.frames.pop }
      .ofChecked (m.push result)

/-! ## Variables -/

def getGlobal (m : Machine σ) (slot : Nat) : Checked σ (Machine σ) :=
  match m.globals.get? slot with
  | some v => m.push v
  | none => m.panic ("`" ++ m.globals.name slot ++ "` is used before it was assigned.")

def setGlobal (m : Machine σ) (slot : Nat) (v : Value) : Checked σ (Machine σ) :=
  match m.globals.set? slot v with
  | some globals => .ok { m with globals }
  | none => m.internalError "global slot out of range"

def getLocal (m : Machine σ) (place : Nat) : Checked σ (Machine σ) :=
  match m.stack[place]? with
  | some v => m.push v
  | none => m.internalError "local slot out of range"

def setLocal (m : Machine σ) (place : Nat) (v : Value) : Checked σ (Machine σ) :=
  if place < m.stack.size then .ok { m with stack := m.stack.setIfInBounds place v }
  else m.internalError "local slot out of range"

/-! ## Steps -/

/-- Executes an instruction of a call whose chunk and base are given. Instructions take their
operands off the stack before they do anything else. -/
def exec (m : Machine σ) (entry : Nat) (chunk : Chunk) (base : Nat) (op : Op) : Step σ :=
  match op with
  | .constant index =>
    match chunk.constants[index]? with
    | some v => .ofChecked (m.push v)
    | none => .ofChecked (m.internalError "constant index out of range")
  | .none => .ofChecked (m.push .none)
  | .boolean b => .ofChecked (m.push (.ofBool b))
  | .pop => withTop m fun _ m => .next m
  | .getGlobal slot => .ofChecked (m.getGlobal slot)
  | .setGlobal slot => withTop m fun v m => .ofChecked (m.setGlobal slot v)
  | .getLocal slot => .ofChecked (m.getLocal (base + slot))
  | .setLocal slot => withTop m fun v m => .ofChecked (m.setLocal (base + slot) v)
  | .unary op => withTop m fun v m => .ofChecked (m.unary op v)
  | .binary op => withTwo m fun lhs rhs m => .ofChecked (m.binary op lhs rhs)
  | .jump target => .next (m.jump target)
  | .jumpIfFalse target => withTop m fun v m => .next (if v.isTruthy then m else m.jump target)
  | .jumpIfFalseKeep target =>
    match m.stack.back? with
    | some v => .next (if v.isTruthy then m else m.jump target)
    | none => .ofChecked m.underflow
  | .jumpIfTrueKeep target =>
    match m.stack.back? with
    | some v => .next (if v.isTruthy then m.jump target else m)
    | none => .ofChecked m.underflow
  | .call argc => m.call argc
  | .ret => withTop m fun v m => m.ret entry v
  | .newList count => .ofChecked (m.newList count)
  | .getIndex => withTwo m fun list index m => .ofChecked (m.getIndex list index)
  | .setIndex => withTop m fun v m => withTwo m fun list index m =>
    .ofChecked (m.setIndex list index v)
where
  /-- Goes on with the value on top of the stack, taken off. -/
  @[inline] withTop (m : Machine σ) (next : Value → Machine σ → Step σ) : Step σ :=
    match m.takeTop with
    | .ok (v, m) => next v m
    | .error (f, m) => .failed f m
  /-- Goes on with the two values on top of the stack, taken off. -/
  @[inline] withTwo (m : Machine σ) (next : Value → Value → Machine σ → Step σ) : Step σ :=
    withTop m fun rhs m => withTop m fun lhs m => next lhs rhs m

/-- Executes the next instruction of the innermost call. -/
def step (m : Machine σ) (entry : Nat) : Step σ :=
  match m.frames.back? with
  | none => .ofChecked (m.internalError "no active call frame")
  | some f =>
    match f.chunk.code[f.pc]? with
    | none => .ofChecked (m.internalError "program counter out of range")
    | some i => (m.jump (f.pc + 1)).exec entry f.chunk f.base i.op

end Machine

/-! ## Programs -/

variable {σ : Type}

/-- Executes instructions until only `entry` calls are in progress. Native functions run by
`call`. -/
def runSteps (call : Callback σ) (entry : Nat) : (fuel : Nat) → Run σ Failure Value
  | 0, _ => .exhausted
  | fuel + 1, m =>
    match m.step entry with
    | .next m => runSteps call entry fuel m
    | .done v m => .ok v m
    | .failed f m => .failed f m
    | .native f args callee m =>
      match call (f.code args) { m with nativeDepth := m.nativeDepth + 1 } with
      | .ok v m =>
        let m := { m with nativeDepth := m.nativeDepth - 1 }
        match m.resume f.name callee v with
        | .ok m => runSteps call entry fuel m
        | .error (f, m) => .failed f m
      | .unwound m => .unwound m
      | .exhausted => .exhausted

/-- Runs the code of a program. Afterwards the stack and the calls are as before, and a failure has
its report. -/
def execute (call : Callback σ) (fuel : Nat) (chunk : Chunk) : Run σ Failure Value := fun m =>
  let base := m.stack.size
  let entry := m.frames.size
  let settle (m : Machine σ) : Machine σ :=
    { m with frames := m.frames.shrink entry, stack := m.stack.shrink base }
  match runSteps call entry fuel { m with frames := m.frames.push { chunk, base } } with
  | .ok v m => .ok v (settle m)
  | .failed f m =>
    let calls := (m.frames.toList.drop entry).reverse
    .failed f (settle { m with report := runtimeReport f m.message calls })
  | .unwound m => .unwound m
  | .exhausted => .exhausted

end ScriptMachine
