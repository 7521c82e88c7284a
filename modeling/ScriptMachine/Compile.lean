import ScriptMachine.Ast.Grammar
import ScriptMachine.Run
import ScriptMachine.Token.Scan
/-!
# From syntax trees to bytecode

Every name is resolved when a program is compiled: to a local variable of the function around it, to
an imported module, or to a global variable. Before any code is made, the assignments, functions and
imports of the top level are collected, so functions can use variables that the program assigns to
later. New variables and imports become part of the machine only when the whole program has
compiled. A module that is imported for the first time is loaded on the spot.

* `Build`: a program that is compiled in part;
* `compileExpr`, `compileStmt`: code for the parts of a program;
* `compileProgram`, `compileSource`: whole programs.
-/

namespace ScriptMachine

/-- The most arguments of a call. -/
def maxCallArgs : Nat := 255

/-! ## Partial programs -/

/-- A function, or the top level, that is compiled in part. -/
structure FuncBuild where
  chunk : Chunk
  /-- Whether this is a function and not the top level. -/
  isFunction : Bool
  /-- The local variables, the newest first. -/
  locals : List String := []
  /-- For every loop around the current statement, the jumps that leave it. -/
  loops : List (List Nat) := []

/-- A program that is compiled in part. There always is a function in progress, and those around it
are kept by the calls of the compiler, so the end of a function or program never finds that function
missing: a failure over lost state cannot be expressed, and there is none. -/
structure Build where
  /-- The function in progress. -/
  func : FuncBuild
  /-- The number of global variables before the program. -/
  globalBase : Nat
  /-- The variables that the program adds, in the order of their slots. -/
  newGlobals : List String := []
  newImports : List (String × Nat) := []

/-- What a name stands for. -/
inductive Binding
  | local (slot : Nat)
  | global (slot : Nat)
  | module (index : Nat)
  | undefined
  deriving DecidableEq, Repr

namespace FuncBuild

/-- The slot of a local variable; of two with one name the newer counts. -/
def localSlot? (f : FuncBuild) (name : String) : Option Nat :=
  (f.locals.idxOf? name).map fun i => f.locals.length - 1 - i

end FuncBuild

namespace Build

variable {σ : Type}

/-- What a name stands for: a local variable, else an imported module, else a global variable. -/
def resolve (b : Build) (m : Machine σ) (name : String) : Binding :=
  let local? := if b.func.isFunction then b.func.localSlot? name else none
  let module? := (b.newImports.lookup name).or (m.imports.lookup name)
  let global? :=
    (m.globals.slot? name).or ((b.newGlobals.idxOf? name).map (b.globalBase + ·))
  match local?, module?, global? with
  | some slot, _, _ => .local slot
  | none, some index, _ => .module index
  | none, none, some slot => .global slot
  | none, none, none => .undefined

/-- Whether a name is a global variable, now or after this program. -/
def isGlobal (b : Build) (m : Machine σ) (name : String) : Bool :=
  (m.globals.slot? name).isSome || b.newGlobals.contains name

/-- Adds a global variable, unless there is one of that name. -/
def declareGlobal (b : Build) (m : Machine σ) (name : String) : Build :=
  if b.isGlobal m name then b else { b with newGlobals := b.newGlobals ++ [name] }

def emit (b : Build) (op : Op) (pos : Position) : Build :=
  { b with func := { b.func with chunk := b.func.chunk.emit op pos } }

def patch (b : Build) (jump : Nat) : Build :=
  { b with func := { b.func with chunk := b.func.chunk.patchJump jump } }

/-- Adds a local variable, whose slot is the number of those before it. -/
def declareLocal (b : Build) (name : String) : Build :=
  let f := b.func
  let locals := name :: f.locals
  { b with
    func := { f with
      locals
      chunk := { f.chunk with locals := max f.chunk.locals locals.length } } }

/-- Goes on inside of a loop. -/
def enterLoop (b : Build) : Build := { b with func := { b.func with loops := [] :: b.func.loops } }

/-- Goes on after a loop. -/
def leaveLoop (b : Build) : Build := { b with func := { b.func with loops := b.func.loops.tail } }

/-- Goes on inside of a function, whose first local variables are its parameters. -/
def enterFunction (b : Build) (name : String) (params : List Param) : Build :=
  { b with
    func :=
      { chunk :=
          { name
            source := b.func.chunk.source
            sourceName := b.func.chunk.sourceName
            params := params.length
            locals := params.length }
        isFunction := true
        locals := (params.map (·.name)).reverse } }

end Build

/-- Compiling: a partial program is extended, and loaders may run on the machine. -/
abbrev CompileM (σ : Type) := StateT Build (Run σ SyntaxError)

namespace Compile

variable {σ : Type}

/-! ## Steps -/

def reject {α : Type} (fault : SyntaxFault) (pos : Position) : CompileM σ α :=
  StateT.lift (Run.fail ⟨fault, pos⟩)

def emit (op : Op) (pos : Position) : CompileM σ Unit := modify (·.emit op pos)

def here : CompileM σ Nat := do return (← get).func.chunk.code.size

def patch (jump : Nat) : CompileM σ Unit := modify (·.patch jump)

def emitAt (op : Op) (pos : Position) : CompileM σ Nat := do
  let index ← here
  emit op pos
  return index

/-- Pushes a constant. -/
def emitConstant (v : Value) (pos : Position) : CompileM σ Unit := do
  let b ← get
  let (index, chunk) := b.func.chunk.addConstant v
  set { b with func := { b.func with chunk } }
  emit (.constant index) pos

/-- Places an object on the heap. -/
def allocate (o : Object (Native σ)) : CompileM σ Value := StateT.lift (Run.lift (·.alloc o))

def resolve (name : String) : CompileM σ Binding := do
  let b ← get
  StateT.lift (Run.gets fun m => b.resolve m name)

def isGlobal (name : String) : CompileM σ Bool := do
  let b ← get
  StateT.lift (Run.gets fun m => b.isGlobal m name)

def declareGlobal (name : String) : CompileM σ Unit := do
  let b ← get
  set (← StateT.lift (Run.gets fun m => b.declareGlobal m name))

/-- Modules and built-in variables cannot be assigned to. -/
def checkAssignable (name : String) (pos : Position) : CompileM σ Unit := do
  match ← resolve name with
  | .module _ => reject (.assignToModule name) pos
  | .global slot =>
    if ← StateT.lift (Run.gets fun m => m.globals.isBuiltin slot) then
      reject (.assignToBuiltin name) pos
  | _ => return ()

/-! ## Imports -/

/-- Gives the index of a module, which is loaded if this was not done before. While the loader runs
the module counts as loading, and after it as loaded. -/
def loadModule (call : Callback σ) (name : String) (pos : Position) : CompileM σ Nat := do
  match ← StateT.lift (Run.gets fun m => m.modules.lookup name) with
  | .unknown => reject (.unknownModule name) pos
  | .cyclic => reject (.cyclicImport name) pos
  | .ready index => return index
  | .load index handle loader =>
    StateT.lift (Run.modify fun m => { m with modules := m.modules.beginLoad index })
    let _ ← StateT.lift (Run.infallible (call (loader handle)))
    StateT.lift (Run.modify fun m => { m with modules := m.modules.finishLoad index })
    return index

/-- Makes a module known under its name, unless it is known already. -/
def importModule (call : Callback σ) (name : String) (pos : Position) : CompileM σ Unit := do
  match ← resolve name with
  | .module _ => return ()
  | _ =>
    if ← isGlobal name then reject (.alreadyBound name) pos
    else
      let index ← loadModule call name pos
      modify fun b => { b with newImports := b.newImports ++ [(name, index)] }

/-- The function of a module; nothing else has members. -/
def member (pos : Position) (object : Expr) (id : String) : CompileM σ Value :=
  match object with
  | .name objectPos moduleName => do
    match ← resolve moduleName with
    | .module index =>
      match ← StateT.lift (Run.gets fun m => m.modules.function? index id) with
      | some v => return v
      | none => reject (.unknownMember moduleName id) pos
    | .undefined => reject (.undefinedSymbol moduleName) objectPos
    | _ => reject .memberOfValue pos
  | _ => reject .memberOfValue pos

/-! ## Expressions -/

mutual

/-- Code that leaves the value of an expression on the stack. -/
def compileExpr : Expr → CompileM σ Unit
  | .number pos x => emitConstant (.ofDouble x) pos
  | .string pos s => do emitConstant (← allocate (.string s)) pos
  | .boolean pos b => emit (.boolean b) pos
  | .none pos => emit .none pos
  | .list pos items => do
    compileExprs items
    emit (.newList items.length) pos
  | .name pos id => do
    match ← resolve id with
    | .local slot => emit (.getLocal slot) pos
    | .global slot => emit (.getGlobal slot) pos
    | .module _ => reject (.moduleAsValue id) pos
    | .undefined => reject (.undefinedSymbol id) pos
  | .member pos object id => do emitConstant (← member pos object id) pos
  | .index pos object index => do
    compileExpr object
    compileExpr index
    emit .getIndex pos
  | .call pos callee args => do
    if maxCallArgs < args.length then reject (.tooManyArguments maxCallArgs) pos
    compileExpr callee
    compileExprs args
    emit (.call args.length) callee.pos
  | .unary pos op operand => do
    compileExpr operand
    emit (.unary op) pos
  | .binary pos op lhs rhs => do
    compileExpr lhs
    compileExpr rhs
    emit (.binary op) pos
  | .logical pos op lhs rhs => do
    compileExpr lhs
    let short ← emitAt (match op with
      | .and => .jumpIfFalseKeep 0
      | .or => .jumpIfTrueKeep 0) pos
    emit .pop pos
    compileExpr rhs
    patch short

/-- Code for expressions from left to right. -/
def compileExprs : List Expr → CompileM σ Unit
  | [] => return ()
  | e :: es => do
    compileExpr e
    compileExprs es

end

/-! ## Statements -/

/-- Takes the top of the stack off into a variable. In a function, a name that is declared, or that
is not known yet, becomes a local variable. -/
def store (name : String) (declare : Bool) (pos : Position) : CompileM σ Unit := do
  checkAssignable name pos
  let newLocal : CompileM σ Unit := do
    let slot := (← get).func.locals.length
    modify (·.declareLocal name)
    emit (.setLocal slot) pos
  if (← get).func.isFunction then
    if declare then newLocal
    else match ← resolve name with
      | .local slot => emit (.setLocal slot) pos
      | .global slot => emit (.setGlobal slot) pos
      | _ => newLocal
  else
    declareGlobal name
    match ← resolve name with
    | .global slot => emit (.setGlobal slot) pos
    | _ => reject (.unassignable name) pos

/-- A conditional block: the rest is reached if the condition fails, and skipped otherwise. -/
def arm (cond : Expr) (body rest : CompileM σ Unit) : CompileM σ Unit := do
  compileExpr cond
  let next ← emitAt (.jumpIfFalse 0) cond.pos
  body
  let done ← emitAt (.jump 0) cond.pos
  patch next
  rest
  patch done

/-- Compiles the body of a loop; gives the jumps that leave the loop as well, the last first. -/
def inLoop {α : Type} (body : CompileM σ α) : CompileM σ (α × List Nat) := do
  modify (·.enterLoop)
  let a ← body
  let breaks := (← get).func.loops.headD []
  modify (·.leaveLoop)
  return (a, breaks)

/-- A loop, with the jumps that leave it. -/
def loop (cond : Expr) (body : CompileM σ Unit) : CompileM σ Unit := do
  let start ← here
  compileExpr cond
  let exit ← emitAt (.jumpIfFalse 0) cond.pos
  let ((), breaks) ← inLoop body
  emit (.jump start) cond.pos
  patch exit
  breaks.reverse.forM patch

/-- The first parameter whose name came before. -/
def duplicateParam? : (before : List String) → List Param → Option Param
  | _, [] => none
  | before, p :: ps =>
    if before.contains p.name then some p else duplicateParam? (p.name :: before) ps

/-- The names of parameters differ. -/
def checkParams (params : List Param) : CompileM σ Unit :=
  match duplicateParam? [] params with
  | some p => reject (.duplicateParameter p.name) p.pos
  | none => return ()

/-- Compiles the body of a function; gives the function as well. -/
def inFunction {α : Type} (name : String) (params : List Param) (body : CompileM σ α) :
    CompileM σ (α × FuncBuild) := do
  let outer := (← get).func
  modify (·.enterFunction name params)
  let a ← body
  let inner := (← get).func
  modify fun b => { b with func := outer }
  return (a, inner)

/-- A function with a given body; gives the function's value. -/
def function (pos : Position) (name : String) (params : List Param) (body : CompileM σ Unit) :
    CompileM σ Value := do
  checkParams params
  let (_, inner) ← inFunction name params do
    body
    emit .none pos
    emit .ret pos
  allocate (.function { name, arity := params.length, chunk := inner.chunk })

/-- There is a function to return from. -/
def requireFunction (pos : Position) : CompileM σ Unit := do
  if (← get).func.isFunction then return ()
  else reject .returnOutsideFunction pos

mutual

/-- Code for a statement, which leaves the stack as it was. -/
def compileStmt (call : Callback σ) : Stmt → CompileM σ Unit
  | .expr e => do
    compileExpr e
    emit .pop e.pos
  | .assign pos name value declare => do
    compileExpr value
    store name declare pos
  | .setIndex pos object index value => do
    compileExpr object
    compileExpr index
    compileExpr value
    emit .setIndex pos
  | .importModule pos name => importModule call name pos
  | .func pos name params body => do
    let v ← function pos name params (compileBlock call body)
    emitConstant v pos
    store name false pos
  | .ret pos value => do
    requireFunction pos
    match value with
    | some e => compileExpr e
    | none => emit .none pos
    emit .ret pos
  | .branch cond body tail => arm cond (compileBlock call body) (compileElse call tail)
  | .loop cond body => loop cond (compileBlock call body)
  | .leave pos => do
    match (← get).func.loops with
    | [] => reject .breakOutsideLoop pos
    | breaks :: loops =>
      let jump ← emitAt (.jump 0) pos
      modify fun b => { b with func := { b.func with loops := (jump :: breaks) :: loops } }
  | .pass => return ()

def compileBlock (call : Callback σ) : List Stmt → CompileM σ Unit
  | [] => return ()
  | s :: ss => do
    compileStmt call s
    compileBlock call ss

def compileElse (call : Callback σ) : Else → CompileM σ Unit
  | .nothing => return ()
  | .elseIf cond body tail => arm cond (compileBlock call body) (compileElse call tail)
  | .block body => compileBlock call body

end

/-! ## Programs -/

mutual

/-- Collects the names that a statement of the top level binds, also inside conditionals and
loops. -/
def hoistStmt (call : Callback σ) : Stmt → CompileM σ Unit
  | .assign pos name _ _ => do
    checkAssignable name pos
    declareGlobal name
  | .func pos name _ _ => do
    checkAssignable name pos
    declareGlobal name
  | .importModule pos name => importModule call name pos
  | .branch _ body tail => do
    hoist call body
    hoistElse call tail
  | .loop _ body => hoist call body
  | _ => return ()

/-- Collects the names that statements bind. -/
def hoist (call : Callback σ) : List Stmt → CompileM σ Unit
  | [] => return ()
  | s :: ss => do
    hoistStmt call s
    hoist call ss

def hoistElse (call : Callback σ) : Else → CompileM σ Unit
  | .nothing => return ()
  | .elseIf _ body tail => do
    hoist call body
    hoistElse call tail
  | .block body => hoist call body

end

/-- Code for the top level. If the last statement is an expression, its value is the result of the
program. -/
def compileTop (call : Callback σ) : List Stmt → CompileM σ Unit
  | [] => do
    emit .none {}
    emit .ret {}
  | [.expr e] => do
    compileExpr e
    emit .ret e.pos
  | s :: ss => do
    compileStmt call s
    compileTop call ss

/-- Makes the new variables and imports of a program part of the machine. -/
def commit (b : Build) (m : Machine σ) : Machine σ :=
  { m with
    globals := b.newGlobals.foldl Globals.declare m.globals
    imports := b.newImports.foldl
      (fun imports (name, index) => (name, index) :: imports.filter (·.1 != name)) m.imports }

end Compile

open Compile in
def compileProgram {σ : Type} (call : Callback σ) (source name : String) (program : Program) :
    Run σ SyntaxError Chunk := do
  let globalBase ← Run.gets fun m => m.globals.size
  let start : Build :=
    { func := { chunk := { name := "main", source, sourceName := name }, isFunction := false }
      globalBase }
  let ((), b) ← (do hoist call program; compileTop call program : CompileM σ Unit).run start
  Run.modify (commit b)
  return b.func.chunk

/-- The code of a source text. -/
def compileSource {σ : Type} (call : Callback σ) (source name : String) :
    Run σ SyntaxError Chunk :=
  match tokenize source with
  | .error e => Run.fail e
  | .ok tokens =>
    match parse tokens with
    | .error e => Run.fail e
    | .ok program => compileProgram call source name program

end ScriptMachine
