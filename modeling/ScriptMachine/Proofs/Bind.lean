import ScriptMachine.Proofs.Core
/-!
# Looking up names

The first half of a compilation: names are looked up, strings and functions are placed on the heap,
and modules are loaded. What comes out is the resolved program, whose meaning no longer depends on
names.

* `Compile.bindExpr`, `Compile.bindStmt`: the parts of a program;
* `bindProgram`: a whole program, whose variables and imports become part of the machine.
-/

namespace ScriptMachine

namespace Compile

variable {σ : Type}

/-! ## Looking up the names of a program -/

mutual

/-- An expression with its names looked up. -/
def bindExpr : Expr → CompileM σ Core.Expr
  | .number pos x => return .constant pos (.ofDouble x)
  | .string pos s => do return .constant pos (← allocate (.string s))
  | .boolean pos b => return .boolean pos b
  | .none pos => return .none pos
  | .list pos items => do return .list pos (← bindExprs items)
  | .name pos id => do
    match ← resolve id with
    | .local slot => return .local pos slot
    | .global slot => return .global pos slot
    | .module _ => reject (.moduleAsValue id) pos
    | .undefined => reject (.undefinedSymbol id) pos
  | .member pos object id => do return .constant pos (← member pos object id)
  | .index pos object index => do
    let object ← bindExpr object
    let index ← bindExpr index
    return .index pos object index
  | .call pos callee args => do
    if maxCallArgs < args.length then reject (.tooManyArguments maxCallArgs) pos
    let function ← bindExpr callee
    let args ← bindExprs args
    return .call callee.pos function args
  | .unary pos op operand => do return .unary pos op (← bindExpr operand)
  | .binary pos op lhs rhs => do
    let lhs ← bindExpr lhs
    let rhs ← bindExpr rhs
    return .binary pos op lhs rhs
  | .logical pos op lhs rhs => do
    let lhs ← bindExpr lhs
    let rhs ← bindExpr rhs
    return .logical pos op lhs rhs

/-- Expressions with their names looked up, from left to right. -/
def bindExprs : List Expr → CompileM σ (List Core.Expr)
  | [] => return []
  | e :: es => do
    let e ← bindExpr e
    let es ← bindExprs es
    return e :: es

end

/-- A new local variable of the current function. -/
def bindLocal (name : String) : CompileM σ Core.Target := do
  let slot := (← get).func.locals.length
  modify (·.declareLocal name)
  return .local slot

/-- The variable that an assignment to a name changes. -/
def bindTarget (name : String) (declare : Bool) (pos : Position) : CompileM σ Core.Target := do
  checkAssignable name pos
  if (← get).func.isFunction then
    if declare then bindLocal name
    else match ← resolve name with
      | .local slot => return .local slot
      | .global slot => return .global slot
      | _ => bindLocal name
  else
    declareGlobal name
    match ← resolve name with
    | .global slot => return .global slot
    | _ => reject (.unassignable name) pos

/-- A function with a given body; gives the function's value. -/
def bindFunction (pos : Position) (name : String) (params : List Param)
    (body : CompileM σ (List Core.Stmt)) : CompileM σ Value := do
  checkParams params
  let (stmts, inner) ← inFunction name params body
  allocate (.function (Core.Func.script
    { name
      source := inner.chunk.source
      sourceName := inner.chunk.sourceName
      params := params.length
      locals := inner.chunk.locals
      body := stmts ++ [.ret pos (.none pos)] }))

/-- There is a loop to leave. -/
def requireLoop (pos : Position) : CompileM σ Unit := do
  match (← get).func.loops with
  | [] => reject .breakOutsideLoop pos
  | _ :: _ => return ()

mutual

/-- A statement with its names looked up. -/
def bindStmt (call : Callback σ) : Stmt → CompileM σ Core.Stmt
  | .expr e => do return .expr e.pos (← bindExpr e)
  | .assign pos name value declare => do
    let value ← bindExpr value
    return .assign pos (← bindTarget name declare pos) value
  | .setIndex pos object index value => do
    let object ← bindExpr object
    let index ← bindExpr index
    let value ← bindExpr value
    return .setIndex pos object index value
  | .importModule pos name => do
    importModule call name pos
    return .pass
  | .func pos name params body => do
    let v ← bindFunction pos name params (bindBlock call body)
    return .assign pos (← bindTarget name false pos) (.constant pos v)
  | .ret pos value => do
    requireFunction pos
    match value with
    | some e => return .ret pos (← bindExpr e)
    | none => return .ret pos (.none pos)
  | .branch cond body tail => do
    let test ← bindExpr cond
    let body ← bindBlock call body
    let rest ← bindElse call tail
    return .branch cond.pos test body rest
  | .loop cond body => do
    let test ← bindExpr cond
    let (body, _) ← inLoop (bindBlock call body)
    return .loop cond.pos test body
  | .leave pos => do
    requireLoop pos
    return .leave pos
  | .pass => return .pass

/-- Statements with their names looked up, in order. -/
def bindBlock (call : Callback σ) : List Stmt → CompileM σ (List Core.Stmt)
  | [] => return []
  | s :: ss => do
    let s ← bindStmt call s
    let ss ← bindBlock call ss
    return s :: ss

/-- The rest of a conditional with its names looked up. -/
def bindElse (call : Callback σ) : Else → CompileM σ (List Core.Stmt)
  | .nothing => return []
  | .elseIf cond body tail => do
    let test ← bindExpr cond
    let body ← bindBlock call body
    let rest ← bindElse call tail
    return [.branch cond.pos test body rest]
  | .block body => bindBlock call body

end

/-- The top level with its names looked up. If the last statement is an expression, its value is the
result of the program, else there is no result. -/
def bindTop (call : Callback σ) : List Stmt → CompileM σ (List Core.Stmt)
  | [] => return [.ret {} (.none {})]
  | [.expr e] => do return [.ret e.pos (← bindExpr e)]
  | s :: ss => do
    let s ← bindStmt call s
    let ss ← bindTop call ss
    return s :: ss

end Compile

open Compile in
/-- Looks up the names of a program, and makes its variables and imports part of the machine. -/
def bindProgram {σ : Type} (call : Callback σ) (source name : String) (program : Program) :
    Run σ SyntaxError Core.Func := do
  let globalBase ← Run.gets fun m => m.globals.size
  let start : Build :=
    { func := { chunk := { name := "main", source, sourceName := name }, isFunction := false }
      globalBase }
  let (body, b) ←
    (do hoist call program; bindTop call program : CompileM σ (List Core.Stmt)).run start
  Run.modify (commit b)
  return { name := "main", source, sourceName := name, params := 0
           locals := b.func.chunk.locals, body }

end ScriptMachine
