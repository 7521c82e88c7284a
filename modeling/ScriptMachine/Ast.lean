import ScriptMachine.Position
import ScriptMachine.Number.Double
/-!
# Syntax trees

Expressions and statements of the script language. Each node keeps the place that messages about it
point at: literals and names their first character, operators the operator itself, calls and
indexing the opening bracket, member access the dot.
-/

namespace ScriptMachine

/-- Operators with one operand. -/
inductive UnaryOp
  | neg | not
  deriving DecidableEq, Repr

/-- Operators with two operands that are both evaluated. -/
inductive BinaryOp
  | add | sub | mul | div | mod | pow | eq | ne | lt | le | gt | ge
  deriving DecidableEq, Repr

/-- Operators that may skip their second operand. -/
inductive LogicalOp
  | and | or
  deriving DecidableEq, Repr

inductive Expr
  | number (pos : Position) (value : Double)
  | string (pos : Position) (text : String)
  | boolean (pos : Position) (value : Bool)
  | none (pos : Position)
  | list (pos : Position) (items : List Expr)
  | name (pos : Position) (id : String)
  | member (pos : Position) (object : Expr) (id : String)
  | index (pos : Position) (object index : Expr)
  | call (pos : Position) (callee : Expr) (args : List Expr)
  | unary (pos : Position) (op : UnaryOp) (operand : Expr)
  | binary (pos : Position) (op : BinaryOp) (lhs rhs : Expr)
  | logical (pos : Position) (op : LogicalOp) (lhs rhs : Expr)
  deriving Inhabited, Repr, BEq

def Expr.pos : Expr → Position
  | .number p _ | .string p _ | .boolean p _ | .none p | .list p _ | .name p _ | .member p _ _
  | .index p _ _ | .call p _ _ | .unary p _ _ | .binary p _ _ _ | .logical p _ _ _ => p

/-- A parameter of a function. -/
structure Param where
  name : String
  pos : Position
  deriving DecidableEq, Repr

mutual

inductive Stmt
  | expr (e : Expr)
  /-- Assigns to a name; with `declare` inside a function the name is a new local variable. -/
  | assign (pos : Position) (name : String) (value : Expr) (declare : Bool)
  | setIndex (pos : Position) (object index value : Expr)
  | importModule (pos : Position) (name : String)
  | func (pos : Position) (name : String) (params : List Param) (body : List Stmt)
  | ret (pos : Position) (value : Option Expr)
  | branch (cond : Expr) (body : List Stmt) (tail : Else)
  | loop (cond : Expr) (body : List Stmt)
  | leave (pos : Position)
  | pass

/-- What follows the first block of a conditional. -/
inductive Else
  | nothing
  | elseIf (cond : Expr) (body : List Stmt) (tail : Else)
  | block (body : List Stmt)

end

instance : Inhabited Stmt := ⟨.pass⟩

/-- A program is a list of statements. -/
abbrev Program := List Stmt

end ScriptMachine
