import ScriptMachine.Compile
/-!
# Resolved programs

A program in which every name has given way to what it stands for: a variable is a slot, and a
literal, a function declaration or a member of a module is the value that was made for it. The code
of a resolved program depends on nothing but the tree.

* `Core.Expr`, `Core.Stmt`, `Core.Func`: the trees;
* `Core.Assembly`: code under construction, and the code of each tree;
* `Core.Func.chunk`: the chunk of a function.
-/

namespace ScriptMachine

namespace Core

/-- Expressions without names. -/
inductive Expr
  /-- A number, the string of a literal, or the function of a module. -/
  | constant (pos : Position) (v : Value)
  | boolean (pos : Position) (b : Bool)
  | none (pos : Position)
  | list (pos : Position) (items : List Expr)
  | local (pos : Position) (slot : Nat)
  | global (pos : Position) (slot : Nat)
  | index (pos : Position) (object index : Expr)
  | call (pos : Position) (callee : Expr) (args : List Expr)
  | unary (pos : Position) (op : UnaryOp) (operand : Expr)
  | binary (pos : Position) (op : BinaryOp) (lhs rhs : Expr)
  | logical (pos : Position) (op : LogicalOp) (lhs rhs : Expr)

/-- The variable that an assignment changes. -/
inductive Target
  | local (slot : Nat)
  | global (slot : Nat)
  deriving DecidableEq

/-- Statements without names. A chain of conditions is nested in the last blocks of its members. -/
inductive Stmt
  | expr (pos : Position) (e : Expr)
  | assign (pos : Position) (target : Target) (value : Expr)
  | setIndex (pos : Position) (object index value : Expr)
  | ret (pos : Position) (value : Expr)
  | branch (pos : Position) (cond : Expr) (body rest : List Stmt)
  | loop (pos : Position) (cond : Expr) (body : List Stmt)
  | leave (pos : Position)
  | pass

/-- A function, or the top level of a program, which is a function without parameters. The body ends
with a `ret`. -/
structure Func where
  name : String
  source : String
  sourceName : String
  params : Nat
  locals : Nat
  body : List Stmt

/-! ## Code under construction -/

/-- The instructions and constants made so far, and for every loop around the current statement the
jumps that leave it. -/
structure Assembly where
  code : Array Instr := #[]
  constants : Array Value := #[]
  loops : List (List Nat) := []

namespace Assembly

/-- Adds an instruction. -/
def emit (a : Assembly) (op : Op) (pos : Position) : Assembly :=
  { a with code := a.code.push ⟨op, pos⟩ }

/-- Lets a jump lead to the next instruction. -/
def patch (a : Assembly) (jump : Nat) : Assembly :=
  { a with code := a.code.modify jump fun i => { i with op := i.op.retarget a.code.size } }

/-- Pushes a constant; equal numbers share a place. -/
def constant (a : Assembly) (v : Value) (pos : Position) : Assembly :=
  match (if v.isNumber then a.constants.findIdx? (· == v) else .none) with
  | some i => a.emit (.constant i) pos
  | .none => { a with constants := a.constants.push v }.emit (.constant a.constants.size) pos

/-- Goes on inside of a loop. -/
def enterLoop (a : Assembly) : Assembly := { a with loops := [] :: a.loops }

/-- Goes on after a loop. -/
def leaveLoop (a : Assembly) : Assembly := { a with loops := a.loops.tail }

/-- Lets jumps lead to the next instruction. -/
def patchAll (a : Assembly) (jumps : List Nat) : Assembly := jumps.foldl patch a

/-- Adds a jump out of the innermost loop. -/
def leave (a : Assembly) (pos : Position) : Assembly :=
  match a.loops with
  | breaks :: loops => { a with loops := (a.code.size :: breaks) :: loops }.emit (.jump 0) pos
  | [] => a

end Assembly

/-- The jump over the second operand of an operator. -/
def shortcut (op : LogicalOp) (target : Nat) : Op :=
  match op with
  | .and => .jumpIfFalseKeep target
  | .or => .jumpIfTrueKeep target

/-- The instruction of an assignment. -/
def Target.store : Target → Op
  | .local slot => .setLocal slot
  | .global slot => .setGlobal slot

mutual

/-- The code of an expression. -/
def Expr.emit : Expr → Assembly → Assembly
  | .constant pos v, a => a.constant v pos
  | .boolean pos b, a => a.emit (.boolean b) pos
  | .none pos, a => a.emit .none pos
  | .list pos items, a => (Expr.emitAll items a).emit (.newList items.length) pos
  | .local pos slot, a => a.emit (.getLocal slot) pos
  | .global pos slot, a => a.emit (.getGlobal slot) pos
  | .index pos object place, a => (place.emit (object.emit a)).emit .getIndex pos
  | .call pos callee args, a => (Expr.emitAll args (callee.emit a)).emit (.call args.length) pos
  | .unary pos op operand, a => (operand.emit a).emit (.unary op) pos
  | .binary pos op lhs rhs, a => (rhs.emit (lhs.emit a)).emit (.binary op) pos
  | .logical pos op lhs rhs, a =>
    let a := lhs.emit a
    (rhs.emit ((a.emit (shortcut op 0) pos).emit .pop pos)).patch a.code.size

/-- The code of expressions from left to right. -/
def Expr.emitAll : List Expr → Assembly → Assembly
  | [], a => a
  | e :: es, a => Expr.emitAll es (e.emit a)

end

mutual

/-- The code of a statement. -/
def Stmt.emit : Stmt → Assembly → Assembly
  | .expr pos e, a => (e.emit a).emit .pop pos
  | .assign pos target value, a => (value.emit a).emit target.store pos
  | .setIndex pos object place value, a =>
    (value.emit (place.emit (object.emit a))).emit .setIndex pos
  | .ret pos value, a => (value.emit a).emit .ret pos
  | .branch pos cond body rest, a =>
    let a := cond.emit a
    let b := Stmt.emitAll body (a.emit (.jumpIfFalse 0) pos)
    (Stmt.emitAll rest ((b.emit (.jump 0) pos).patch a.code.size)).patch b.code.size
  | .loop pos cond body, a =>
    let b := cond.emit a
    let c := Stmt.emitAll body (b.emit (.jumpIfFalse 0) pos).enterLoop
    ((c.leaveLoop.emit (.jump a.code.size) pos).patch b.code.size).patchAll
      (c.loops.headD []).reverse
  | .leave pos, a => a.leave pos
  | .pass, a => a

/-- The code of statements in order. -/
def Stmt.emitAll : List Stmt → Assembly → Assembly
  | [], a => a
  | s :: ss, a => Stmt.emitAll ss (s.emit a)

end

/-- The code of a function, from nothing. -/
def Func.assembly (d : Func) : Assembly := Stmt.emitAll d.body {}

/-- The chunk of a function. -/
def Func.chunk (d : Func) : Chunk where
  name := d.name
  source := d.source
  sourceName := d.sourceName
  code := d.assembly.code
  constants := d.assembly.constants
  params := d.params
  locals := d.locals

/-- The function that scripts call. -/
def Func.script (d : Func) : ScriptFunction where
  name := d.name
  arity := d.params
  chunk := d.chunk

/-! ## Loops around the code -/

theorem Assembly.loops_constant (a : Assembly) (v : Value) (pos : Position) :
    (a.constant v pos).loops = a.loops := by
  unfold Assembly.constant
  split <;> rfl

mutual

theorem Expr.loops_emit : (e : Expr) → (a : Assembly) → (e.emit a).loops = a.loops
  | .constant pos v, a => a.loops_constant v pos
  | .boolean _ _, _ | .none _, _ | .local _ _, _ | .global _ _, _ => rfl
  | .list _ items, a => Expr.loops_emitAll items a
  | .call _ callee args, a => (Expr.loops_emitAll args _).trans (callee.loops_emit a)
  | .unary _ _ operand, a => operand.loops_emit a
  | .index _ lhs rhs, a | .binary _ _ lhs rhs, a | .logical _ _ lhs rhs, a =>
    (rhs.loops_emit _).trans (lhs.loops_emit a)

theorem Expr.loops_emitAll : (es : List Expr) → (a : Assembly) →
    (Expr.emitAll es a).loops = a.loops
  | [], _ => rfl
  | e :: es, a => (Expr.loops_emitAll es _).trans (e.loops_emit a)

end

theorem Stmt.emitAll_append (ss ts : List Stmt) (a : Assembly) :
    Stmt.emitAll (ss ++ ts) a = Stmt.emitAll ts (Stmt.emitAll ss a) := by
  induction ss generalizing a with
  | nil => rfl
  | cons s ss ih => exact ih (s.emit a)

theorem Expr.length_loops_emit (e : Expr) (a : Assembly) :
    (e.emit a).loops.length = a.loops.length := by
  rw [e.loops_emit]

@[simp] theorem Assembly.loops_patchAll (a : Assembly) (jumps : List Nat) :
    (a.patchAll jumps).loops = a.loops := by
  induction jumps generalizing a with
  | nil => rfl
  | cons jump jumps ih => exact ih (a.patch jump)

theorem Assembly.length_loops_leave (a : Assembly) (pos : Position) :
    (a.leave pos).loops.length = a.loops.length := by
  unfold Assembly.leave
  split <;> rename_i h <;> simp [Assembly.emit, h]

mutual

theorem Stmt.length_loops_emit : (s : Stmt) → (a : Assembly) →
    (s.emit a).loops.length = a.loops.length
  | .expr _ e, a => e.length_loops_emit a
  | .assign _ _ value, a => value.length_loops_emit a
  | .setIndex _ object place value, a =>
    (value.length_loops_emit _).trans
      ((place.length_loops_emit _).trans (object.length_loops_emit a))
  | .ret _ value, a => value.length_loops_emit a
  | .branch _ cond body rest, a =>
    (Stmt.length_loops_emitAll rest _).trans
      ((Stmt.length_loops_emitAll body _).trans (cond.length_loops_emit a))
  | .loop pos cond body, a => by
    have hbody := Stmt.length_loops_emitAll body
      ((cond.emit a).emit (.jumpIfFalse 0) pos).enterLoop
    have hcond := cond.length_loops_emit a
    simp only [Assembly.enterLoop, Assembly.emit, List.length_cons] at hbody
    simp only [Stmt.emit, Assembly.loops_patchAll, Assembly.patch, Assembly.emit,
      Assembly.leaveLoop, Assembly.enterLoop, List.length_tail, hbody]
    omega
  | .leave pos, a => a.length_loops_leave pos
  | .pass, _ => rfl

theorem Stmt.length_loops_emitAll : (ss : List Stmt) → (a : Assembly) →
    (Stmt.emitAll ss a).loops.length = a.loops.length
  | [], _ => rfl
  | s :: ss, a => (Stmt.length_loops_emitAll ss _).trans (s.length_loops_emit a)

end

end Core

end ScriptMachine
