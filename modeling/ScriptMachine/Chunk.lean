import ScriptMachine.Ast
import ScriptMachine.Value
/-!
# Bytecode

Instructions of the stack machine, and chunks: the code of one program or function with its
constants. Jump targets are indices of instructions. A forward jump is emitted before its target is
known and is patched when the target is reached.
-/

namespace ScriptMachine

inductive Op
  /-- Pushes a constant of the chunk. -/
  | constant (index : Nat)
  | none
  | boolean (b : Bool)
  | pop
  | getGlobal (slot : Nat)
  | setGlobal (slot : Nat)
  | getLocal (slot : Nat)
  | setLocal (slot : Nat)
  | unary (op : UnaryOp)
  | binary (op : BinaryOp)
  | jump (target : Nat)
  /-- Takes the condition off the stack. -/
  | jumpIfFalse (target : Nat)
  /-- Leaves the condition on the stack. -/
  | jumpIfFalseKeep (target : Nat)
  /-- Leaves the condition on the stack. -/
  | jumpIfTrueKeep (target : Nat)
  | call (argc : Nat)
  | ret
  | newList (count : Nat)
  | getIndex
  | setIndex
  deriving DecidableEq, Inhabited, Repr

/-- The instruction with another jump target; others stay as they are. -/
def Op.retarget (op : Op) (target : Nat) : Op :=
  match op with
  | .jump _ => .jump target
  | .jumpIfFalse _ => .jumpIfFalse target
  | .jumpIfFalseKeep _ => .jumpIfFalseKeep target
  | .jumpIfTrueKeep _ => .jumpIfTrueKeep target
  | op => op

/-- An instruction and the place in the source it comes from. -/
structure Instr where
  op : Op
  pos : Position
  deriving DecidableEq, Inhabited, Repr

/-- The code of a program or of a function. -/
structure Chunk where
  name : String
  source : String
  sourceName : String
  code : Array Instr := #[]
  constants : Array Value := #[]
  params : Nat := 0
  locals : Nat := 0
  deriving Inhabited, Repr

namespace Chunk

/-- Adds an instruction at the end. -/
def emit (c : Chunk) (op : Op) (pos : Position) : Chunk := { c with code := c.code.push ⟨op, pos⟩ }

/-- Adds a constant and gives its index. A number that is there already is shared, bit for bit;
other values get a place of their own. -/
def addConstant (c : Chunk) (v : Value) : Nat × Chunk :=
  let shared? := if v.isNumber then c.constants.findIdx? (· == v) else .none
  match shared? with
  | some i => (i, c)
  | .none => (c.constants.size, { c with constants := c.constants.push v })

/-- Lets the jump at an index lead to the next instruction to be emitted. -/
def patchJump (c : Chunk) (index : Nat) : Chunk :=
  let target := c.code.size
  { c with code := c.code.modify index fun i => { i with op := i.op.retarget target } }

/-- The place of the instruction at an index, or nowhere. -/
def positionAt (c : Chunk) (pc : Nat) : Position :=
  match c.code[pc]? with
  | some i => i.pos
  | .none => {}

end Chunk

end ScriptMachine
