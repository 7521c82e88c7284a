import ScriptMachine.Ast
/-!
# How deep syntax trees get

The grammar counts levels and chains, and stops where its room is used up. A chain takes room only
while it goes on: its first operand was read with all of the room. So the six kinds of chains stack
on top of each other.

* `Expr.depth`: the number of nodes on the longest way down a tree;
* `Grammar.deepest`: the greatest depth of an expression that is read with given levels and room.
-/

namespace ScriptMachine

/-! ## Depth -/

mutual

/-- The number of nodes on the longest way down a tree. -/
def Expr.depth : Expr → Nat
  | .number _ _ | .string _ _ | .boolean _ _ | .none _ | .name _ _ => 1
  | .list _ items => 1 + Expr.depthAll items
  | .member _ object _ => 1 + object.depth
  | .index _ object place => 1 + max object.depth place.depth
  | .call _ callee args => 1 + max callee.depth (Expr.depthAll args)
  | .unary _ _ operand => 1 + operand.depth
  | .binary _ _ lhs rhs => 1 + max lhs.depth rhs.depth
  | .logical _ _ lhs rhs => 1 + max lhs.depth rhs.depth

/-- The greatest depth of some trees. -/
def Expr.depthAll : List Expr → Nat
  | [] => 0
  | e :: es => max e.depth (Expr.depthAll es)

end

theorem Expr.depth_pos (e : Expr) : 0 < e.depth := by
  cases e <;> simp only [Expr.depth] <;> omega

mutual

/-- The expressions that a statement is made of. -/
def Stmt.exprs : Stmt → List Expr
  | .expr e => [e]
  | .assign _ _ value _ => [value]
  | .setIndex _ object place value => [object, place, value]
  | .func _ _ _ body => Stmt.allExprs body
  | .ret _ value => value.toList
  | .branch cond body tail => cond :: (Stmt.allExprs body ++ tail.exprs)
  | .loop cond body => cond :: Stmt.allExprs body
  | .importModule _ _ | .leave _ | .pass => []

/-- The expressions that statements are made of. -/
def Stmt.allExprs : List Stmt → List Expr
  | [] => []
  | s :: ss => s.exprs ++ Stmt.allExprs ss

/-- The expressions in the rest of a conditional. -/
def Else.exprs : Else → List Expr
  | .nothing => []
  | .elseIf cond body tail => cond :: (Stmt.allExprs body ++ tail.exprs)
  | .block body => Stmt.allExprs body

end

/-- The expressions of a program. -/
abbrev Program.exprs (program : Program) : List Expr := Stmt.allExprs program

namespace Grammar

/-- The greatest depth of an expression that is read when so many levels may be opened, with so much
room. An element of a list is one level further in; suffixes, a power and five chains of operators
are put on top. -/
def deepest : (levels room : Nat) → Nat
  | 0, room => 1 + 6 * room
  | _ + 1, 0 => 1
  | levels + 1, room + 1 => deepest levels room + 6 * (room + 1) + 2

/-- The same for operands of products. -/
def deepestSigned : (levels room : Nat) → Nat
  | 0, room => 1 + room
  | _ + 1, 0 => 1
  | levels + 1, room + 1 => deepest levels room + (room + 1) + 2

theorem deepest_eq (n room : Nat) : deepest n room = deepestSigned n room + 5 * room := by
  cases n with
  | zero => simp only [deepest, deepestSigned]; omega
  | succ n =>
    cases room with
    | zero => simp only [deepest, deepestSigned]
    | succ room => simp only [deepest, deepestSigned]; omega

theorem deepest_mono_succ (n room : Nat) : deepest n room ≤ deepest n (room + 1) := by
  induction n generalizing room with
  | zero => simp only [deepest]; omega
  | succ n ih =>
    cases room with
    | zero => simp only [deepest]; omega
    | succ room =>
      have := ih room
      simp only [deepest]
      omega

theorem deepestSigned_mono_succ (n room : Nat) :
    deepestSigned n room ≤ deepestSigned n (room + 1) := by
  cases n with
  | zero => simp only [deepestSigned]; omega
  | succ n =>
    cases room with
    | zero => simp only [deepestSigned]; omega
    | succ room =>
      have := deepest_mono_succ n room
      simp only [deepestSigned]
      omega

/-- Bounds for what is read behind an opened level: nothing, if there is no level left. -/
def deepestBehind : (levels room : Nat) → Nat
  | 0, _ => 0
  | levels + 1, room => deepest levels room

def signedBehind : (levels room : Nat) → Nat
  | 0, _ => 0
  | levels + 1, room => deepestSigned levels room

/-- Opening a level takes one node of room. -/
def inside (bound : Nat → Nat) : (room : Nat) → Nat
  | 0 => 0
  | room + 1 => bound room

/-- The greatest depth of an element of a list. -/
def deepestSub (levels : Nat) : (room : Nat) → Nat := inside (deepestBehind levels)

theorem deepestSub_mono_succ (n room : Nat) : deepestSub n room ≤ deepestSub n (room + 1) := by
  cases n with
  | zero => cases room <;> exact Nat.le_refl _
  | succ n =>
    cases room with
    | zero => exact Nat.zero_le _
    | succ room => exact deepest_mono_succ n room

/-- Suffixes take room. -/
theorem deepestSub_le_signed (n room : Nat) :
    1 + deepestSub n room + room ≤ deepestSigned n room := by
  cases n with
  | zero | succ n =>
    cases room <;> simp only [deepestSub, inside, deepestBehind, deepestSigned] <;> omega

theorem deepestSub_le (n room : Nat) : deepestSub n room ≤ deepest n room := by
  have := deepestSub_le_signed n room
  rw [deepest_eq]
  omega

/-- A sign opens a level. -/
theorem signed_le (n room : Nat) : 1 + inside (signedBehind n) room ≤ deepestSigned n room := by
  cases n with
  | zero => cases room <;> simp only [inside, signedBehind, deepestSigned] <;> omega
  | succ n =>
    cases room with
    | zero => exact Nat.le_refl _
    | succ room =>
      show 1 + deepestSigned n room ≤ deepest n room + (room + 1) + 2
      rw [deepest_eq]
      omega

/-- If an exponent can be read at all, then there is one more node for the power. -/
theorem power_le {n room : Nat} (h : 0 < inside (signedBehind n) room) :
    2 + deepestSub n room + room ≤ deepestSigned n room := by
  cases n with
  | zero => cases room <;> exact absurd h (Nat.lt_irrefl 0)
  | succ n =>
    cases room with
    | zero => exact absurd h (Nat.lt_irrefl 0)
    | succ room =>
      simp only [deepestSub, inside, deepestBehind, deepestSigned]
      omega

/-- The expressions have at most a depth. -/
def Shallow (d : Nat) (es : List Expr) : Prop := ∀ e ∈ es, e.depth ≤ d

variable {d : Nat}

@[simp] theorem shallow_nil : Shallow d [] := by simp [Shallow]

@[simp] theorem shallow_cons {e : Expr} {es : List Expr} :
    Shallow d (e :: es) ↔ e.depth ≤ d ∧ Shallow d es := by
  simp [Shallow]

@[simp] theorem shallow_append {es fs : List Expr} :
    Shallow d (es ++ fs) ↔ Shallow d es ∧ Shallow d fs := by
  simp [Shallow, or_imp, forall_and]

end Grammar

end ScriptMachine
