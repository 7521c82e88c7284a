import ScriptMachine.Proofs.Core
/-!
# Code that leaves the first variables alone

Only assignments change global variables, and each of them has the slot of its variable in its
instruction. So the code of a program leaves the first variables alone if its assignments do.

* `Chunk.Spares`: code that leaves the first variables alone;
* `Core.Func.spares_chunk`: **the code of a function of such statements**.
-/

namespace ScriptMachine

/-- Code that does not assign to any of the first variables. -/
def Chunk.Spares (c : Chunk) (n : Nat) : Prop :=
  ∀ i ∈ c.code, ∀ slot, i.op = .setGlobal slot → n ≤ slot

theorem Op.retarget_eq_setGlobal {op : Op} {target slot : Nat}
    (h : op.retarget target = .setGlobal slot) : op = .setGlobal slot := by
  cases op <;> first | exact h | cases h

namespace Core

/-! ## Code under construction -/

namespace Assembly

variable {a : Assembly} {n : Nat}

/-- The same for the code made so far. -/
def Spares (a : Assembly) (n : Nat) : Prop :=
  ∀ i ∈ a.code, ∀ slot, i.op = .setGlobal slot → n ≤ slot

variable (h : a.Spares n)

include h

theorem Spares.emit {op : Op} (hop : ∀ slot, op = .setGlobal slot → n ≤ slot) (pos : Position) :
    (a.emit op pos).Spares n := by
  intro i hi slot hslot
  rcases Array.mem_push.1 hi with hi | rfl
  · exact h i hi slot hslot
  · exact hop slot hslot

/-- Other instructions. -/
theorem Spares.push {op : Op} {pos : Position} (hop : ∀ slot, op ≠ .setGlobal slot := by simp) :
    (a.emit op pos).Spares n :=
  h.emit (fun slot heq => absurd heq (hop slot)) pos

theorem Spares.patch (jump : Nat) : (a.patch jump).Spares n := by
  intro i hi slot hslot
  obtain ⟨k, hk⟩ := Array.mem_iff_getElem?.1 hi
  unfold Assembly.patch at hk
  rw [Array.getElem?_modify] at hk
  split at hk
  · obtain ⟨i', hi', rfl⟩ := Option.map_eq_some_iff.1 hk
    exact h i' (Array.mem_of_getElem? hi') slot (Op.retarget_eq_setGlobal hslot)
  · exact h i (Array.mem_of_getElem? hk) slot hslot

theorem Spares.patchAll (jumps : List Nat) : (a.patchAll jumps).Spares n := by
  induction jumps generalizing a with
  | nil => exact h
  | cons jump jumps ih => exact ih (h.patch jump)

theorem Spares.constant (v : Value) (pos : Position) : (a.constant v pos).Spares n := by
  unfold Assembly.constant
  split
  · exact h.push
  · exact Spares.push (a := { a with constants := _ }) h

theorem Spares.leave (pos : Position) : (a.leave pos).Spares n := by
  unfold Assembly.leave
  split
  · exact Spares.push (a := { a with loops := _ }) h
  · exact h

end Assembly

variable {n : Nat}

/-! ## Expressions -/

mutual

theorem Expr.spares_emit : (e : Expr) → {a : Assembly} → a.Spares n → (e.emit a).Spares n
  | .constant pos v, _, h => h.constant v pos
  | .boolean _ _, _, h | .none _, _, h | .local _ _, _, h | .global _ _, _, h => h.push
  | .list _ items, _, h => (Expr.spares_emitAll items h).push
  | .index _ object place, _, h => (place.spares_emit (object.spares_emit h)).push
  | .call _ callee args, _, h => (Expr.spares_emitAll args (callee.spares_emit h)).push
  | .unary _ _ operand, _, h => (operand.spares_emit h).push
  | .binary _ _ lhs rhs, _, h => (rhs.spares_emit (lhs.spares_emit h)).push
  | .logical _ op lhs rhs, _, h => by
    have hshortcut : ∀ slot, shortcut op 0 ≠ .setGlobal slot := by cases op <;> simp [shortcut]
    exact (rhs.spares_emit ((lhs.spares_emit h).push hshortcut).push).patch _

theorem Expr.spares_emitAll : (es : List Expr) → {a : Assembly} → a.Spares n →
    (Expr.emitAll es a).Spares n
  | [], _, h => h
  | e :: es, _, h => Expr.spares_emitAll es (e.spares_emit h)

end

/-! ## Statements -/

/-- An assignment to a local variable, or to a global one that is not among the first. -/
def Target.Spares (n : Nat) (t : Target) : Prop := ∀ slot, t = .global slot → n ≤ slot

/-- Statements whose code does not assign to any of the first variables. -/
def Stmt.SparesAll (n : Nat) (ss : List Stmt) : Prop :=
  ∀ a : Assembly, a.Spares n → (Stmt.emitAll ss a).Spares n

/-- The same for one statement. -/
def Stmt.Spares (n : Nat) (s : Stmt) : Prop := ∀ a : Assembly, a.Spares n → (s.emit a).Spares n

namespace Stmt

variable {pos : Position} {s : Stmt} {ss ts : List Stmt}

theorem SparesAll.nil : SparesAll n [] := fun _ h => h

theorem SparesAll.cons (hs : s.Spares n) (hss : SparesAll n ss) : SparesAll n (s :: ss) :=
  fun a h => hss (s.emit a) (hs a h)

theorem SparesAll.append (hss : SparesAll n ss) (hts : SparesAll n ts) :
    SparesAll n (ss ++ ts) := by
  intro a h
  rw [Stmt.emitAll_append]
  exact hts _ (hss a h)

theorem Spares.expr {e : Expr} : (Stmt.expr pos e).Spares n := fun _ h => (e.spares_emit h).push

theorem Spares.assign {target : Target} {value : Expr} (htarget : target.Spares n) :
    (Stmt.assign pos target value).Spares n := by
  refine fun a h => (value.spares_emit h).emit (fun slot hslot => ?_) pos
  cases target with
  | «local» _ => cases hslot
  | global _ => exact htarget slot (congrArg Target.global (Op.setGlobal.inj hslot))

theorem Spares.setIndex {object place value : Expr} :
    (Stmt.setIndex pos object place value).Spares n :=
  fun _ h => (value.spares_emit (place.spares_emit (object.spares_emit h))).push

theorem Spares.ret {value : Expr} : (Stmt.ret pos value).Spares n :=
  fun _ h => (value.spares_emit h).push

theorem Spares.branch {cond : Expr} (hbody : SparesAll n ss) (hrest : SparesAll n ts) :
    (Stmt.branch pos cond ss ts).Spares n :=
  fun _ h => (hrest _ ((hbody _ (cond.spares_emit h).push).push.patch _)).patch _

theorem Spares.loop {cond : Expr} (hbody : SparesAll n ss) : (Stmt.loop pos cond ss).Spares n := by
  intro a h
  have hcond : ((cond.emit a).emit (.jumpIfFalse 0) pos).Spares n := (cond.spares_emit h).push
  have hloop := hbody ((cond.emit a).emit (.jumpIfFalse 0) pos).enterLoop hcond
  exact (Assembly.Spares.push (a := (Stmt.emitAll ss _).leaveLoop) hloop).patch _ |>.patchAll _

theorem Spares.leave : (Stmt.leave pos).Spares n := fun _ h => h.leave pos

theorem Spares.pass : Stmt.pass.Spares n := fun _ h => h

end Stmt

/-- **The code of a function leaves the first variables alone** if its statements do. -/
theorem Func.spares_chunk {d : Func} (h : Stmt.SparesAll n d.body) : d.chunk.Spares n :=
  h {} fun _ hi => nomatch hi

end Core

end ScriptMachine
