import ScriptMachine.Proofs.Lockstep
/-!
# The code of matching programs

Programs that match have the same instructions, and their constants correspond. Numbers share places
in the table of constants, so a relation between values has to leave numbers alone.

* `Core.Func.Matches.corresponds`: **functions that match have corresponding code**.
-/

namespace ScriptMachine

namespace Core

/-- Numbers correspond to themselves only. -/
def Faithful (val : Value → Value → Prop) : Prop :=
  ∀ v v', val v v' → v.isNumber = true ∨ v'.isNumber = true → v = v'

variable {val : Value → Value → Prop}

/-- Code under construction that differs in corresponding constants only. -/
structure Assembly.Corresponds (val : Value → Value → Prop) (a a' : Assembly) : Prop where
  code : a.code = a'.code
  loops : a.loops = a'.loops
  constants : Pointwise val a.constants a'.constants

namespace Assembly

variable {a a' : Assembly}

section

variable (h : a.Corresponds val a')

include h

theorem Corresponds.emit (op : Op) (pos : Position) :
    (a.emit op pos).Corresponds val (a'.emit op pos) :=
  ⟨by simp only [Assembly.emit, h.code], h.loops, h.constants⟩

theorem Corresponds.patch {jump jump' : Nat} (hjump : jump = jump') :
    (a.patch jump).Corresponds val (a'.patch jump') :=
  ⟨by simp only [Assembly.patch, h.code, hjump], h.loops, h.constants⟩

theorem Corresponds.patchAll (jumps : List Nat) :
    (a.patchAll jumps).Corresponds val (a'.patchAll jumps) := by
  induction jumps generalizing a a' with
  | nil => exact h
  | cons jump jumps ih => exact ih (h.patch rfl)

theorem Corresponds.enterLoop : a.enterLoop.Corresponds val a'.enterLoop :=
  ⟨h.code, by simp only [Assembly.enterLoop, h.loops], h.constants⟩

theorem Corresponds.leaveLoop : a.leaveLoop.Corresponds val a'.leaveLoop :=
  ⟨h.code, by simp only [Assembly.leaveLoop, h.loops], h.constants⟩

theorem Corresponds.leave (pos : Position) : (a.leave pos).Corresponds val (a'.leave pos) := by
  unfold Assembly.leave
  rw [← h.loops, ← h.code]
  split
  · refine Corresponds.emit ?_ _ _
    exact ⟨rfl, rfl, h.constants⟩
  · exact h

end

/-- A number is found at the same place. -/
theorem findIdx?_eq (hval : Faithful val) {xs ys : Array Value} (h : Pointwise val xs ys)
    {v : Value} (hv : v.isNumber = true) : xs.findIdx? (· == v) = ys.findIdx? (· == v) := by
  have hmap : xs.map (· == v) = ys.map (· == v) := by
    refine Array.ext_getElem? fun i => ?_
    rw [Array.getElem?_map, Array.getElem?_map]
    obtain ⟨hx, hy⟩ | ⟨u, u', hx, hy, hu⟩ := rel_cases (h i)
    · rw [hx, hy]
    · rw [hx, hy, Option.map_some, Option.map_some, Option.some.injEq, Bool.eq_iff_iff, beq_iff_eq,
        beq_iff_eq]
      constructor
      · rintro rfl
        exact (hval u u' hu (.inl hv)).symm
      · rintro rfl
        exact hval u u' hu (.inr hv)
  have hfind : ∀ zs : Array Value, zs.findIdx? (· == v) = (zs.map (· == v)).findIdx? id := fun zs =>
    (Array.findIdx?_map (f := (· == v)) (p := id)).symm
  rw [hfind, hfind, hmap]

theorem Corresponds.constant (hval : Faithful val) (h : a.Corresponds val a') {v v' : Value}
    (hv : val v v') (pos : Position) : (a.constant v pos).Corresponds val (a'.constant v' pos) := by
  have hshared : (if v.isNumber then a.constants.findIdx? (· == v) else .none) =
      if v'.isNumber then a'.constants.findIdx? (· == v') else .none := by
    by_cases hnumber : v.isNumber = true ∨ v'.isNumber = true
    · obtain rfl := hval v v' hv hnumber
      rw [findIdx?_eq hval h.constants (by simpa using hnumber)]
    · rw [not_or] at hnumber
      rw [if_neg hnumber.1, if_neg hnumber.2]
  unfold Assembly.constant
  rw [hshared, h.constants.size_eq]
  split
  · exact h.emit _ _
  · refine Corresponds.emit ?_ _ _
    exact ⟨h.code, h.loops, h.constants.push hv⟩

end Assembly

variable {locals globals : Nat}

mutual

theorem Expr.Matches.emit (hval : Faithful val) :
    {e f : Expr} → Expr.Matches val locals globals e f →
    {a a' : Assembly} → a.Corresponds val a' → (e.emit a).Corresponds val (f.emit a')
  | _, _, .constant hv, _, _, h => h.constant hval hv _
  | _, _, .boolean, _, _, h | _, _, .none, _, _, h | _, _, .local _, _, _, h
  | _, _, .global _, _, _, h =>
    h.emit _ _
  | _, _, .list items, _, _, h => by
    obtain ⟨hall, hlength⟩ := items.emitAll hval h
    unfold Expr.emit
    rw [hlength]
    exact hall.emit _ _
  | _, _, .index object place, _, _, h => (place.emit hval (object.emit hval h)).emit _ _
  | _, _, .call callee args, _, _, h => by
    obtain ⟨hall, hlength⟩ := args.emitAll hval (callee.emit hval h)
    unfold Expr.emit
    rw [hlength]
    exact hall.emit _ _
  | _, _, .unary operand, _, _, h => (operand.emit hval h).emit _ _
  | _, _, .binary lhs rhs, _, _, h => (rhs.emit hval (lhs.emit hval h)).emit _ _
  | _, _, .logical lhs rhs, _, _, h =>
    (rhs.emit hval (((lhs.emit hval h).emit _ _).emit _ _)).patch (by rw [(lhs.emit hval h).code])

theorem Expr.MatchesAll.emitAll (hval : Faithful val) : {es fs : List Expr} →
    Expr.MatchesAll val locals globals es fs → {a a' : Assembly} → a.Corresponds val a' →
    (Expr.emitAll es a).Corresponds val (Expr.emitAll fs a') ∧ es.length = fs.length
  | _, _, .nil, _, _, h => ⟨h, rfl⟩
  | _, _, .cons head tail, _, _, h => by
    obtain ⟨hall, hlength⟩ := tail.emitAll hval (head.emit hval h)
    exact ⟨hall, by rw [List.length_cons, List.length_cons, hlength]⟩

end

mutual

theorem Stmt.Matches.emit (hval : Faithful val) : {inLoop : Bool} → {s t : Stmt} →
    Stmt.Matches val locals globals inLoop s t → {a a' : Assembly} → a.Corresponds val a' →
    (s.emit a).Corresponds val (t.emit a')
  | _, _, _, .expr e, _, _, h => (e.emit hval h).emit _ _
  | _, _, _, .assign _ value, _, _, h => (value.emit hval h).emit _ _
  | _, _, _, .setIndex object place value, _, _, h =>
    (value.emit hval (place.emit hval (object.emit hval h))).emit _ _
  | _, _, _, .ret value, _, _, h => (value.emit hval h).emit _ _
  | _, .branch pos _ _ _, _, .branch cond body rest, _, _, h => by
    have hcond := cond.emit hval h
    have hbody := body.emitAll hval (hcond.emit (.jumpIfFalse 0) pos)
    exact (rest.emitAll hval ((hbody.emit _ _).patch (by rw [hcond.code]))).patch
      (by rw [hbody.code])
  | _, .loop pos _ _, _, .loop cond body, _, _, h => by
    have hcond := cond.emit hval h
    have hbody := body.emitAll hval (hcond.emit (.jumpIfFalse 0) pos).enterLoop
    unfold Stmt.emit
    dsimp only
    rw [hbody.loops, h.code]
    exact ((hbody.leaveLoop.emit _ _).patch (by rw [hcond.code])).patchAll _
  | _, _, _, .leave, _, _, h => h.leave _
  | _, _, _, .pass, _, _, h => h

theorem Stmt.MatchesAll.emitAll (hval : Faithful val) : {inLoop : Bool} → {ss ts : List Stmt} →
    Stmt.MatchesAll val locals globals inLoop ss ts → {a a' : Assembly} → a.Corresponds val a' →
    (Stmt.emitAll ss a).Corresponds val (Stmt.emitAll ts a')
  | _, _, _, .nil, _, _, h => h
  | _, _, _, .cons head tail, _, _, h => tail.emitAll hval (head.emit hval h)

end

/-- **Functions that match have corresponding code.** -/
theorem Func.Matches.corresponds (hval : Faithful val) {d e : Func} (h : d.Matches val globals e) :
    d.chunk.Corresponds val e.chunk := by
  have hstart : ({} : Assembly).Corresponds val {} := ⟨rfl, rfl, .empty⟩
  have hbody := h.body.emitAll hval hstart
  refine ⟨?_, hbody.constants⟩
  simp only [Func.chunk, Func.assembly, h.name, h.source, h.sourceName, h.params,
    h.locals, hbody.code]

end Core

end ScriptMachine
