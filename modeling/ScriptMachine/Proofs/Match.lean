import ScriptMachine.Proofs.Core
/-!
# Resolved programs that match

Two resolved programs match if they differ in nothing but their constants, and these correspond. A
tree that matches itself has its slots within given bounds, and its code can be run.

* `Core.Expr.Matches`, `Core.Stmt.Matches`: trees that match;
* `Core.Func.Matches`, `Core.Func.Scoped`: functions that match, and functions whose slots are in
  bounds.
-/

namespace ScriptMachine

namespace Core

mutual

/-- Expressions that differ in corresponding constants only, with slots below given bounds. -/
inductive Expr.Matches (val : Value → Value → Prop) (locals globals : Nat) : Expr → Expr → Prop
  | constant {pos : Position} {v w : Value} (h : val v w) :
    Expr.Matches val locals globals (.constant pos v) (.constant pos w)
  | boolean {pos : Position} {b : Bool} :
    Expr.Matches val locals globals (.boolean pos b) (.boolean pos b)
  | none {pos : Position} : Expr.Matches val locals globals (.none pos) (.none pos)
  | list {pos : Position} {es fs : List Expr} (h : Expr.MatchesAll val locals globals es fs) :
    Expr.Matches val locals globals (.list pos es) (.list pos fs)
  | local {pos : Position} {slot : Nat} (h : slot < locals) :
    Expr.Matches val locals globals (.local pos slot) (.local pos slot)
  | global {pos : Position} {slot : Nat} (h : slot < globals) :
    Expr.Matches val locals globals (.global pos slot) (.global pos slot)
  | index {pos : Position} {a b i j : Expr} (object : Expr.Matches val locals globals a b)
    (place : Expr.Matches val locals globals i j) :
    Expr.Matches val locals globals (.index pos a i) (.index pos b j)
  | call {pos : Position} {f g : Expr} {es fs : List Expr}
    (callee : Expr.Matches val locals globals f g)
    (args : Expr.MatchesAll val locals globals es fs) :
    Expr.Matches val locals globals (.call pos f es) (.call pos g fs)
  | unary {pos : Position} {op : UnaryOp} {e f : Expr}
    (operand : Expr.Matches val locals globals e f) :
    Expr.Matches val locals globals (.unary pos op e) (.unary pos op f)
  | binary {pos : Position} {op : BinaryOp} {a b c d : Expr}
    (lhs : Expr.Matches val locals globals a b) (rhs : Expr.Matches val locals globals c d) :
    Expr.Matches val locals globals (.binary pos op a c) (.binary pos op b d)
  | logical {pos : Position} {op : LogicalOp} {a b c d : Expr}
    (lhs : Expr.Matches val locals globals a b) (rhs : Expr.Matches val locals globals c d) :
    Expr.Matches val locals globals (.logical pos op a c) (.logical pos op b d)

/-- Expressions that match one by one. -/
inductive Expr.MatchesAll (val : Value → Value → Prop) (locals globals : Nat) :
    List Expr → List Expr → Prop
  | nil : Expr.MatchesAll val locals globals [] []
  | cons {e f : Expr} {es fs : List Expr} (head : Expr.Matches val locals globals e f)
    (tail : Expr.MatchesAll val locals globals es fs) :
    Expr.MatchesAll val locals globals (e :: es) (f :: fs)

end

/-- A variable with its slot below the bound. -/
def Target.InBounds (locals globals : Nat) : Target → Prop
  | .local slot => slot < locals
  | .global slot => slot < globals

mutual

/-- Statements that differ in corresponding constants only. With `inLoop` there is a loop around. -/
inductive Stmt.Matches (val : Value → Value → Prop) (locals globals : Nat) :
    (inLoop : Bool) → Stmt → Stmt → Prop
  | expr {inLoop : Bool} {pos : Position} {e f : Expr} (h : Expr.Matches val locals globals e f) :
    Stmt.Matches val locals globals inLoop (.expr pos e) (.expr pos f)
  | assign {inLoop : Bool} {pos : Position} {target : Target} {e f : Expr}
    (inBounds : target.InBounds locals globals) (value : Expr.Matches val locals globals e f) :
    Stmt.Matches val locals globals inLoop (.assign pos target e) (.assign pos target f)
  | setIndex {inLoop : Bool} {pos : Position} {a b i j e f : Expr}
    (object : Expr.Matches val locals globals a b) (place : Expr.Matches val locals globals i j)
    (value : Expr.Matches val locals globals e f) :
    Stmt.Matches val locals globals inLoop (.setIndex pos a i e) (.setIndex pos b j f)
  | ret {inLoop : Bool} {pos : Position} {e f : Expr}
    (value : Expr.Matches val locals globals e f) :
    Stmt.Matches val locals globals inLoop (.ret pos e) (.ret pos f)
  | branch {inLoop : Bool} {pos : Position} {c d : Expr} {ss ts us vs : List Stmt}
    (cond : Expr.Matches val locals globals c d)
    (body : Stmt.MatchesAll val locals globals inLoop ss ts)
    (rest : Stmt.MatchesAll val locals globals inLoop us vs) :
    Stmt.Matches val locals globals inLoop (.branch pos c ss us) (.branch pos d ts vs)
  | loop {inLoop : Bool} {pos : Position} {c d : Expr} {ss ts : List Stmt}
    (cond : Expr.Matches val locals globals c d)
    (body : Stmt.MatchesAll val locals globals true ss ts) :
    Stmt.Matches val locals globals inLoop (.loop pos c ss) (.loop pos d ts)
  | leave {pos : Position} : Stmt.Matches val locals globals true (.leave pos) (.leave pos)
  | pass {inLoop : Bool} : Stmt.Matches val locals globals inLoop .pass .pass

/-- Statements that match one by one. -/
inductive Stmt.MatchesAll (val : Value → Value → Prop) (locals globals : Nat) :
    (inLoop : Bool) → List Stmt → List Stmt → Prop
  | nil {inLoop : Bool} : Stmt.MatchesAll val locals globals inLoop [] []
  | cons {inLoop : Bool} {s t : Stmt} {ss ts : List Stmt}
    (head : Stmt.Matches val locals globals inLoop s t)
    (tail : Stmt.MatchesAll val locals globals inLoop ss ts) :
    Stmt.MatchesAll val locals globals inLoop (s :: ss) (t :: ts)

end

/-- Functions that differ in corresponding constants only. The parameters are the first local
variables, and every way through the body ends with a `ret`. -/
structure Func.Matches (val : Value → Value → Prop) (globals : Nat) (d e : Func) : Prop where
  name : d.name = e.name
  source : d.source = e.source
  sourceName : d.sourceName = e.sourceName
  params : d.params = e.params
  locals : d.locals = e.locals
  params_le : d.params ≤ d.locals
  body : Stmt.MatchesAll val d.locals globals false d.body e.body
  ends : ∃ ss pos v, d.body = ss ++ [.ret pos v]

/-- A function whose slots are in bounds: it matches itself. -/
def Func.Scoped (globals : Nat) (d : Func) : Prop := d.Matches Eq globals d

/-! ## Weaker bounds and relations -/

section Mono

variable {val val' : Value → Value → Prop} {locals locals' globals globals' : Nat}

mutual

theorem Expr.Matches.mono (hval : ∀ v w, val v w → val' v w) (hl : locals ≤ locals')
    (hg : globals ≤ globals') : {e f : Expr} → Expr.Matches val locals globals e f →
    Expr.Matches val' locals' globals' e f
  | _, _, .constant h => .constant (hval _ _ h)
  | _, _, .boolean => .boolean
  | _, _, .none => .none
  | _, _, .list h => .list (h.mono hval hl hg)
  | _, _, .local h => .local (Nat.lt_of_lt_of_le h hl)
  | _, _, .global h => .global (Nat.lt_of_lt_of_le h hg)
  | _, _, .index object place => .index (object.mono hval hl hg) (place.mono hval hl hg)
  | _, _, .call callee args => .call (callee.mono hval hl hg) (args.mono hval hl hg)
  | _, _, .unary operand => .unary (operand.mono hval hl hg)
  | _, _, .binary lhs rhs => .binary (lhs.mono hval hl hg) (rhs.mono hval hl hg)
  | _, _, .logical lhs rhs => .logical (lhs.mono hval hl hg) (rhs.mono hval hl hg)

theorem Expr.MatchesAll.mono (hval : ∀ v w, val v w → val' v w) (hl : locals ≤ locals')
    (hg : globals ≤ globals') : {es fs : List Expr} → Expr.MatchesAll val locals globals es fs →
    Expr.MatchesAll val' locals' globals' es fs
  | _, _, .nil => .nil
  | _, _, .cons head tail => .cons (head.mono hval hl hg) (tail.mono hval hl hg)

end

theorem Target.InBounds.mono (hl : locals ≤ locals') (hg : globals ≤ globals') {t : Target}
    (h : t.InBounds locals globals) : t.InBounds locals' globals' := by
  cases t with
  | «local» slot => exact Nat.lt_of_lt_of_le h hl
  | global slot => exact Nat.lt_of_lt_of_le h hg

mutual

theorem Stmt.Matches.mono (hval : ∀ v w, val v w → val' v w) (hl : locals ≤ locals')
    (hg : globals ≤ globals') : {inLoop : Bool} → {s t : Stmt} →
    Stmt.Matches val locals globals inLoop s t → Stmt.Matches val' locals' globals' inLoop s t
  | _, _, _, .expr h => .expr (h.mono hval hl hg)
  | _, _, _, .assign inBounds value => .assign (inBounds.mono hl hg) (value.mono hval hl hg)
  | _, _, _, .setIndex object place value =>
    .setIndex (object.mono hval hl hg) (place.mono hval hl hg) (value.mono hval hl hg)
  | _, _, _, .ret value => .ret (value.mono hval hl hg)
  | _, _, _, .branch cond body rest =>
    .branch (cond.mono hval hl hg) (body.mono hval hl hg) (rest.mono hval hl hg)
  | _, _, _, .loop cond body => .loop (cond.mono hval hl hg) (body.mono hval hl hg)
  | _, _, _, .leave => .leave
  | _, _, _, .pass => .pass

theorem Stmt.MatchesAll.mono (hval : ∀ v w, val v w → val' v w) (hl : locals ≤ locals')
    (hg : globals ≤ globals') : {inLoop : Bool} → {ss ts : List Stmt} →
    Stmt.MatchesAll val locals globals inLoop ss ts →
    Stmt.MatchesAll val' locals' globals' inLoop ss ts
  | _, _, _, .nil => .nil
  | _, _, _, .cons head tail => .cons (head.mono hval hl hg) (tail.mono hval hl hg)

end

theorem Stmt.MatchesAll.append {inLoop : Bool} {ss ts us vs : List Stmt}
    (h : Stmt.MatchesAll val locals globals inLoop ss ts)
    (h' : Stmt.MatchesAll val locals globals inLoop us vs) :
    Stmt.MatchesAll val locals globals inLoop (ss ++ us) (ts ++ vs) := by
  match h with
  | .nil => exact h'
  | .cons head tail => exact .cons head (tail.append h')

theorem Func.Matches.mono (hval : ∀ v w, val v w → val' v w) (hg : globals ≤ globals') {d e : Func}
    (h : d.Matches val globals e) : d.Matches val' globals' e :=
  ⟨h.name, h.source, h.sourceName, h.params, h.locals, h.params_le,
    h.body.mono hval (Nat.le_refl _) hg, h.ends⟩

end Mono

/-! ## Equal constants -/

mutual

theorem Expr.Matches.eq {locals globals : Nat} :
    {e f : Expr} → Expr.Matches Eq locals globals e f → e = f
  | _, _, .constant h => by rw [h]
  | _, _, .boolean | _, _, .none | _, _, .local _ | _, _, .global _ => rfl
  | _, _, .list h => by rw [h.eq]
  | _, _, .index object place => by rw [object.eq, place.eq]
  | _, _, .call callee args => by rw [callee.eq, args.eq]
  | _, _, .unary operand => by rw [operand.eq]
  | _, _, .binary lhs rhs | _, _, .logical lhs rhs => by rw [lhs.eq, rhs.eq]

theorem Expr.MatchesAll.eq {locals globals : Nat} : {es fs : List Expr} →
    Expr.MatchesAll Eq locals globals es fs → es = fs
  | _, _, .nil => rfl
  | _, _, .cons head tail => by rw [head.eq, tail.eq]

end

mutual

theorem Stmt.Matches.eq {locals globals : Nat} : {inLoop : Bool} → {s t : Stmt} →
    Stmt.Matches Eq locals globals inLoop s t → s = t
  | _, _, _, .expr h | _, _, _, .ret h | _, _, _, .assign _ h => by rw [h.eq]
  | _, _, _, .setIndex object place value => by rw [object.eq, place.eq, value.eq]
  | _, _, _, .branch cond body rest => by rw [cond.eq, body.eq, rest.eq]
  | _, _, _, .loop cond body => by rw [cond.eq, body.eq]
  | _, _, _, .leave | _, _, _, .pass => rfl

theorem Stmt.MatchesAll.eq {locals globals : Nat} : {inLoop : Bool} → {ss ts : List Stmt} →
    Stmt.MatchesAll Eq locals globals inLoop ss ts → ss = ts
  | _, _, _, .nil => rfl
  | _, _, _, .cons head tail => by rw [head.eq, tail.eq]

end

/-- Functions that match with equal constants are equal. -/
theorem Func.Matches.eq {globals : Nat} {d e : Func} (h : d.Matches Eq globals e) : d = e := by
  obtain ⟨name, source, sourceName, params, locals, body⟩ := d
  obtain ⟨name', source', sourceName', params', locals', body'⟩ := e
  obtain ⟨rfl, rfl, rfl, rfl, rfl, -, hbody, -⟩ := h
  obtain rfl := hbody.eq
  rfl

end Core

end ScriptMachine
