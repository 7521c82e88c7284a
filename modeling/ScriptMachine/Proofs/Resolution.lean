import ScriptMachine.Proofs.Draft
/-!
# What becomes of the names of a program

A resolved program beside the program it was made from: node by node, a name has become the slot of
a variable, a member of a module has become a value, and a declaration has become an assignment.
Each name was looked up at some moment of the compilation, and stands for what it stood for then.

* `Sense`: what names and literals may stand for;
* `Expr.Resolves`, `Stmt.Resolves`, `Program.Resolves`: a program and the resolved program, in a
  given sense;
* `Draft.concludes_watch`, `Draft.concludes_bindProgram`: **a program is resolved in the sense that
  was seen**.
-/

namespace ScriptMachine

/-- What the names and literals of a program may stand for. -/
structure Sense where
  name : String → Binding → Prop
  /-- A member of a module. -/
  member : String → String → Value → Prop
  string : String → Value → Prop
  function : Core.Func → Value → Prop

/-- One sense is part of another one. -/
structure Sense.Le (S T : Sense) : Prop where
  name : ∀ {id b}, S.name id b → T.name id b
  member : ∀ {object id v}, S.member object id v → T.member object id v
  string : ∀ {s v}, S.string s v → T.string s v
  function : ∀ {f v}, S.function f v → T.function f v

/-- The variable that an assignment changes, as what a name stands for. -/
def Core.Target.binding : Core.Target → Binding
  | .local slot => .local slot
  | .global slot => .global slot

/-! ## Programs and resolved programs -/

mutual

/-- An expression and what has become of it. -/
inductive Expr.Resolves (S : Sense) : Expr → Core.Expr → Prop
  | number {pos x} : Expr.Resolves S (.number pos x) (.constant pos (.ofDouble x))
  | string {pos s v} (h : S.string s v) : Expr.Resolves S (.string pos s) (.constant pos v)
  | boolean {pos b} : Expr.Resolves S (.boolean pos b) (.boolean pos b)
  | none {pos} : Expr.Resolves S (.none pos) (.none pos)
  | list {pos items items'} (h : Expr.ResolvesAll S items items') :
    Expr.Resolves S (.list pos items) (.list pos items')
  | local {pos id slot} (h : S.name id (.local slot)) :
    Expr.Resolves S (.name pos id) (.local pos slot)
  | global {pos id slot} (h : S.name id (.global slot)) :
    Expr.Resolves S (.name pos id) (.global pos slot)
  | member {pos objectPos object id v} (h : S.member object id v) :
    Expr.Resolves S (.member pos (.name objectPos object) id) (.constant pos v)
  | index {pos object object' place place'} (hobject : Expr.Resolves S object object')
    (hplace : Expr.Resolves S place place') :
    Expr.Resolves S (.index pos object place) (.index pos object' place')
  | call {pos callee callee' args args'} (hcallee : Expr.Resolves S callee callee')
    (hargs : Expr.ResolvesAll S args args') :
    Expr.Resolves S (.call pos callee args) (.call callee.pos callee' args')
  | unary {pos op operand operand'} (h : Expr.Resolves S operand operand') :
    Expr.Resolves S (.unary pos op operand) (.unary pos op operand')
  | binary {pos op lhs lhs' rhs rhs'} (hlhs : Expr.Resolves S lhs lhs')
    (hrhs : Expr.Resolves S rhs rhs') :
    Expr.Resolves S (.binary pos op lhs rhs) (.binary pos op lhs' rhs')
  | logical {pos op lhs lhs' rhs rhs'} (hlhs : Expr.Resolves S lhs lhs')
    (hrhs : Expr.Resolves S rhs rhs') :
    Expr.Resolves S (.logical pos op lhs rhs) (.logical pos op lhs' rhs')

inductive Expr.ResolvesAll (S : Sense) : List Expr → List Core.Expr → Prop
  | nil : Expr.ResolvesAll S [] []
  | cons {e e' es es'} (he : Expr.Resolves S e e') (hes : Expr.ResolvesAll S es es') :
    Expr.ResolvesAll S (e :: es) (e' :: es')

end

mutual

/-- A statement and what has become of it. -/
inductive Stmt.Resolves (S : Sense) : Stmt → Core.Stmt → Prop
  | expr {e e'} (h : Expr.Resolves S e e') : Stmt.Resolves S (.expr e) (.expr e.pos e')
  | assign {pos name value value' declare} {target : Core.Target}
    (hvalue : Expr.Resolves S value value') (htarget : S.name name target.binding) :
    Stmt.Resolves S (.assign pos name value declare) (.assign pos target value')
  | setIndex {pos object object' place place' value value'}
    (hobject : Expr.Resolves S object object') (hplace : Expr.Resolves S place place')
    (hvalue : Expr.Resolves S value value') :
    Stmt.Resolves S (.setIndex pos object place value) (.setIndex pos object' place' value')
  | importModule {pos name} : Stmt.Resolves S (.importModule pos name) .pass
  /-- The function that was made has the body of the declaration, and gives nothing if it comes to
  the end. -/
  | func {pos name params body body' v} {f : Core.Func} {target : Core.Target}
    (hname : f.name = name) (hparams : f.params = params.length)
    (hbody : Stmt.ResolvesAll S body body')
    (hends : f.body = body' ++ [.ret pos (.none pos)]) (hv : S.function f v)
    (htarget : S.name name target.binding) :
    Stmt.Resolves S (.func pos name params body) (.assign pos target (.constant pos v))
  | ret {pos e e'} (h : Expr.Resolves S e e') : Stmt.Resolves S (.ret pos (some e)) (.ret pos e')
  | retNone {pos} : Stmt.Resolves S (.ret pos none) (.ret pos (.none pos))
  | branch {cond cond' body body' tail tail'} (hcond : Expr.Resolves S cond cond')
    (hbody : Stmt.ResolvesAll S body body') (htail : Else.Resolves S tail tail') :
    Stmt.Resolves S (.branch cond body tail) (.branch cond.pos cond' body' tail')
  | loop {cond cond' body body'} (hcond : Expr.Resolves S cond cond')
    (hbody : Stmt.ResolvesAll S body body') :
    Stmt.Resolves S (.loop cond body) (.loop cond.pos cond' body')
  | leave {pos} : Stmt.Resolves S (.leave pos) (.leave pos)
  | pass : Stmt.Resolves S .pass .pass

inductive Stmt.ResolvesAll (S : Sense) : List Stmt → List Core.Stmt → Prop
  | nil : Stmt.ResolvesAll S [] []
  | cons {s s' ss ss'} (hs : Stmt.Resolves S s s') (hss : Stmt.ResolvesAll S ss ss') :
    Stmt.ResolvesAll S (s :: ss) (s' :: ss')

/-- The rest of a conditional and what has become of it. -/
inductive Else.Resolves (S : Sense) : Else → List Core.Stmt → Prop
  | nothing : Else.Resolves S .nothing []
  | elseIf {cond cond' body body' tail tail'} (hcond : Expr.Resolves S cond cond')
    (hbody : Stmt.ResolvesAll S body body') (htail : Else.Resolves S tail tail') :
    Else.Resolves S (.elseIf cond body tail) [.branch cond.pos cond' body' tail']
  | block {body body'} (h : Stmt.ResolvesAll S body body') : Else.Resolves S (.block body) body'

end

/-- The top level and what has become of it: an expression at its end is its result. -/
inductive Program.Resolves (S : Sense) : Program → List Core.Stmt → Prop
  | nil : Program.Resolves S [] [.ret {} (.none {})]
  | result {e e'} (h : Expr.Resolves S e e') : Program.Resolves S [.expr e] [.ret e.pos e']
  | cons {s s' ss ss'} (hs : Stmt.Resolves S s s') (hss : Program.Resolves S ss ss') :
    Program.Resolves S (s :: ss) (s' :: ss')

section Mono

variable {S T : Sense}

mutual

theorem Expr.Resolves.mono (hle : S.Le T) :
    {e : Expr} → {e' : Core.Expr} → e.Resolves S e' → e.Resolves T e'
  | _, _, .number => .number
  | _, _, .string h => .string (hle.string h)
  | _, _, .boolean => .boolean
  | _, _, .none => .none
  | _, _, .list h => .list (h.mono hle)
  | _, _, .local h => .local (hle.name h)
  | _, _, .global h => .global (hle.name h)
  | _, _, .member h => .member (hle.member h)
  | _, _, .index hobject hplace => .index (hobject.mono hle) (hplace.mono hle)
  | _, _, .call hcallee hargs => .call (hcallee.mono hle) (hargs.mono hle)
  | _, _, .unary h => .unary (h.mono hle)
  | _, _, .binary hlhs hrhs => .binary (hlhs.mono hle) (hrhs.mono hle)
  | _, _, .logical hlhs hrhs => .logical (hlhs.mono hle) (hrhs.mono hle)

theorem Expr.ResolvesAll.mono (hle : S.Le T) : {es : List Expr} → {es' : List Core.Expr} →
    Expr.ResolvesAll S es es' → Expr.ResolvesAll T es es'
  | _, _, .nil => .nil
  | _, _, .cons he hes => .cons (he.mono hle) (hes.mono hle)

end

mutual

theorem Stmt.Resolves.mono (hle : S.Le T) :
    {s : Stmt} → {s' : Core.Stmt} → s.Resolves S s' → s.Resolves T s'
  | _, _, .expr h => .expr (h.mono hle)
  | _, _, .assign hvalue htarget => .assign (hvalue.mono hle) (hle.name htarget)
  | _, _, .setIndex hobject hplace hvalue =>
    .setIndex (hobject.mono hle) (hplace.mono hle) (hvalue.mono hle)
  | _, _, .importModule => .importModule
  | _, _, .func hname hparams hbody hends hv htarget =>
    .func hname hparams (hbody.mono hle) hends (hle.function hv) (hle.name htarget)
  | _, _, .ret h => .ret (h.mono hle)
  | _, _, .retNone => .retNone
  | _, _, .branch hcond hbody htail => .branch (hcond.mono hle) (hbody.mono hle) (htail.mono hle)
  | _, _, .loop hcond hbody => .loop (hcond.mono hle) (hbody.mono hle)
  | _, _, .leave => .leave
  | _, _, .pass => .pass

theorem Stmt.ResolvesAll.mono (hle : S.Le T) : {ss : List Stmt} → {ss' : List Core.Stmt} →
    Stmt.ResolvesAll S ss ss' → Stmt.ResolvesAll T ss ss'
  | _, _, .nil => .nil
  | _, _, .cons hs hss => .cons (hs.mono hle) (hss.mono hle)

theorem Else.Resolves.mono (hle : S.Le T) : {tail : Else} → {ss : List Core.Stmt} →
    tail.Resolves S ss → tail.Resolves T ss
  | _, _, .nothing => .nothing
  | _, _, .elseIf hcond hbody htail => .elseIf (hcond.mono hle) (hbody.mono hle) (htail.mono hle)
  | _, _, .block h => .block (h.mono hle)

end

theorem Program.Resolves.mono (hle : S.Le T) {program : Program} {ss : List Core.Stmt}
    (h : Program.Resolves S program ss) : Program.Resolves T program ss := by
  induction h with
  | nil => exact .nil
  | result h => exact .result (h.mono hle)
  | cons hs _ ih => exact .cons (hs.mono hle) ih

end Mono

/-! ## What was seen in the course of a compilation -/

namespace Draft

variable {σ : Type} {call : Callback σ} {root d k : Draft σ} {W : Watch call} {pos : Position}

/-- The moments from one to another. -/
def Between (call : Callback σ) (root d k : Draft σ) : Prop := root.Later call k ∧ k.Later call d

/-- What names and literals stood for at the moments from `root` to `d`. -/
def seen (call : Callback σ) (root d : Draft σ) : Sense where
  name id b := ∃ k, Between call root d k ∧ k.resolve id = b
  member object id v := ∃ k index, Between call root d k ∧ k.resolve object = .module index ∧
    k.machine.modules.function? index id = some v
  string s v := ∃ k, Between call root d k ∧ (k.machine.alloc (.string s)).1 = v
  function f v := ∃ k, Between call root d k ∧ (k.machine.alloc (.function f.script)).1 = v

/-- The moment from `root` to `d` at which an object was made. -/
structure MadeAt (call : Callback σ) (root d k : Draft σ) (o : Object (Native σ)) (v : Value) :
    Prop where
  before : root.Later call k
  value : (k.machine.alloc o).1 = v
  step : k.Next call ⟨k.build, (k.machine.alloc o).2⟩
  after : Later call ⟨k.build, (k.machine.alloc o).2⟩ d

theorem MadeAt.between {o : Object (Native σ)} {v : Value} (h : MadeAt call root d k o v) :
    Between call root d k :=
  ⟨h.before, h.step.later.trans h.after⟩

/-- The same, with the objects that were in fact made for literals and functions. -/
def made (call : Callback σ) (root d : Draft σ) : Sense where
  name id b := (root.seen call d).name id b
  member object id v := (root.seen call d).member object id v
  string s v := ∃ k, MadeAt call root d k (.string s) v
  function f v := ∃ k, MadeAt call root d k (.function f.script) v

theorem made_mono (hleads : d.Leads W k) : (root.made call d).Le (root.made call k) where
  name := fun ⟨j, hj, hb⟩ => ⟨j, ⟨hj.1, hj.2.trans hleads.later⟩, hb⟩
  member := fun ⟨j, index, hj, hm⟩ => ⟨j, index, ⟨hj.1, hj.2.trans hleads.later⟩, hm⟩
  string := fun ⟨j, hj⟩ => ⟨j, { hj with after := hj.after.trans hleads.later }⟩
  function := fun ⟨j, hj⟩ => ⟨j, { hj with after := hj.after.trans hleads.later }⟩

theorem made_le_seen : (root.made call d).Le (root.seen call d) where
  name h := h
  member h := h
  string := fun ⟨j, hj⟩ => ⟨j, hj.between, hj.value⟩
  function := fun ⟨j, hj⟩ => ⟨j, hj.between, hj.value⟩

/-- What is seen at a moment itself. -/
theorem between_self (h : root.Later call d) : Between call root d d := ⟨h, .refl d⟩

/-! ## Expressions -/

theorem ends_allocate (d : Draft σ) {o : Object (Native σ)}
    (leads : d.Leads W ⟨d.build, (d.machine.alloc o).2⟩) :
      d.Ends W (fun v k => v = (d.machine.alloc o).1 ∧ k = ⟨d.build, (d.machine.alloc o).2⟩)
        (Compile.allocate o d.build d.machine) :=
  .ok leads ⟨rfl, rfl⟩

mutual

theorem ends_bindExpr : (e : Expr) → e.At W.place → (d : Draft σ) → root.Leads W d →
    d.Ends W (fun e' k => e.Resolves (root.made call k) e') (Compile.bindExpr e d.build d.machine)
  | .number pos x, _, d, _ => .pure .number
  | .string pos s, _, d, h => by
    refine (d.ends_allocate ⟨(Next.string s).later, W.string s⟩).bind ?_
    rintro v k - ⟨rfl, rfl⟩
    exact .pure (.string ⟨d, h.later, rfl, .string s, .refl _⟩)
  | .boolean pos b, _, d, _ => .pure .boolean
  | .none pos, _, d, _ => .pure .none
  | .list pos items, hQ, d, h =>
    (ends_bindExprs items hQ.2 d h).bind fun _ _ _ hitems => .pure (.list hitems)
  | .name pos id, hQ, d, h => by
    refine (d.ends_resolve id).bind ?_
    rintro binding k - ⟨hbinding, rfl⟩
    cases binding with
    | «local» slot => exact .pure (.local ⟨k, between_self h.later, hbinding.symm⟩)
    | global slot => exact .pure (.global ⟨k, between_self h.later, hbinding.symm⟩)
    | module index | undefined => exact .reject _ hQ
  | .member pos object id, hQ, d, h => by
    refine (d.ends_member hQ.1 hQ.2 id).bind ?_
    rintro v k - ⟨rfl, objectPos, name, index, rfl, hmodule, hv⟩
    exact .pure (.member ⟨k, index, between_self h.later, hmodule, hv⟩)
  | .index pos object place, hQ, d, h =>
    (ends_bindExpr object hQ.2.1 d h).bind fun _ d₁ h₁ hobject =>
      (ends_bindExpr place hQ.2.2 d₁ (h.trans h₁)).bind fun _ _ h₂ hplace =>
        .pure (.index (hobject.mono (made_mono h₂)) hplace)
  | .call pos callee args, hQ, d, h => by
    unfold Compile.bindExpr
    split
    · exact Ends.reject _ hQ.1
    · exact (ends_bindExpr callee hQ.2.1 d h).bind fun _ d₁ h₁ hcallee =>
        (ends_bindExprs args hQ.2.2 d₁ (h.trans h₁)).bind fun _ _ h₂ hargs =>
          .pure (.call (hcallee.mono (made_mono h₂)) hargs)
  | .unary pos op operand, hQ, d, h =>
    (ends_bindExpr operand hQ.2 d h).bind fun _ _ _ hoperand => .pure (.unary hoperand)
  | .binary pos op lhs rhs, hQ, d, h =>
    (ends_bindExpr lhs hQ.2.1 d h).bind fun _ d₁ h₁ hlhs =>
      (ends_bindExpr rhs hQ.2.2 d₁ (h.trans h₁)).bind fun _ _ h₂ hrhs =>
        .pure (.binary (hlhs.mono (made_mono h₂)) hrhs)
  | .logical pos op lhs rhs, hQ, d, h =>
    (ends_bindExpr lhs hQ.2.1 d h).bind fun _ d₁ h₁ hlhs =>
      (ends_bindExpr rhs hQ.2.2 d₁ (h.trans h₁)).bind fun _ _ h₂ hrhs =>
        .pure (.logical (hlhs.mono (made_mono h₂)) hrhs)

theorem ends_bindExprs : (es : List Expr) → Expr.AllAt W.place es → (d : Draft σ) → root.Leads W d →
    d.Ends W (fun es' k => Expr.ResolvesAll (root.made call k) es es')
      (Compile.bindExprs es d.build d.machine)
  | [], _, _, _ => .pure .nil
  | e :: es, hQ, d, h =>
    (ends_bindExpr e hQ.1 d h).bind fun _ d₁ h₁ he =>
      (ends_bindExprs es hQ.2 d₁ (h.trans h₁)).bind fun _ _ h₂ hes =>
        .pure (.cons (he.mono (made_mono h₂)) hes)

end

/-! ## Variables -/

variable {slot : Nat}

theorem global_of_resolve {name : String} (h : d.resolve name = .global slot) :
    (d.machine.globals.slot? name).or
      ((d.build.newGlobals.idxOf? name).map (d.build.globalBase + ·)) = some slot := by
  unfold resolve Build.resolve at h
  dsimp only at h
  split at h
  · cases h
  · cases h
  · cases h
    assumption
  · cases h

/-- The top level knows no local variables. -/
theorem modules_eq_none {name : String} (top : d.build.func.isFunction = false)
    (free : ∀ index, d.resolve name ≠ .module index) :
    (d.build.newImports.lookup name).or (d.machine.imports.lookup name) = none := by
  cases hmodule : (d.build.newImports.lookup name).or (d.machine.imports.lookup name) with
  | none => rfl
  | some index =>
    refine absurd ?_ (free index)
    unfold resolve Build.resolve
    rw [top]
    simp only [Bool.false_eq_true, if_false, hmodule]

/-- A variable that is not built in is not among the first ones. -/
theorem Watch.low_le (hd : W.holds d) (h : d.machine.globals.isBuiltin slot = false) :
    W.low ≤ slot := by
  refine Nat.le_of_not_lt fun hlt => ?_
  exact Bool.false_ne_true (h.symm.trans (W.builtin hd slot hlt))

/-- Neither is one that the top level assigns to, be it new or not. -/
theorem Watch.low_le_of_declare (hd : W.holds d) {name : String}
    (top : d.build.func.isFunction = false) (free : ∀ index, d.resolve name ≠ .module index)
    (old : ∀ slot, d.resolve name = .global slot → d.machine.globals.isBuiltin slot = false)
    (h : resolve { d with build := d.build.declareGlobal d.machine name } name = .global slot) :
    W.low ≤ slot := by
  have hbase : (d.build.declareGlobal d.machine name).globalBase = d.build.globalBase := by
    unfold Build.declareGlobal
    split <;> rfl
  rcases Option.or_eq_some_iff.1 (global_of_resolve h) with hold | ⟨-, hnew⟩
  · -- A variable of the machine is what the name stood for before.
    refine Watch.low_le hd (old slot ?_)
    unfold resolve Build.resolve
    rw [top, modules_eq_none top free, show d.machine.globals.slot? name = some slot from hold]
    rfl
  · obtain ⟨i, -, rfl⟩ := Option.map_eq_some_iff.1 hnew
    rw [hbase]
    exact Nat.le_trans (W.base hd) (Nat.le_add_right _ _)

/-- A new local variable is what its name stands for from now on. -/
theorem ends_bindLocal (h : root.Leads W d) (hfunction : d.build.func.isFunction = true)
    (name : String) : d.Ends W (fun target k => (root.made call k).name name target.binding ∧
      target.Spares W.low) (Compile.bindLocal name d.build d.machine) := by
  have hstep : d.Leads W ⟨d.build.declareLocal name, d.machine⟩ := d.leads_within _
  refine .ok hstep ⟨⟨_, between_self (h.trans hstep).later, ?_⟩, nofun⟩
  have hidx : (name :: d.build.func.locals).idxOf? name = some 0 := by
    simp [List.idxOf?_cons]
  simp [resolve, Build.resolve, Build.declareLocal, hfunction, FuncBuild.localSlot?, hidx,
    Core.Target.binding]

theorem ends_bindTarget (hroot : W.holds root) (d : Draft σ) (h : root.Leads W d) (name : String)
    (declare : Bool) (hpos : W.place pos) :
    d.Ends W (fun target k => (root.made call k).name name target.binding ∧ target.Spares W.low)
      (Compile.bindTarget name declare pos d.build d.machine) := by
  refine (d.ends_checkAssignable name hpos).bind ?_
  rintro _ d - ⟨rfl, free, old⟩
  refine Ends.bind (show d.Ends W (fun b k => b = d.build ∧ k = d) _
    from .ok (.refl d) ⟨rfl, rfl⟩) ?_
  rintro _ d - ⟨rfl, rfl⟩
  -- In a function, a variable is local unless there is one already; at the top level it is global.
  split
  · rename_i hfunction
    split
    · exact ends_bindLocal h hfunction name
    · refine (d.ends_resolve name).bind ?_
      rintro binding d - ⟨hbinding, rfl⟩
      cases binding with
      | «local» slot => exact .pure ⟨⟨d, between_self h.later, hbinding.symm⟩, nofun⟩
      | global slot =>
        have hslot := Watch.low_le (h.holds hroot) (old slot hbinding.symm)
        exact .pure ⟨⟨d, between_self h.later, hbinding.symm⟩,
          fun _ heq => Core.Target.global.inj heq ▸ hslot⟩
      | module index | undefined => exact ends_bindLocal h hfunction name
  · rename_i htop
    have top := eq_false_of_ne_true htop
    refine (ends_declareGlobal top free).bind ?_
    rintro _ _ h₁ rfl
    refine (ends_resolve _ name).bind ?_
    rintro binding _ - ⟨hbinding, rfl⟩
    cases binding with
    | global slot =>
      have hslot := Watch.low_le_of_declare (h.holds hroot) top free old hbinding.symm
      exact .pure ⟨⟨_, between_self (h.trans h₁).later, hbinding.symm⟩,
        fun _ heq => Core.Target.global.inj heq ▸ hslot⟩
    | «local» slot | module index | undefined => exact .reject _ hpos

/-! ## Functions and loops -/

/-- A part of a compilation inside of another function, or of a loop. -/
theorem Ends.within {α β : Type} {func : FuncBuild} {post : α → Draft σ → Prop}
    {post' : β → Draft σ → Prop} {o : Outcome σ SyntaxError (α × Build)} {f : α × Build → β × Build}
    (h : Ends W ⟨{ d.build with func }, d.machine⟩ post o)
    (hf : ∀ a k, d.Leads W k → post a k → ∃ func',
      (f (a, k.build)).2 = { k.build with func := func' } ∧
      ∀ j, k.Leads W j → post' (f (a, k.build)).1 j) :
    d.Ends W post' (o.map f) := by
  have hstep : d.Leads W ⟨{ d.build with func }, d.machine⟩ := d.leads_within func
  cases h with
  | failed leads place stage => exact .failed (hstep.trans leads) place stage
  | unwound leads found gives => exact .unwound (hstep.trans leads) found gives
  | exhausted => exact .exhausted
  | @ok a b m leads hpost =>
    -- Two more steps, one in and one out again.
    obtain ⟨func', hbuild, hpost'⟩ := hf a ⟨b, m⟩ (hstep.trans leads) hpost
    have hout : Leads W ⟨b, m⟩ ⟨{ b with func := func' }, m⟩ := leads_within _ func'
    have hresult : f (a, b) = ((f (a, b)).1, { b with func := func' }) := by rw [← hbuild]
    rw [Outcome.map_ok, hresult]
    exact .ok ((hstep.trans leads).trans hout) (hpost' _ hout)

theorem ends_checkParams (d : Draft σ) {params : List Param}
    (hparams : ∀ p ∈ params, W.place p.pos) :
    d.Ends W (fun _ k => k = d) (Compile.checkParams params d.build d.machine) := by
  have hmem (before : List String) (p : Param)
      (hp : Compile.duplicateParam? before params = some p) : p ∈ params := by
    clear hparams
    induction params generalizing before with
    | nil => exact nomatch hp
    | cons q params ih =>
      unfold Compile.duplicateParam? at hp
      split at hp
      · cases hp
        exact List.mem_cons_self
      · exact List.mem_cons_of_mem q (ih _ hp)
  unfold Compile.checkParams
  cases hp : Compile.duplicateParam? [] params with
  | some p => exact .reject _ (hparams p (hmem [] p hp))
  | none => exact .pure rfl

section

variable (d : Draft σ) (h : root.Leads W d) {ss : List Stmt} {body : CompileM σ (List Core.Stmt)}

include h

/-- A function whose body is resolved is made for its declaration. -/
theorem ends_bindFunction (pos : Position) (name : String)
    {params : List Param} (hparams : ∀ p ∈ params, W.place p.pos)
    (hbody : ∀ d, root.Leads W d → d.Ends W
      (fun ss' k => Stmt.ResolvesAll (root.made call k) ss ss' ∧ Core.Stmt.SparesAll W.low ss')
      (body d.build d.machine)) :
    d.Ends W (fun v k => ∃ f : Core.Func, f.name = name ∧ f.params = params.length ∧
        (∃ ss', Stmt.ResolvesAll (root.made call k) ss ss' ∧
          f.body = ss' ++ [.ret pos (.none pos)]) ∧
        (root.made call k).function f v)
      (Compile.bindFunction pos name params body d.build d.machine) := by
  refine (d.ends_checkParams hparams).bind ?_
  rintro _ d - rfl
  have hinner : d.Ends W
      (fun p k => Stmt.ResolvesAll (root.made call k) ss p.1 ∧ Core.Stmt.SparesAll W.low p.1)
      (Compile.inFunction name params body d.build d.machine) := by
    rw [Compile.inFunction_apply]
    refine (hbody ⟨d.build.enterFunction name params, d.machine⟩
      (h.trans (d.leads_within _))).within ?_
    intro ss' k hk hss
    exact ⟨d.build.func, rfl, fun j hj => ⟨hss.1.mono (made_mono hj), hss.2⟩⟩
  -- The function is made as soon as its body is compiled.
  refine hinner.bind fun p k hk hss => ?_
  have hmade {f : Core.Func} (hf : f.body = p.1 ++ [.ret pos (.none pos)]) :
      k.Leads W ⟨k.build, (k.machine.alloc (.function f.script)).2⟩ := by
    refine ⟨(Next.function f.script).later, W.function (Core.Func.spares_chunk ?_)⟩
    rw [hf]
    exact hss.2.append (.cons .ret .nil)
  refine (k.ends_allocate (hmade rfl)).mono ?_
  rintro v j ⟨rfl, rfl⟩
  exact ⟨_, rfl, rfl, ⟨p.1, hss.1.mono (made_mono (hmade rfl)), rfl⟩, k, (h.trans hk).later, rfl,
    .function _, .refl _⟩

theorem ends_inLoop (hbody : ∀ d, root.Leads W d → d.Ends W
      (fun ss' k => Stmt.ResolvesAll (root.made call k) ss ss' ∧ Core.Stmt.SparesAll W.low ss')
      (body d.build d.machine)) :
    d.Ends W (fun p k => Stmt.ResolvesAll (root.made call k) ss p.1 ∧ Core.Stmt.SparesAll W.low p.1)
      (Compile.inLoop body d.build d.machine) := by
  rw [Compile.inLoop_apply]
  refine (hbody ⟨d.build.enterLoop, d.machine⟩ (h.trans (d.leads_within _))).within ?_
  intro ss' k hk hss
  exact ⟨k.build.leaveLoop.func, rfl, fun j hj => ⟨hss.1.mono (made_mono hj), hss.2⟩⟩

end

/-! ## Statements -/

theorem ends_requireFunction (d : Draft σ) (hpos : W.place pos) :
    d.Ends W (fun _ k => k = d) (Compile.requireFunction pos d.build d.machine) := by
  refine Ends.bind (show d.Ends W (fun _ k => k = d) _ from .ok (.refl d) rfl) ?_
  rintro b d - rfl
  split
  · exact .pure rfl
  · exact .reject _ hpos

theorem ends_requireLoop (d : Draft σ) (hpos : W.place pos) :
    d.Ends W (fun _ k => k = d) (Compile.requireLoop pos d.build d.machine) := by
  refine Ends.bind (show d.Ends W (fun _ k => k = d) _ from .ok (.refl d) rfl) ?_
  rintro b d - rfl
  cases b.func.loops with
  | nil => exact .reject _ hpos
  | cons breaks loops => exact .pure rfl

mutual

theorem ends_bindStmt (hroot : W.holds root) :
    (s : Stmt) → s.At W.place → (d : Draft σ) → root.Leads W d →
    d.Ends W (fun s' k => s.Resolves (root.made call k) s' ∧ s'.Spares W.low)
      (Compile.bindStmt call s d.build d.machine)
  | .expr e, hQ, d, h => (ends_bindExpr e hQ d h).bind fun _ _ _ he => .pure ⟨.expr he, .expr⟩
  | .assign pos name value declare, hQ, d, h =>
    (ends_bindExpr value hQ.2 d h).bind fun _ d₁ h₁ hvalue =>
      (ends_bindTarget hroot d₁ (h.trans h₁) name declare hQ.1).bind fun _ _ h₂ htarget =>
        .pure ⟨.assign (hvalue.mono (made_mono h₂)) htarget.1, .assign htarget.2⟩
  | .setIndex pos object place value, hQ, d, h =>
    (ends_bindExpr object hQ.2.1 d h).bind fun _ d₁ h₁ hobject =>
      (ends_bindExpr place hQ.2.2.1 d₁ (h.trans h₁)).bind fun _ d₂ h₂ hplace =>
        (ends_bindExpr value hQ.2.2.2 d₂ ((h.trans h₁).trans h₂)).bind fun _ _ h₃ hvalue =>
          .pure ⟨.setIndex (hobject.mono (made_mono (h₂.trans h₃))) (hplace.mono (made_mono h₃))
            hvalue, .setIndex⟩
  | .importModule pos name, hQ, d, _ =>
    (d.ends_importModule name hQ).bind fun _ _ _ _ => .pure ⟨.importModule, .pass⟩
  | .func pos name params body, hQ, d, h => by
    unfold Compile.bindStmt
    refine (ends_bindFunction d h pos name hQ.2.1 (ends_bindBlock hroot body hQ.2.2)).bind ?_
    rintro v d₁ h₁ ⟨f, hname, hparams, ⟨ss, hbody, hends⟩, hv⟩
    refine (ends_bindTarget hroot d₁ (h.trans h₁) name false hQ.1).bind
      fun target d₂ h₂ htarget => ?_
    exact .pure ⟨.func hname hparams (hbody.mono (made_mono h₂)) hends
      ((made_mono h₂).function hv) htarget.1, .assign htarget.2⟩
  | .ret pos value, hQ, d, h => by
    unfold Compile.bindStmt
    refine (d.ends_requireFunction hQ.1).bind ?_
    rintro _ d - rfl
    cases value with
    | some e => exact (ends_bindExpr e (hQ.2 e rfl) d h).bind fun _ _ _ he => .pure ⟨.ret he, .ret⟩
    | none => exact .pure ⟨.retNone, .ret⟩
  | .branch cond body tail, hQ, d, h =>
    (ends_bindExpr cond hQ.1 d h).bind fun _ d₁ h₁ hcond =>
      (ends_bindBlock hroot body hQ.2.1 d₁ (h.trans h₁)).bind fun _ d₂ h₂ hbody =>
        (ends_bindElse hroot tail hQ.2.2 d₂ ((h.trans h₁).trans h₂)).bind fun _ _ h₃ htail =>
          .pure ⟨.branch (hcond.mono (made_mono (h₂.trans h₃)))
            (hbody.1.mono (made_mono h₃)) htail.1, .branch hbody.2 htail.2⟩
  | .loop cond body, hQ, d, h =>
    (ends_bindExpr cond hQ.1 d h).bind fun _ d₁ h₁ hcond =>
      (ends_inLoop d₁ (h.trans h₁) (ends_bindBlock hroot body hQ.2)).bind fun _ _ h₂ hbody =>
        .pure ⟨.loop (hcond.mono (made_mono h₂)) hbody.1, .loop hbody.2⟩
  | .leave pos, hQ, d, _ => (d.ends_requireLoop hQ).bind fun _ _ _ _ => .pure ⟨.leave, .leave⟩
  | .pass, _, _, _ => .pure ⟨.pass, .pass⟩

theorem ends_bindBlock (hroot : W.holds root) :
    (ss : List Stmt) → Stmt.AllAt W.place ss → (d : Draft σ) → root.Leads W d →
    d.Ends W (fun ss' k => Stmt.ResolvesAll (root.made call k) ss ss' ∧
      Core.Stmt.SparesAll W.low ss') (Compile.bindBlock call ss d.build d.machine)
  | [], _, _, _ => .pure ⟨.nil, .nil⟩
  | s :: ss, hQ, d, h =>
    (ends_bindStmt hroot s hQ.1 d h).bind fun _ d₁ h₁ hs =>
      (ends_bindBlock hroot ss hQ.2 d₁ (h.trans h₁)).bind fun _ _ h₂ hss =>
        .pure ⟨.cons (hs.1.mono (made_mono h₂)) hss.1, .cons hs.2 hss.2⟩

theorem ends_bindElse (hroot : W.holds root) :
    (tail : Else) → tail.At W.place → (d : Draft σ) → root.Leads W d →
    d.Ends W (fun ss k => tail.Resolves (root.made call k) ss ∧ Core.Stmt.SparesAll W.low ss)
      (Compile.bindElse call tail d.build d.machine)
  | .nothing, _, _, _ => .pure ⟨.nothing, .nil⟩
  | .elseIf cond body tail, hQ, d, h =>
    (ends_bindExpr cond hQ.1 d h).bind fun _ d₁ h₁ hcond =>
      (ends_bindBlock hroot body hQ.2.1 d₁ (h.trans h₁)).bind fun _ d₂ h₂ hbody =>
        (ends_bindElse hroot tail hQ.2.2 d₂ ((h.trans h₁).trans h₂)).bind fun _ _ h₃ htail =>
          .pure ⟨.elseIf (hcond.mono (made_mono (h₂.trans h₃)))
            (hbody.1.mono (made_mono h₃)) htail.1, .cons (.branch hbody.2 htail.2) .nil⟩
  | .block body, hQ, d, h =>
    (ends_bindBlock hroot body hQ d h).mono fun _ _ hbody => ⟨.block hbody.1, hbody.2⟩

end

/-! ## Programs -/

theorem ends_bindTop (hroot : W.holds root) (ss : List Stmt) (hQ : Stmt.AllAt W.place ss)
    (d : Draft σ) (h : root.Leads W d) :
    d.Ends W (fun ss' k => Program.Resolves (root.made call k) ss ss' ∧
      Core.Stmt.SparesAll W.low ss') (Compile.bindTop call ss d.build d.machine) := by
  fun_induction Compile.bindTop call ss generalizing d with
  | case1 => exact .pure ⟨.nil, .cons .ret .nil⟩
  | case2 e =>
    exact (ends_bindExpr e hQ.1 d h).bind fun _ _ _ he => .pure ⟨.result he, .cons .ret .nil⟩
  | case3 s ss hne ih =>
    exact (ends_bindStmt hroot s hQ.1 d h).bind fun _ d₁ h₁ hs =>
      (ih hQ.2 d₁ (h.trans h₁)).bind fun _ _ h₂ hss =>
        .pure ⟨.cons (hs.1.mono (made_mono h₂)) hss.1, .cons hs.2 hss.2⟩

/-- The beginning of a compilation. -/
def start (source name : String) (m : Machine σ) : Draft σ where
  build :=
    { func := { chunk := { name := "main", source, sourceName := name }, isFunction := false }
      globalBase := m.globals.size }
  machine := m

/-- The machine at the end of a compilation, with the new variables and imports. -/
def commit (d : Draft σ) : Machine σ := Compile.commit d.build d.machine

/-- What is imported then was imported before, or is imported now. -/
theorem mem_imports_commit {x : String × Nat} (h : x ∈ d.commit.imports) :
    x ∈ d.build.newImports ∨ x ∈ d.machine.imports := by
  have hfoldl (news imports : List (String × Nat))
      (hx : x ∈ news.foldl (fun imports y => y :: imports.filter (·.1 != y.1)) imports) :
          x ∈ news ∨ x ∈ imports := by
    induction news generalizing imports with
    | nil => exact .inr hx
    | cons y news ih =>
      rcases ih _ hx with hnews | himports
      · exact .inl (List.mem_cons_of_mem y hnews)
      · rcases List.mem_cons.1 himports with rfl | himports
        · exact .inl List.mem_cons_self
        · exact .inr (List.mem_filter.1 himports).1
  exact hfoldl d.build.newImports d.machine.imports h

/-- How the compilation of a program may end. -/
inductive Concludes {α : Type} (W : Watch call) (root : Draft σ) (post : α → Draft σ → Prop) :
    Outcome σ SyntaxError α → Prop
  | ok {a : α} (k : Draft σ) (later : root.Later call k) (h : post a k) (holds : W.holds k) :
    Concludes W root post (.ok a k.commit)
  | failed {e : SyntaxError} (k : Draft σ) (later : root.Later call k) (holds : W.holds k)
    (place : W.place e.pos) (stage : e.stage = .compile) :
    Concludes W root post (.failed e k.machine)
  | unwound {k : Draft σ} {name : String} {index : Nat} {handle : ModuleHandle} {loader : Loader σ}
    {m : Machine σ} (later : root.Later call k)
    (found : k.machine.modules.lookup name = .load index handle loader)
    (gives : call (loader handle) (k.machine.beginLoad index) = .unwound m) (holds : W.holds k) :
    Concludes W root post (.unwound m)
  | exhausted : Concludes W root post .exhausted

theorem Concludes.mono {α : Type} {post post' : α → Draft σ → Prop} {o : Outcome σ SyntaxError α}
    (h : Concludes W root post o) (hpost : ∀ a k, post a k → post' a k) :
    Concludes W root post' o := by
  cases h with
  | ok k later h holds => exact .ok k later (hpost _ _ h) holds
  | failed k later holds place stage => exact .failed k later holds place stage
  | unwound later found gives holds => exact .unwound later found gives holds
  | exhausted => exact .exhausted

/-- **A program is resolved with the objects that were made in the course of its compilation**,
under watch. -/
theorem concludes_watch {source name : String} {program : Program} (hQ : Stmt.AllAt W.place program)
    {m : Machine σ} (hstart : W.holds (start source name m)) :
    Concludes W (start source name m)
        (fun f k => Program.Resolves ((start source name m).made call k) program f.body ∧
        f.chunk.Spares W.low)
      (bindProgram call source name program m) := by
  have hends : (start source name m).Ends W
      (fun ss k => Program.Resolves ((start source name m).made call k) program ss ∧
        Core.Stmt.SparesAll W.low ss)
      (Compile.bindBody call program (.start source name m.globals.size) m) :=
    (ends_hoist program hQ _ rfl).bind fun _ k hk _ => ends_bindTop hstart program hQ k hk
  rw [bindProgram_apply]
  generalize Compile.bindBody call program (.start source name m.globals.size) m = o at hends
  cases hends with
  | ok leads h =>
    exact .ok ⟨_, _⟩ leads.later ⟨h.1, Core.Func.spares_chunk h.2⟩ (leads.holds hstart)
  | failed leads place stage => exact .failed ⟨_, _⟩ leads.later (leads.holds hstart) place stage
  | unwound leads found gives => exact .unwound leads.later found gives (leads.holds hstart)
  | exhausted => exact .exhausted

variable (call : Callback σ) (source name : String) (program : Program) (m : Machine σ)

theorem concludes_made :
    Concludes (.places call fun _ => True) (start source name m)
      (fun f k => Program.Resolves ((start source name m).made call k) program f.body)
      (bindProgram call source name program m) :=
  (concludes_watch (Stmt.allAt_of_forall (fun _ => trivial) program) trivial).mono fun _ _ h => h.1

/-- **A program is resolved in the sense that was seen in the course of its compilation**. -/
theorem concludes_bindProgram :
    Concludes (.places call fun _ => True) (start source name m)
      (fun f k => Program.Resolves ((start source name m).seen call k) program f.body)
      (bindProgram call source name program m) :=
  (concludes_made call source name program m).mono fun _ _ h => h.mono made_le_seen

variable {call source name program m}

/-- A program that compiles is resolved with the objects that were made on the way. -/
theorem made_of_bindProgram {chunk : Chunk} {n : Machine σ}
    (h : (do let f ← bindProgram call source name program; return f.chunk) m = .ok chunk n) :
    ∃ (stop : Draft σ) (f : Core.Func), (start source name m).Later call stop ∧ n = stop.commit ∧
      f.chunk = chunk ∧ Program.Resolves ((start source name m).made call stop) program f.body := by
  rw [Run.bind_apply] at h
  have hends := concludes_made call source name program m
  generalize bindProgram call source name program m = o at h hends
  cases hends with
  | failed | unwound | exhausted => cases h
  | @ok f stop later hmade =>
    cases h
    exact ⟨stop, f, later, rfl, rfl, hmade⟩

end Draft

end ScriptMachine
