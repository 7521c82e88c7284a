import ScriptMachine.Proofs.Loading
/-!
# Points of a program and moments of its compilation

While a program is compiled, the partial program tells which point has been reached: every name
stands for what it is at that point. So each check of the compiler decides whether the point gives
what it is asked for.

* `Setting.Describes.means`: **a name stands for what it is at the point**;
* `Setting.decides_bindExpr`: expressions are accepted exactly if their demands are met.
-/

namespace ScriptMachine

variable {σ α β : Type}

/-! ## Compilations that decide something -/

/-- A part of a compilation succeeds if something holds, and is rejected otherwise. -/
inductive Decides (P : Prop) (post : α → Draft σ → Prop) : Outcome σ SyntaxError (α × Build) → Prop
  | ok {a : α} {b : Build} {m : Machine σ} (holds : P) (h : post a ⟨b, m⟩) :
    Decides P post (.ok (a, b) m)
  | failed {e : SyntaxError} {m : Machine σ} (fails : ¬ P) : Decides P post (.failed e m)

namespace Decides

variable {P Q : Prop} {post : α → Draft σ → Prop} {post' : β → Draft σ → Prop} {d : Draft σ}

variable {o : Outcome σ SyntaxError (α × Build)}

theorem congr (h : Decides P post o) (hPQ : P ↔ Q) : Decides Q post o := by
  cases h with
  | ok holds h => exact .ok (hPQ.1 holds) h
  | failed fails => exact .failed fun hQ => fails (hPQ.2 hQ)

theorem mono {post' : α → Draft σ → Prop} (h : Decides P post o)
    (hpost : ∀ a k, post a k → post' a k) : Decides P post' o := by
  cases h with
  | ok holds h => exact .ok holds (hpost _ _ h)
  | failed fails => exact .failed fails

section

variable {x : CompileM σ α} {f : α → CompileM σ β} (hx : Decides P post (x d.build d.machine))

include hx

/-- One part after the other. -/
theorem bind (hf : ∀ a k, P → post a k → Decides Q post' (f a k.build k.machine)) :
    Decides (P ∧ Q) post' ((x >>= f) d.build d.machine) := by
  rw [CompileM.bind_apply]
  generalize x d.build d.machine = o at hx
  cases hx with
  | failed fails => exact .failed fun h => fails h.1
  | ok holds h => exact (hf _ _ holds h).congr (and_iff_right holds).symm

/-- What comes after decides nothing more. -/
theorem andThen (hf : ∀ a k, post a k → Decides True post' (f a k.build k.machine)) :
    Decides P post' ((x >>= f) d.build d.machine) :=
  (hx.bind fun a k _ h => hf a k h).congr (and_iff_left trivial)

/-- What comes after decides more. -/
theorem bind_of_imp (hf : ∀ a k, P → post a k → Decides Q post' (f a k.build k.machine))
    (hQP : Q → P) : Decides Q post' ((x >>= f) d.build d.machine) :=
  (hx.bind hf).congr (and_iff_right_of_imp hQP)

end

theorem pure {a : α} (h : post a d) :
    Decides True post ((Pure.pure a : CompileM σ α) d.build d.machine) :=
  .ok trivial h

/-- What a name stands for is looked up. -/
theorem of_resolve {f : Binding → CompileM σ β} {name : String}
    (h : Decides P post' (f (d.resolve name) d.build d.machine)) :
    Decides P post' ((Compile.resolve name >>= f) d.build d.machine) := h

theorem of_isGlobal {f : Bool → CompileM σ β} {name : String}
    (h : Decides P post' (f (d.build.isGlobal d.machine name) d.build d.machine)) :
    Decides P post' ((Compile.isGlobal name >>= f) d.build d.machine) := h

theorem of_get {f : Build → CompileM σ β} (h : Decides P post' (f d.build d.build d.machine)) :
    Decides P post' ((get >>= f) d.build d.machine) := h

theorem of_gets {f : Machine σ → α} {g : α → CompileM σ β}
    (h : Decides P post' (g (f d.machine) d.build d.machine)) :
    Decides P post' (((StateT.lift (Run.gets f) : CompileM σ α) >>= g) d.build d.machine) := h

theorem map {f : α × Build → β × Build} (h : Decides P post o)
    (hf : ∀ a k, post a k → post' (f (a, k.build)).1 ⟨(f (a, k.build)).2, k.machine⟩) :
    Decides P post' (o.map f) := by
  cases h with
  | ok holds h => exact .ok holds (hf _ _ h)
  | failed fails => exact .failed fails

theorem reject (hP : ¬ P) (fault : SyntaxFault) (pos : Position) :
    Decides P post ((Compile.reject fault pos : CompileM σ α) d.build d.machine) :=
  .failed hP

end Decides

/-! ## The demands of a program -/

namespace Setting

/-- All that is asked is given. -/
def MeetsAll (c : Setting σ) (l : List (Scope × Demand)) : Prop := ∀ x ∈ l, c.Meets x.1 x.2

variable {c : Setting σ} {p : Scope} {l l' : List (Scope × Demand)}

theorem meetsAll_nil : c.MeetsAll [] := List.forall_mem_nil _

theorem meetsAll_cons {x : Demand} : c.MeetsAll ((p, x) :: l) ↔ c.Meets p x ∧ c.MeetsAll l :=
  List.forall_mem_cons

theorem meetsAll_singleton {x : Demand} : c.MeetsAll [(p, x)] ↔ c.Meets p x :=
  List.forall_mem_singleton

theorem meetsAll_append : c.MeetsAll (l ++ l') ↔ c.MeetsAll l ∧ c.MeetsAll l' :=
  List.forall_mem_append

/-- One part of a program after the other. -/
theorem decides_append {x : CompileM σ α} {f : α → CompileM σ β} {post : α → Draft σ → Prop}
    {post' : β → Draft σ → Prop} {d : Draft σ}
    (hx : Decides (c.MeetsAll l) post (x d.build d.machine))
    (hf : ∀ a k, post a k → Decides (c.MeetsAll l') post' (f a k.build k.machine)) :
    Decides (c.MeetsAll (l ++ l')) post' ((x >>= f) d.build d.machine) :=
  (hx.bind fun a k _ h => hf a k h).congr meetsAll_append.symm

end Setting

/-! ## Points and moments -/

/-- The function that is compiled is the one around a point. -/
structure Scope.Frames (p : Scope) (f : FuncBuild) : Prop where
  isFunction : f.isFunction = p.locals.isSome
  mem_locals : ∀ {locals : List String}, p.locals = some locals → ∀ name, name ∈ f.locals ↔
    name ∈ locals
  loops : f.loops.length = p.loops

/-- A compilation has declared the variables of the top level, and imported certain modules. -/
structure Setting.Tracks (c : Setting σ) (names : List String) (d : Draft σ) : Prop where
  base : d.build.globalBase = c.machine.globals.size
  isGlobal : ∀ name, d.build.isGlobal d.machine name = true ↔ c.Declared name
  newImports : ∀ name, d.build.newImports.lookup name =
    if name ∈ names then c.machine.modules.index? name else none
  ready : ∀ name ∈ names, ∃ index, d.machine.modules.lookup name = .ready index
  succeeds : d.machine.Succeeds c.machine
  resembles : d.machine.Resembles (names.foldl (Machine.loadModule c.call) c.machine)

/-- A compilation has reached a point. -/
structure Setting.Describes (c : Setting σ) (p : Scope) (d : Draft σ) : Prop where
  frames : p.Frames d.build.func
  tracks : c.Tracks (c.pending p) d

/-- What a name stands for is what it is at a point. -/
def Setting.Means (c : Setting σ) (p : Scope) (name : String) : Binding → Prop
  | .local _ => p.IsLocal name
  | .module index => c.IsModule p name ∧ c.index? p name = some index
  | .global slot => c.IsGlobal p name ∧ (c.machine.globals.isBuiltin slot = true ↔ c.IsBuiltin name)
  | .undefined => ¬ p.IsLocal name ∧ ¬ c.IsModule p name ∧ ¬ c.IsGlobal p name

theorem Scope.Frames.isLocal_iff {p : Scope} {f : FuncBuild} (h : p.Frames f) (name : String) :
    p.IsLocal name ↔ (if f.isFunction then f.localSlot? name else none).isSome = true := by
  unfold IsLocal FuncBuild.localSlot?
  rw [h.isFunction]
  cases hlocals : p.locals with
  | none => simp
  | some locals => simp [← h.mem_locals hlocals name, List.isSome_idxOf?]

namespace Setting

variable {c : Setting σ} {p : Scope} {d : Draft σ} {name : String}

theorem mem_pending : name ∈ c.pending p ↔ name ∈ c.imported ∧ ¬ c.Known name ∨
    name ∈ p.imports := by
  simp [pending]

variable {names : List String}

theorem Tracks.isSome_index? (h : c.Tracks names d) (hname : name ∈ names) :
    (c.machine.modules.index? name).isSome := by
  obtain ⟨index, hready⟩ := h.ready name hname
  rw [← h.succeeds.index name, (Registry.lookup_eq_ready_iff.1 hready).1]
  rfl

/-- The tables of the machine and of the program together hold the modules that are there. -/
theorem Tracks.index?_eq (h : c.Tracks (c.pending p) d) (name : String) :
    (d.build.newImports.lookup name).or (d.machine.imports.lookup name) = c.index? p name := by
  unfold index?
  rw [h.newImports, h.succeeds.imports]
  split
  · rename_i hname
    obtain ⟨index, hindex⟩ := Option.isSome_iff_exists.1 (h.isSome_index? hname)
    rw [hindex, Option.some_or]
  · rw [Option.none_or]

theorem Tracks.isSome_index?_iff (h : c.Tracks (c.pending p) d) (name : String) :
    (c.index? p name).isSome = true ↔ c.Known name ∨ name ∈ c.imported ∨ name ∈ p.imports := by
  unfold index?
  split
  · rename_i hname
    refine iff_of_true (h.isSome_index? hname) ?_
    rcases mem_pending.1 hname with ⟨himported, -⟩ | himports
    · exact .inr (.inl himported)
    · exact .inr (.inr himports)
  · rename_i hname
    rw [mem_pending, not_or, not_and_not_right] at hname
    refine ⟨.inl, ?_⟩
    rintro (hknown | himported | himports)
    · exact hknown
    · exact hname.1 himported
    · exact absurd himports hname.2

/-- A slot of a new variable is not built in. -/
theorem Tracks.isBuiltin_iff (h : c.Tracks names d) {slot : Nat}
    (hslot : (d.machine.globals.slot? name).or
      ((d.build.newGlobals.idxOf? name).map (d.build.globalBase + ·)) = some slot) :
    c.machine.globals.isBuiltin slot = true ↔ c.IsBuiltin name := by
  rw [h.succeeds.globals] at hslot
  unfold IsBuiltin
  cases hold : c.machine.globals.slot? name with
  | some old =>
    rw [hold, Option.some_or, Option.some.injEq] at hslot
    rw [hslot, Option.any_some]
  | none =>
    rw [hold, Option.none_or] at hslot
    obtain ⟨i, -, rfl⟩ := Option.map_eq_some_iff.1 hslot
    have hnew : c.machine.globals.isBuiltin (d.build.globalBase + i) = false := by
      unfold Globals.isBuiltin
      rw [Array.getElem?_eq_none (by rw [h.base]; exact Nat.le_add_right _ _)]
    simp [hnew]

theorem Tracks.isGlobal_iff (h : c.Tracks names d) (name : String) :
    c.Declared name ↔ ((d.machine.globals.slot? name).or
      ((d.build.newGlobals.idxOf? name).map (d.build.globalBase + ·))).isSome = true := by
  rw [← h.isGlobal name]
  simp [Build.isGlobal, List.isSome_idxOf?]

/-- A name stands for what it is at the point that has been reached. -/
theorem Describes.means (h : c.Describes p d) (name : String) :
    c.Means p name (d.resolve name) := by
  have hlocal := h.frames.isLocal_iff name
  have hmodule := h.tracks.isSome_index?_iff name
  have hglobal := h.tracks.isGlobal_iff name
  rw [← h.tracks.index?_eq] at hmodule
  unfold Draft.resolve Build.resolve
  dsimp only
  -- The tables are asked one after the other, so all that were asked before have nothing.
  split
  · rename_i slot hslot
    exact hlocal.2 (by rw [hslot]; rfl)
  · rename_i index hnone hindex
    have hl : ¬ p.IsLocal name := by rw [hlocal, hnone]; exact Bool.false_ne_true
    exact ⟨⟨hl, hmodule.1 (by rw [hindex]; rfl)⟩, (h.tracks.index?_eq name).symm.trans hindex⟩
  · rename_i slot hnone hindex hslot
    have hl : ¬ p.IsLocal name := by rw [hlocal, hnone]; exact Bool.false_ne_true
    rw [hindex] at hmodule
    exact ⟨⟨hl, fun hm => Bool.false_ne_true (hmodule.2 hm.2), hglobal.2 (by rw [hslot]; rfl)⟩,
      h.tracks.isBuiltin_iff hslot⟩
  · rename_i hnone hindex hslot
    have hl : ¬ p.IsLocal name := by rw [hlocal, hnone]; exact Bool.false_ne_true
    rw [hindex] at hmodule
    rw [hslot] at hglobal
    exact ⟨hl, fun hm => Bool.false_ne_true (hmodule.2 hm.2),
      fun hg => Bool.false_ne_true (hglobal.1 hg.2.2)⟩

theorem Tracks.alloc {names : List String} (h : c.Tracks names d) (o : Object (Native σ)) :
    c.Tracks names ⟨d.build, (d.machine.alloc o).2⟩ :=
  { h with
    succeeds := h.succeeds.trans (d.machine.succeeds_alloc o)
    resembles := h.resembles.alloc o }

theorem Describes.alloc (h : c.Describes p d) (o : Object (Native σ)) :
    c.Describes p ⟨d.build, (d.machine.alloc o).2⟩ :=
  ⟨h.frames, h.tracks.alloc o⟩

variable {q : Scope}

/-- The same modules, in another function or loop. -/
theorem Describes.within (h : c.Describes p d) {func : FuncBuild} (hframes : q.Frames func)
    (himports : q.imports = p.imports) : c.Describes q ⟨{ d.build with func }, d.machine⟩ := by
  refine ⟨hframes, ?_⟩
  unfold pending
  rw [himports]
  exact { h.tracks with }

/-! ## Expressions -/

theorem Describes.decides_member (h : c.Describes p d) (pos : Position) (object : Expr)
    (id : String) : Decides (c.Meets p (.member object.name? id)) (fun _ k => k = d)
      (Compile.member pos object id d.build d.machine) := by
  unfold Compile.member
  split
  · rename_i objectPos name
    have hmeans := h.means name
    refine .of_resolve ?_
    generalize d.resolve name = binding at hmeans ⊢
    cases binding with
    | module index =>
      have hmember : c.HasMember p name id ↔
          (d.machine.modules.function? index id).isSome = true := by
        unfold HasMember
        rw [hmeans.2, Option.any_some, ← Registry.isSome_function?_outline, loaded,
          ← h.tracks.resembles.outline, Registry.isSome_function?_outline]
      refine .of_gets ?_
      cases hfunction : d.machine.modules.function? index id with
      | none =>
        rw [hfunction] at hmember
        exact .reject (fun hmeets => Bool.false_ne_true (hmember.1 hmeets.2)) _ _
      | some v => exact .ok ⟨hmeans.1, hmember.2 (by rw [hfunction]; rfl)⟩ rfl
    | undefined => exact .reject (fun hmeets => hmeans.2.1 hmeets.1) _ _
    | «local» slot => exact .reject (fun hmeets => hmeets.1.1 hmeans) _ _
    | global slot => exact .reject (fun hmeets => hmeans.1.2.1 hmeets.1) _ _
  · rename_i hobject
    have hname : object.name? = none := by
      unfold Expr.name?
      split
      · exact absurd rfl (hobject _ _)
      · rfl
    rw [hname]
    exact .reject (fun hmeets => hmeets) _ _

mutual

theorem decides_bindExpr : (e : Expr) → {d : Draft σ} → c.Describes p d →
    Decides (c.MeetsAll (e.demands.map (p, ·))) (fun _ k => c.Describes p k)
      (Compile.bindExpr e d.build d.machine)
  | .number _ _, _, h | .boolean _ _, _, h | .none _, _, h => .ok meetsAll_nil h
  | .string _ s, _, h => .ok meetsAll_nil (h.alloc (.string s))
  | .list _ items, _, h => (decides_bindExprs items h).andThen fun _ _ hk => .pure hk
  | .name pos id, d, h => by
    have hmeans := h.means id
    unfold Compile.bindExpr Expr.demands
    refine Decides.congr (.of_resolve ?_) meetsAll_singleton.symm
    generalize d.resolve id = binding at hmeans ⊢
    cases binding with
    | «local» slot => exact .ok (.inl hmeans) h
    | global slot => exact .ok (.inr hmeans.1) h
    | module index =>
      exact .reject (fun hmeets => hmeets.elim hmeans.1.1 fun hg => hg.2.1 hmeans.1) _ _
    | undefined => exact .reject (fun hmeets => hmeets.elim hmeans.1 hmeans.2.2) _ _
  | .member pos object id, d, h => by
    unfold Compile.bindExpr Expr.demands
    refine ((h.decides_member pos object id).congr meetsAll_singleton.symm).andThen ?_
    rintro v _ rfl
    exact .pure h
  | .call pos callee args, _, h => by
    unfold Compile.bindExpr Expr.demands
    rw [List.map_cons, List.map_append]
    have hcall {l : List (Scope × Demand)} :
        c.MeetsAll ((p, .args args.length) :: l) ↔ args.length ≤ maxCallArgs ∧ c.MeetsAll l :=
          meetsAll_cons
    split
    · rename_i hargs
      exact Decides.reject (fun hmeets => hargs.not_ge (hcall.1 hmeets).1) _ _
    · rename_i hargs
      refine Decides.congr ?_ ((and_iff_right (Nat.le_of_not_lt hargs)).symm.trans hcall.symm)
      exact decides_append (decides_bindExpr callee h) fun _ _ h₁ =>
        (decides_bindExprs args h₁).andThen fun _ _ h₂ => .pure h₂
  | .unary _ _ operand, _, h => (decides_bindExpr operand h).andThen fun _ _ hk => .pure hk
  | .index _ lhs rhs, _, h | .binary _ _ lhs rhs, _, h | .logical _ _ lhs rhs, _, h => by
    unfold Compile.bindExpr Expr.demands
    rw [List.map_append]
    exact decides_append (decides_bindExpr lhs h) fun _ _ h₁ =>
      (decides_bindExpr rhs h₁).andThen fun _ _ h₂ => .pure h₂

theorem decides_bindExprs : (es : List Expr) → {d : Draft σ} → c.Describes p d →
    Decides (c.MeetsAll ((Expr.demandsAll es).map (p, ·))) (fun _ k => c.Describes p k)
      (Compile.bindExprs es d.build d.machine)
  | [], _, h => .ok meetsAll_nil h
  | e :: es, _, h => by
    unfold Compile.bindExprs Expr.demandsAll
    rw [List.map_append]
    exact decides_append (decides_bindExpr e h) fun _ _ h₁ =>
      (decides_bindExprs es h₁).andThen fun _ _ h₂ => .pure h₂

end

/-! ## Variables -/

theorem Describes.decides_checkAssignable (h : c.Describes p d) (name : String) (pos : Position) :
    Decides (c.Meets p (.assigns name)) (fun _ k => k = d)
      (Compile.checkAssignable name pos d.build d.machine) := by
  have hmeans := h.means name
  unfold Compile.checkAssignable
  refine .of_resolve ?_
  generalize d.resolve name = binding at hmeans ⊢
  cases binding with
  | module index => exact .reject (fun hmeets => hmeets.1 hmeans.1) _ _
  | «local» slot => exact .ok ⟨fun hm => hm.1 hmeans, fun hg => hg.1.1 hmeans⟩ rfl
  | undefined => exact .ok ⟨hmeans.2.1, fun hg => hmeans.2.2 hg.1⟩ rfl
  | global slot =>
    obtain ⟨hglobal, hbuiltin⟩ := hmeans
    rw [← h.tracks.succeeds.globals] at hbuiltin
    refine .of_gets ?_
    cases hslot : d.machine.globals.isBuiltin slot with
    | true => exact .reject (fun hmeets => hmeets.2 ⟨hglobal, hbuiltin.1 hslot⟩) _ _
    | false =>
      rw [hslot] at hbuiltin
      exact .ok ⟨hglobal.2.1, fun hg => Bool.false_ne_true (hbuiltin.2 hg.2)⟩ rfl

variable {locals : List String}

/-- A name gets local in the current function. -/
theorem Describes.declareLocal (h : c.Describes p d) (hlocals : p.locals = some locals)
    (name : String) : c.Describes { p with locals := some (name :: locals) }
      ⟨d.build.declareLocal name, d.machine⟩ := by
  refine h.within ⟨?_, ?_, h.frames.loops⟩ rfl
  · exact h.frames.isFunction.trans (by rw [hlocals]; rfl)
  · rintro _ ⟨⟩ other
    simp [h.frames.mem_locals hlocals other]

/-- A local variable may be declared again. -/
theorem Describes.again (h : c.Describes p d) (hlocals : p.locals = some locals)
    (hname : p.IsLocal name) : c.Describes { p with locals := some (name :: locals) } d := by
  refine h.within ⟨?_, ?_, h.frames.loops⟩ rfl
  · exact h.frames.isFunction.trans (by rw [hlocals]; rfl)
  · rintro _ ⟨⟩ other
    rw [Scope.IsLocal, hlocals, Option.getD_some] at hname
    rw [h.frames.mem_locals hlocals other, List.mem_cons]
    exact ⟨.inr, fun hother => hother.elim (fun heq => heq ▸ hname) id⟩

theorem assign_of_top (h : p.locals = none) (name : String) (declare : Bool) :
    c.assign p name declare = p := by
  unfold assign
  rw [h, Option.map_none, ← h]

theorem assign_of_global (h : c.IsGlobal p name) : c.assign p name false = p := by
  unfold assign
  simp [h]

theorem assign_of_new (hlocals : p.locals = some locals) {declare : Bool}
    (h : declare = true ∨ ¬ c.IsGlobal p name) :
    c.assign p name declare = { p with locals := some (name :: locals) } := by
  unfold assign
  rw [hlocals, Option.map_some, if_pos h]

theorem Tracks.decides_declareGlobal (h : c.Tracks names d) (hname : c.Declared name) :
    Decides True (fun _ k => k = d) (Compile.declareGlobal name d.build d.machine) :=
  .ok trivial (congrArg (Draft.mk · d.machine) (if_pos ((h.isGlobal name).2 hname)))

/-- The variable that an assignment changes. At the top level it was declared before. -/
theorem Describes.decides_bindTarget (h : c.Describes p d)
    (hname : p.locals = none → name ∈ c.bound) (declare : Bool) (pos : Position) :
    Decides (c.Meets p (.assigns name)) (fun _ k => c.Describes (c.assign p name declare) k)
      (Compile.bindTarget name declare pos d.build d.machine) := by
  unfold Compile.bindTarget
  refine Decides.congr ((h.decides_checkAssignable name pos).bind ?_) (and_iff_left trivial)
  rintro _ d hmeets rfl
  have hmeans := h.means name
  refine .of_get ?_
  cases hlocals : p.locals with
  | none =>
    have hfunction : d.build.func.isFunction = false := by rw [h.frames.isFunction, hlocals]; rfl
    have hdeclared : c.Declared name := .inr (hname hlocals)
    have hl : ¬ p.IsLocal name := by simp [Scope.IsLocal, hlocals]
    rw [if_neg (by rw [hfunction]; exact Bool.false_ne_true), assign_of_top hlocals]
    -- The variable is there already, so the name can stand for nothing else once it may be assigned
    -- to.
    refine (h.tracks.decides_declareGlobal hdeclared).andThen ?_
    rintro _ d rfl
    refine .of_resolve ?_
    generalize d.resolve name = binding at hmeans ⊢
    cases binding with
    | global slot => exact .pure h
    | «local» slot => exact absurd hmeans hl
    | module index => exact absurd hmeans.1 hmeets.1
    | undefined => exact absurd ⟨hl, hmeets.1, hdeclared⟩ hmeans.2.2
  | some locals =>
    have hfunction : d.build.func.isFunction = true := by rw [h.frames.isFunction, hlocals]; rfl
    rw [if_pos hfunction]
    cases declare with
    | true =>
      rw [assign_of_new hlocals (.inl rfl)]
      exact .ok trivial (h.declareLocal hlocals name)
    | false =>
      refine .of_resolve ?_
      generalize d.resolve name = binding at hmeans ⊢
      cases binding with
      | «local» slot =>
        rw [assign_of_new hlocals (.inr fun hg => hg.1 hmeans)]
        exact .pure (h.again hlocals hmeans)
      | global slot =>
        rw [assign_of_global hmeans.1]
        exact .pure h
      | module index => exact absurd hmeans.1 hmeets.1
      | undefined =>
        rw [assign_of_new hlocals (.inr hmeans.2.2)]
        exact .ok trivial (h.declareLocal hlocals name)

/-! ## Imports -/

/-- Loaders run to their end, and do nothing but install functions. -/
structure Runs (c : Setting σ) (fuel : Nat) : Prop where
  call : c.call = Host.run (fuel + 1)
  furnish : c.machine.LoadersFurnish

variable {fuel : Nat}

/-- A module is loaded and made known under its name. -/
theorem Tracks.link (hc : c.Runs fuel) (h : c.Tracks names d) {index : Nat}
    (hindex : d.machine.modules.index? name = some index)
    (hready : (d.machine.loadModule c.call name).modules.lookup name = .ready index) :
    c.Tracks (names ++ [name])
      (Draft.link ⟨d.build, d.machine.loadModule c.call name⟩ name index) := by
  obtain ⟨hresembles, hsucceeds⟩ :=
    h.resembles.loadModule (hc.furnish.of_succeeds h.succeeds) fuel name
  rw [← hc.call] at hresembles hsucceeds
  refine ⟨h.base, fun other => ?_, fun other => ?_, fun other hother => ?_,
    h.succeeds.trans hsucceeds, ?_⟩
  · rw [← h.isGlobal other]
    show Build.isGlobal d.build (d.machine.loadModule c.call name) other = true ↔ _
    unfold Build.isGlobal
    rw [hsucceeds.globals]
  · show (d.build.newImports ++ [(name, index)]).lookup other = _
    -- What was imported before keeps its index, which is the one that the registry has for it.
    rw [List.lookup_append, h.newImports, List.lookup_cons]
    by_cases hold : other ∈ names
    · obtain ⟨i, hi⟩ := Option.isSome_iff_exists.1 (h.isSome_index? hold)
      rw [if_pos hold, if_pos (List.mem_append_left _ hold), hi, Option.some_or]
    · by_cases hnew : other = name
      · subst hnew
        rw [← h.succeeds.index, hindex]
        simp [hold]
      · simp [hold, hnew, beq_eq_false_iff_ne.2 hnew]
  · rcases List.mem_append.1 hother with hold | hnew
    · obtain ⟨i, hi⟩ := h.ready other hold
      exact ⟨i, hsucceeds.ready hi⟩
    · rw [List.mem_singleton.1 hnew]
      exact ⟨index, hready⟩
  · rw [List.foldl_append]
    exact hresembles

/-- An import does nothing if the name is a module already. -/
theorem Describes.decides_importModule (hc : c.Runs fuel) (h : c.Describes p d) (name : String)
    (pos : Position) : Decides (c.IsModule p name ∨ c.Importable name)
      (fun _ k => c.IsModule p name ∧ k = d ∨
        ¬ c.IsModule p name ∧ k.build.func = d.build.func ∧ c.Tracks (c.pending p ++ [name]) k)
      (Compile.importModule c.call name pos d.build d.machine) := by
  have hfurnish := hc.furnish.of_succeeds h.tracks.succeeds
  -- Whatever else the name may stand for, the module is looked up next.
  have hnew (hmodule : ¬ c.IsModule p name) : Decides (c.IsModule p name ∨ c.Importable name)
      (fun _ k => c.IsModule p name ∧ k = d ∨
        ¬ c.IsModule p name ∧ k.build.func = d.build.func ∧ c.Tracks (c.pending p ++ [name]) k)
      (Compile.newImport c.call name pos d.build d.machine) := by
    refine .of_isGlobal ?_
    cases hglobal : d.build.isGlobal d.machine name with
    | true =>
      exact .reject (fun himport => himport.elim hmodule
        fun hi => hi.2 ((h.tracks.isGlobal name).1 hglobal)) _ _
    | false =>
      have hfree : ¬ c.Declared name := fun hd =>
        Bool.false_ne_true (hglobal.symm.trans ((h.tracks.isGlobal name).2 hd))
      show Decides _ _
        ((Compile.loadModule c.call name pos >>= Compile.addImport name) d.build d.machine)
      rw [CompileM.bind_apply]
      rcases Machine.loadModule_cases hfurnish fuel name pos d.build with
        ⟨hoffers, e, hload⟩ | ⟨hoffers, index, hindex, hready, hload⟩
      · rw [hc.call, hload]
        exact .failed fun himport => himport.elim hmodule
          fun hi => hoffers ((h.tracks.succeeds.offers name).2 hi.1)
      · rw [hc.call, hload]
        rw [← hc.call] at hready ⊢
        exact .ok (.inr ⟨(h.tracks.succeeds.offers name).1 hoffers, hfree⟩)
          (.inr ⟨hmodule, rfl, h.tracks.link hc hindex hready⟩)
  have hmeans := h.means name
  refine .of_resolve ?_
  generalize d.resolve name = binding at hmeans ⊢
  cases binding with
  | module index => exact .ok (.inl hmeans.1) (.inl ⟨hmeans.1, rfl⟩)
  | «local» slot => exact hnew fun hmodule => hmodule.1 hmeans
  | global slot => exact hnew hmeans.1.2.1
  | undefined => exact hnew hmeans.2.1

/-- An import in the middle of a program. Those of the top level were done before. -/
theorem Describes.decides_import (hc : c.Runs fuel) (h : c.Describes p d)
    (hname : p.locals = none → name ∈ c.imported ∧ (c.Known name ∨ c.Importable name))
    (pos : Position) :
    Decides (c.Meets p (.imports name)) (fun _ k => c.Describes (c.importing p name) k)
      (Compile.importModule c.call name pos d.build d.machine) := by
  have htop (hlocals : p.locals = none) : c.IsModule p name :=
    ⟨by simp [Scope.IsLocal, hlocals], .inr (.inl (hname hlocals).1)⟩
  have hmeets : c.IsModule p name ∨ c.Importable name ↔ c.Meets p (.imports name) := by
    cases hlocals : p.locals with
    | none =>
      exact iff_of_true (.inl (htop hlocals))
        (by simpa [Meets, IsImported, hlocals] using (hname hlocals).2)
    | some locals => simp [Meets, IsImported, hlocals]
  refine ((h.decides_importModule hc name pos).congr hmeets).mono ?_
  rintro _ k (⟨hmodule, rfl⟩ | ⟨hmodule, hfunc, htracks⟩)
  · rwa [importing, if_neg fun hnew => hnew.2 hmodule]
  · have hfunction : p.locals.isSome = true :=
      Option.isSome_iff_ne_none.2 fun hlocals => hmodule (htop hlocals)
    rw [importing, if_pos ⟨hfunction, hmodule⟩]
    refine ⟨?_, ?_⟩
    · rw [hfunc]
      exact { h.frames with }
    · unfold pending at htracks ⊢
      rwa [List.append_assoc] at htracks

/-! ## Functions and loops -/

theorem duplicateParam?_eq_none_iff (before : List String) (params : List Param) :
    Compile.duplicateParam? before params = none ↔
      (∀ name ∈ params.map (·.name), name ∉ before) ∧ (params.map (·.name)).Nodup := by
  induction params generalizing before with
  | nil => simp [Compile.duplicateParam?]
  | cons q params ih =>
    unfold Compile.duplicateParam?
    split
    · rename_i hq
      simp_all
    · rename_i hq
      rw [ih, List.map_cons, List.forall_mem_cons, List.nodup_cons]
      simp only [List.contains_eq_mem, decide_eq_true_eq, List.mem_cons, not_or] at hq ⊢
      constructor
      · rintro ⟨hparams, hnodup⟩
        exact ⟨⟨hq, fun name hname => (hparams name hname).2⟩, fun hmem => (hparams _ hmem).1 rfl,
          hnodup⟩
      · rintro ⟨⟨-, hparams⟩, hmem, hnodup⟩
        exact ⟨fun name hname => ⟨fun heq => hmem (heq ▸ hname), hparams name hname⟩, hnodup⟩

theorem decides_checkParams (p : Scope) (params : List Param) (d : Draft σ) :
    Decides (c.Meets p (.params (params.map (·.name)))) (fun _ k => k = d)
      (Compile.checkParams params d.build d.machine) := by
  have hiff := duplicateParam?_eq_none_iff [] params
  unfold Compile.checkParams
  cases hdup : Compile.duplicateParam? [] params with
  | some q =>
    refine .reject (fun hnodup => ?_) _ _
    rw [hiff.2 ⟨fun _ _ => List.not_mem_nil, hnodup⟩] at hdup
    cases hdup
  | none => exact .ok (hiff.1 hdup).2 rfl

variable (h : c.Describes p d)

include h

theorem Describes.enterFunction (name : String) (params : List Param) :
    c.Describes (p.enter params) ⟨d.build.enterFunction name params, d.machine⟩ := by
  refine h.within ⟨rfl, ?_, rfl⟩ rfl
  rintro _ ⟨⟩ other
  exact List.mem_reverse

/-- After a function, the modules that it has imported are there. -/
theorem Describes.leaveFunction {k : Draft σ} (hk : c.Describes q k) :
    c.Describes { p with imports := q.imports } ⟨{ k.build with func := d.build.func },
      k.machine⟩ :=
  hk.within { h.frames with } rfl

theorem Describes.decides_bindFunction (pos : Position) (name : String) (params : List Param)
    {l : List (Scope × Demand)} {body : CompileM σ (List Core.Stmt)}
    (hbody : ∀ {d : Draft σ}, c.Describes (p.enter params) d →
      Decides (c.MeetsAll l) (fun _ k => c.Describes q k) (body d.build d.machine)) :
    Decides (c.MeetsAll ((p, .params (params.map (·.name))) :: l))
      (fun _ k => c.Describes { p with imports := q.imports } k)
      (Compile.bindFunction pos name params body d.build d.machine) := by
  refine Decides.congr ((decides_checkParams p params d).bind ?_) meetsAll_cons.symm
  rintro _ d - rfl
  have hinner : Decides (c.MeetsAll l) (fun _ k => c.Describes { p with imports := q.imports } k)
      (Compile.inFunction name params body d.build d.machine) := by
    rw [Compile.inFunction_apply]
    exact (hbody (h.enterFunction name params)).map fun _ k hk => h.leaveFunction hk
  exact hinner.andThen fun _ k hk => .ok trivial (hk.alloc _)

theorem Describes.decides_inLoop {l : List (Scope × Demand)}
    (hloops : q.loops = p.loops + 1) {body : CompileM σ (List Core.Stmt)}
    (hbody : ∀ {d : Draft σ}, c.Describes { p with loops := p.loops + 1 } d →
      Decides (c.MeetsAll l) (fun _ k => c.Describes q k) (body d.build d.machine)) :
    Decides (c.MeetsAll l) (fun _ k => c.Describes { q with loops := p.loops } k)
      (Compile.inLoop body d.build d.machine) := by
  have henter : c.Describes { p with loops := p.loops + 1 } ⟨d.build.enterLoop, d.machine⟩ :=
    h.within { h.frames with loops := congrArg (· + 1) h.frames.loops } rfl
  rw [Compile.inLoop_apply]
  refine (hbody henter).map fun _ k hk => hk.within { hk.frames with loops := ?_ } rfl
  show k.build.func.loops.tail.length = p.loops
  rw [List.length_tail, hk.frames.loops, hloops, Nat.add_sub_cancel]

theorem Describes.decides_requireFunction (pos : Position) :
    Decides (c.Meets p .returns) (fun _ k => k = d)
      (Compile.requireFunction pos d.build d.machine) := by
  have hfunction := h.frames.isFunction
  refine .of_get ?_
  split
  · rename_i htrue
    exact .ok (hfunction.symm.trans htrue) rfl
  · rename_i hfalse
    exact .reject (fun hmeets => hfalse (hfunction.trans hmeets)) _ _

theorem Describes.decides_requireLoop (pos : Position) :
    Decides (c.Meets p .leaves) (fun _ k => k = d) (Compile.requireLoop pos d.build d.machine) := by
  have hlength := h.frames.loops
  refine .of_get ?_
  cases hloops : d.build.func.loops with
  | nil =>
    rw [hloops] at hlength
    exact .reject (fun hmeets => Nat.ne_of_lt hmeets hlength) _ _
  | cons breaks loops =>
    rw [hloops] at hlength
    exact .ok (hlength ▸ Nat.succ_pos _ : 0 < p.loops) rfl

end Setting

end ScriptMachine
