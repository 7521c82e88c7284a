import ScriptMachine.Proofs.Bind
import ScriptMachine.Proofs.Outcome
/-!
# Compiling in two halves

Compiling a program is looking up its names and then writing down the code of the resolved program.
The two halves can be pulled apart because looking up names neither reads nor changes the code made
so far (`Compile.Silent`).

* `Compile.compileExpr_eq`, `Compile.compileStmt_eq`: code for the parts of a program;
* `compileProgram_eq`: the code of a program is the chunk of the resolved program.
-/

namespace ScriptMachine

open ScriptMachine.Core (Assembly)

namespace Build

/-- The code that a partial program has so far. -/
def assembly (b : Build) : Assembly := ⟨b.func.chunk.code, b.func.chunk.constants, b.func.loops⟩

/-- A partial program with other code. -/
def edit (κ : Assembly → Assembly) (b : Build) : Build :=
  { b with
    func := { b.func with
      chunk := { b.func.chunk with
        code := (κ b.assembly).code
        constants := (κ b.assembly).constants }
      loops := (κ b.assembly).loops } }

/-- What stays as it is while names are looked up: the code and the head of the chunk. -/
def fixed (b : Build) : Assembly × Chunk × Bool :=
  (b.assembly, { b.func.chunk with locals := 0 }, b.func.isFunction)

theorem assembly_eq_of_fixed {b b' : Build} (h : b'.fixed = b.fixed) : b'.assembly = b.assembly :=
  congrArg (·.1) h

theorem edit_edit (κ μ : Assembly → Assembly) (b : Build) : (b.edit κ).edit μ = b.edit (μ ∘ κ) :=
  rfl

end Build

namespace Compile

variable {σ α β : Type}

/-- Changes the code made so far. -/
def edit (κ : Assembly → Assembly) : CompileM σ Unit := modify (·.edit κ)

theorem edit_apply (κ : Assembly → Assembly) (b : Build) (m : Machine σ) :
    edit κ b m = .ok ((), b.edit κ) m := rfl

/-! ## Instructions as edits -/

theorem emit_eq (op : Op) (pos : Position) :
    (emit op pos : CompileM σ Unit) = edit (·.emit op pos) := rfl

theorem patch_eq (jump : Nat) : (patch jump : CompileM σ Unit) = edit (·.patch jump) := rfl

theorem emitConstant_eq (v : Value) (pos : Position) :
    (emitConstant v pos : CompileM σ Unit) = edit (·.constant v pos) := by
  funext b m
  rw [edit_apply, emitConstant, CompileM.bind_apply, CompileM.get_apply]
  simp only [Outcome.andThen_ok, Chunk.addConstant, Build.edit, Build.assembly, Assembly.constant]
  generalize (if v.isNumber = true then b.func.chunk.constants.findIdx? (· == v) else none) = shared
  cases shared <;> rfl

/-! ## Computations that leave the code alone -/

/-- A computation that neither changes nor reads the code made so far, but for the number of loops
around the current statement. -/
structure Silent (x : CompileM σ α) : Prop where
  keeps : ∀ {b m a b' m'}, x b m = .ok (a, b') m' → b'.fixed = b.fixed
  edited : ∀ κ : Assembly → Assembly, (∀ a, (κ a).loops.length = a.loops.length) → ∀ b m,
    x (b.edit κ) m = (x b m).map fun p => (p.1, p.2.edit κ)

/-- Code can as well be written after a computation that leaves it alone. -/
theorem Silent.comm {x : CompileM σ α} (hx : Silent x) {κ : Assembly → Assembly}
    (hκ : ∀ a, (κ a).loops.length = a.loops.length) (f : α → CompileM σ β) :
    (do edit κ; let a ← x; f a) = (do let a ← x; edit κ; f a) := by
  funext b m
  simp only [CompileM.bind_apply, edit_apply, Outcome.andThen_ok, hx.edited κ hκ]
  cases x b m <;> rfl

theorem silent_pure (a : α) : Silent (pure a : CompileM σ α) where
  keeps h := by cases h; rfl
  edited _ _ _ _ := rfl

theorem silent_reject (fault : SyntaxFault) (pos : Position) :
    Silent (reject fault pos : CompileM σ α) where
  keeps h := by cases h
  edited _ _ _ _ := rfl

theorem silent_lift (x : Run σ SyntaxError α) : Silent (StateT.lift x : CompileM σ α) where
  keeps {b m a b' m'} h := by
    rw [CompileM.lift_apply] at h
    cases hx : x m <;> rw [hx] at h <;> cases h
    rfl
  edited κ _ b m := by
    rw [CompileM.lift_apply, CompileM.lift_apply]
    cases x m <;> rfl

theorem Silent.bind {x : CompileM σ α} {f : α → CompileM σ β} (hx : Silent x)
    (hf : ∀ a, Silent (f a)) : Silent (x >>= f) where
  keeps {b m a b' m'} h := by
    rw [CompileM.bind_apply] at h
    cases hxb : x b m with
    | ok p m₁ =>
      rw [hxb, Outcome.andThen_ok] at h
      exact ((hf p.1).keeps h).trans (hx.keeps hxb)
    | failed e m₁ | unwound m₁ | exhausted => rw [hxb] at h; cases h
  edited κ hκ b m := by
    rw [CompileM.bind_apply, CompileM.bind_apply, hx.edited κ hκ]
    cases x b m with
    | ok p m' => exact (hf p.1).edited κ hκ p.2 m'
    | failed e m' | unwound m' | exhausted => rfl

/-- Reading a part of the partial program that edits do not touch. -/
theorem Silent.get_bind {g : Build → β} {f : β → CompileM σ α}
    (hg : ∀ κ : Assembly → Assembly, (∀ a, (κ a).loops.length = a.loops.length) →
      ∀ b : Build, g (b.edit κ) = g b)
    (hf : ∀ a, Silent (f a)) : Silent (do let b ← get; f (g b)) where
  keeps {b _ _ _ _} h := (hf (g b)).keeps h
  edited κ hκ b m := by
    show f (g (b.edit κ)) (b.edit κ) m = (f (g b) b m).map _
    rw [hg κ hκ]
    exact (hf (g b)).edited κ hκ b m

/-- Changing a part of the partial program that edits do not touch. -/
theorem silent_modify {g : Build → Build} (hkeep : ∀ b, (g b).fixed = b.fixed)
    (hg : ∀ κ : Assembly → Assembly, (∀ a, (κ a).loops.length = a.loops.length) →
      ∀ b : Build, g (b.edit κ) = (g b).edit κ) :
    Silent (modify g : CompileM σ PUnit) where
  keeps h := by cases h; exact hkeep _
  edited κ hκ b m := by
    show Outcome.ok ((), g (b.edit κ)) m = _
    rw [hg κ hκ]
    rfl

theorem silent_allocate (o : Object (Native σ)) : Silent (allocate o) := silent_lift _

theorem silent_resolve (name : String) : Silent (resolve name : CompileM σ Binding) where
  keeps h := by cases h; rfl
  edited _ _ _ _ := rfl

theorem silent_isGlobal (name : String) : Silent (isGlobal name : CompileM σ Bool) where
  keeps h := by cases h; rfl
  edited _ _ _ _ := rfl

theorem silent_declareGlobal (name : String) : Silent (declareGlobal name : CompileM σ Unit) where
  keeps h := by
    cases h
    dsimp only [Build.declareGlobal]
    split <;> rfl
  edited κ _ b m := by
    show Outcome.ok ((), (b.edit κ).declareGlobal m name) m =
      .ok ((), (b.declareGlobal m name).edit κ) m
    have h : (b.edit κ).isGlobal m name = b.isGlobal m name := rfl
    unfold Build.declareGlobal
    rw [h]
    split <;> rfl

theorem silent_checkAssignable (name : String) (pos : Position) :
    Silent (checkAssignable name pos : CompileM σ Unit) := by
  refine (silent_resolve name).bind fun binding => ?_
  cases binding with
  | module index => exact silent_reject _ _
  | global slot =>
    refine (silent_lift _).bind fun builtin => ?_
    cases builtin with
    | true => exact silent_reject _ _
    | false => exact silent_pure _
  | «local» slot | undefined => exact silent_pure _

theorem silent_loadModule (call : Callback σ) (name : String) (pos : Position) :
    Silent (loadModule call name pos) := by
  refine (silent_lift _).bind fun found => ?_
  cases found with
  | unknown | cyclic => exact silent_reject _ _
  | ready index => exact silent_pure _
  | load index handle loader =>
    exact (silent_lift _).bind fun _ => (silent_lift _).bind fun _ =>
      (silent_lift _).bind fun _ => silent_pure _

/-- Puts a module among the imports of the program. -/
def addImport (name : String) (index : Nat) : CompileM σ PUnit :=
  modify fun b => { b with newImports := b.newImports ++ [(name, index)] }

/-- Imports a name that is no module yet. -/
def newImport (call : Callback σ) (name : String) (pos : Position) : CompileM σ Unit := do
  if ← isGlobal name then reject (.alreadyBound name) pos
  else
    let index ← loadModule call name pos
    addImport name index

theorem silent_importModule (call : Callback σ) (name : String) (pos : Position) :
    Silent (importModule call name pos) := by
  have hnew : Silent (newImport call name pos) := by
    refine (silent_isGlobal name).bind fun bound => ?_
    cases bound with
    | true => exact silent_reject _ _
    | false =>
      exact (silent_loadModule call name pos).bind fun index =>
        silent_modify (fun _ => rfl) fun _ _ _ => rfl
  refine (silent_resolve name).bind fun binding => ?_
  cases binding with
  | module index => exact silent_pure _
  | global slot | «local» slot | undefined => exact hnew

theorem silent_member (pos : Position) (object : Expr) (id : String) :
    Silent (member pos object id : CompileM σ Value) := by
  unfold member
  split
  · refine (silent_resolve _).bind fun binding => ?_
    cases binding with
    | module index =>
      refine (silent_lift _).bind fun found => ?_
      cases found with
      | some v => exact silent_pure _
      | none => exact silent_reject _ _
    | undefined | «local» slot | global slot => exact silent_reject _ _
  · exact silent_reject _ _

mutual

theorem silent_bindExpr : (e : Expr) → Silent (bindExpr e : CompileM σ Core.Expr)
  | .number pos x => silent_pure _
  | .string pos s => (silent_allocate _).bind fun _ => silent_pure _
  | .boolean pos b => silent_pure _
  | .none pos => silent_pure _
  | .list pos items => (silent_bindExprs items).bind fun _ => silent_pure _
  | .name pos id => by
    refine (silent_resolve id).bind fun binding => ?_
    cases binding with
    | «local» slot | global slot => exact silent_pure _
    | module index | undefined => exact silent_reject _ _
  | .member pos object id => (silent_member pos object id).bind fun _ => silent_pure _
  | .call pos callee args => by
    unfold bindExpr
    split
    · exact (silent_reject _ _).bind fun _ => (silent_bindExpr callee).bind fun _ =>
        (silent_bindExprs args).bind fun _ => silent_pure _
    · exact (silent_bindExpr callee).bind fun _ =>
        (silent_bindExprs args).bind fun _ => silent_pure _
  | .unary pos op operand => (silent_bindExpr operand).bind fun _ => silent_pure _
  | .index _ lhs rhs | .binary _ _ lhs rhs | .logical _ _ lhs rhs =>
    (silent_bindExpr lhs).bind fun _ => (silent_bindExpr rhs).bind fun _ => silent_pure _

theorem silent_bindExprs : (es : List Expr) → Silent (bindExprs es : CompileM σ (List Core.Expr))
  | [] => silent_pure _
  | e :: es =>
    (silent_bindExpr e).bind fun _ => (silent_bindExprs es).bind fun _ => silent_pure _

end

/-! ## Expressions -/

theorem here_apply (b : Build) (m : Machine σ) : here b m = .ok (b.func.chunk.code.size, b) m := rfl

theorem emitAt_apply (op : Op) (pos : Position) (b : Build) (m : Machine σ) :
    emitAt op pos b m = .ok (b.func.chunk.code.size, b.edit (·.emit op pos)) m := rfl

/-- There is a resolved expression for each expression. -/
theorem bindExprs_congr (es : List Expr) {f g : List Core.Expr → CompileM σ α}
    (h : ∀ ts, ts.length = es.length → f ts = g ts) :
    (bindExprs es >>= f) = (bindExprs es >>= g) := by
  induction es generalizing f g with
  | nil => exact h [] rfl
  | cons e es ih =>
    simp only [bindExprs, bind_assoc, pure_bind]
    congr 1
    funext t
    exact ih fun ts hts => h (t :: ts) (by simp [hts])

mutual

/-- Compiling an expression is looking up its names and writing down its code. -/
theorem compileExpr_eq : (e : Expr) →
    (compileExpr e : CompileM σ Unit) = (do let t ← bindExpr e; edit t.emit)
  | .number pos x => emitConstant_eq _ _
  | .string pos s => by
    simp only [compileExpr, bindExpr, emitConstant_eq, bind_assoc, pure_bind]
    rfl
  | .boolean pos b => rfl
  | .none pos => rfl
  | .list pos items => by
    simp only [compileExpr, bindExpr, compileExprs_eq items, bind_assoc, pure_bind, emit_eq]
    refine bindExprs_congr items fun ts hts => ?_
    rw [← hts]
    rfl
  | .name pos id => by
    simp only [compileExpr, bindExpr, bind_assoc]
    congr 1
    funext binding
    cases binding <;> rfl
  | .member pos object id => by
    simp only [compileExpr, bindExpr, emitConstant_eq, bind_assoc, pure_bind]
    rfl
  | .call pos callee args => by
    simp only [compileExpr, bindExpr]
    split
    · rfl
    · simp only [compileExpr_eq callee, compileExprs_eq args, bind_assoc, pure_bind, emit_eq,
        (silent_bindExprs args).comm (Core.Expr.length_loops_emit _)]
      congr 1
      funext t
      refine bindExprs_congr args fun ts hts => ?_
      rw [← hts]
      rfl
  | .unary pos op operand => by
    simp only [compileExpr, bindExpr, compileExpr_eq operand, bind_assoc, pure_bind, emit_eq]
    rfl
  | .index _ lhs rhs | .binary _ _ lhs rhs => by
    simp only [compileExpr, bindExpr, compileExpr_eq lhs, compileExpr_eq rhs, bind_assoc,
      pure_bind, emit_eq, (silent_bindExpr rhs).comm (Core.Expr.length_loops_emit _)]
    rfl
  | .logical pos op lhs rhs => by
    funext b m
    simp only [compileExpr, bindExpr, compileExpr_eq lhs, compileExpr_eq rhs, CompileM.bind_apply,
      emit_eq, patch_eq, edit_apply, emitAt_apply]
    cases bindExpr lhs b m with
    | ok p m' =>
      simp only [Outcome.andThen_ok, Build.edit_edit, CompileM.pure_apply]
      rw [(silent_bindExpr rhs).edited _ fun a => by
        show (p.1.emit a).loops.length = _
        rw [p.1.loops_emit]]
      cases hq : bindExpr rhs p.2 m' with
      | ok q m'' =>
        have hcode : p.2.assembly = q.2.assembly :=
          (Build.assembly_eq_of_fixed ((silent_bindExpr rhs).keeps hq)).symm
        simp only [Outcome.map_ok, Outcome.andThen_ok, Build.edit, hcode]
        cases op <;> rfl
      | failed e m'' | unwound m'' | exhausted => rfl
    | failed e m' | unwound m' | exhausted => rfl

theorem compileExprs_eq : (es : List Expr) →
    (compileExprs es : CompileM σ Unit) = (do let ts ← bindExprs es; edit (Core.Expr.emitAll ts))
  | [] => rfl
  | e :: es => by
    simp only [compileExprs, bindExprs, compileExpr_eq e, compileExprs_eq es, bind_assoc, pure_bind,
      (silent_bindExprs es).comm (Core.Expr.length_loops_emit _)]
    rfl

end

/-! ## Assignments and functions -/

theorem silent_bindLocal (name : String) : Silent (bindLocal name : CompileM σ Core.Target) where
  keeps h := by cases h; rfl
  edited _ _ _ _ := rfl

theorem silent_bindTarget (name : String) (declare : Bool) (pos : Position) :
    Silent (bindTarget name declare pos : CompileM σ Core.Target) := by
  refine (silent_checkAssignable name pos).bind fun _ => ?_
  apply Silent.get_bind (g := fun b => b.func.isFunction)
    (f := fun isFunction => if isFunction = true then _ else _) fun _ _ _ => rfl
  intro isFunction
  split
  · split
    · exact silent_bindLocal name
    · refine (silent_resolve name).bind fun binding => ?_
      cases binding with
      | «local» slot | global slot => exact silent_pure _
      | module index | undefined => exact silent_bindLocal name
  · refine (silent_declareGlobal name).bind fun _ => (silent_resolve name).bind fun binding => ?_
    cases binding with
    | global slot => exact silent_pure _
    | «local» slot | module index | undefined => exact silent_reject _ _

/-- An assignment takes the value off the stack into the variable that was looked up. -/
theorem store_eq (name : String) (declare : Bool) (pos : Position) :
    (store name declare pos : CompileM σ Unit) =
      (do let t ← bindTarget name declare pos; edit (·.emit t.store pos)) := by
  simp only [store, bindTarget, bind_assoc]
  congr 1
  funext _
  congr 1
  funext b
  split
  · split
    · rfl
    · simp only [bind_assoc]
      congr 1
      funext binding
      cases binding <;> rfl
  · simp only [bind_assoc]
    congr 1
    funext _
    congr 1
    funext binding
    cases binding <;> rfl


theorem inFunction_apply (name : String) (params : List Param) (body : CompileM σ α) (b : Build)
    (m : Machine σ) : inFunction name params body b m =
      (body (b.enterFunction name params) m).map fun p =>
        ((p.1, p.2.func), { p.2 with func := b.func }) := by
  simp only [inFunction, CompileM.bind_apply, CompileM.get_apply, CompileM.modify_apply,
    Outcome.andThen_ok]
  rfl

theorem silent_checkParams (params : List Param) :
    Silent (checkParams params : CompileM σ Unit) := by
  unfold checkParams
  split
  · exact silent_reject _ _
  · exact silent_pure _

/-- The function around is left as it was, so its code does not matter for the one inside. -/
theorem silent_inFunction (name : String) (params : List Param) (body : CompileM σ α) :
    Silent (inFunction name params body) where
  keeps {b m a b' m'} h := by
    rw [inFunction_apply] at h
    cases hb : body (b.enterFunction name params) m <;> rw [hb] at h <;> cases h
    rfl
  edited κ _ b m := by
    rw [inFunction_apply, inFunction_apply]
    show (body (b.enterFunction name params) m).map _ = _
    cases body (b.enterFunction name params) m <;> rfl

theorem silent_bindFunction (pos : Position) (name : String) (params : List Param)
    (body : CompileM σ (List Core.Stmt)) : Silent (bindFunction pos name params body) :=
  (silent_checkParams params).bind fun _ =>
    (silent_inFunction name params body).bind fun _ => silent_allocate _

/-- Compiling a function is looking up its names and placing the resolved function on the heap. -/
theorem function_eq (pos : Position) (name : String) (params : List Param)
    {body : CompileM σ Unit} {bound : CompileM σ (List Core.Stmt)} (hs : Silent bound)
    (hbody : body = (do let ts ← bound; edit (Core.Stmt.emitAll ts))) :
    function pos name params body = bindFunction pos name params bound := by
  unfold function bindFunction
  congr 1
  funext _ b m
  simp only [CompileM.bind_apply, inFunction_apply, hbody, emit_eq, edit_apply]
  cases hp : bound (b.enterFunction name params) m with
  | ok p m' =>
    have hcode : p.2.assembly = {} := Build.assembly_eq_of_fixed (hs.keeps hp)
    have hhead : { p.2.func.chunk with locals := 0 } =
        { (b.enterFunction name params).func.chunk with locals := 0 } :=
      congrArg (fun f => f.2.1) (hs.keeps hp)
    have hchunk : (((p.2.edit (Core.Stmt.emitAll p.1)).edit (·.emit .none pos)).edit
        (·.emit .ret pos)).func.chunk = Core.Func.chunk
          { name
            source := p.2.func.chunk.source
            sourceName := p.2.func.chunk.sourceName
            params := params.length
            locals := p.2.func.chunk.locals
            body := p.1 ++ [.ret pos (.none pos)] } := by
      have hname : p.2.func.chunk.name = name := congrArg Chunk.name hhead
      have hparams : p.2.func.chunk.params = params.length := congrArg Chunk.params hhead
      simp only [Build.edit, hcode, Core.Func.chunk, Core.Func.assembly,
        Core.Stmt.emitAll_append, hname, hparams]
      rfl
    simp only [Outcome.andThen_ok, Outcome.map_ok, hchunk]
    rfl
  | failed e m' | unwound m' | exhausted => rfl

/-! ## Loops -/

/-- An edit of the code around a loop, seen from inside. -/
def around (κ : Assembly → Assembly) (a : Assembly) : Assembly :=
  match a.loops with
  | [] => a
  | breaks :: _ => { κ a.leaveLoop with loops := breaks :: (κ a.leaveLoop).loops }

theorem length_loops_around {κ : Assembly → Assembly}
    (hκ : ∀ a, (κ a).loops.length = a.loops.length) (a : Assembly) :
    (around κ a).loops.length = a.loops.length := by
  unfold around
  split
  · rfl
  · rename_i breaks loops h
    simp [hκ, Assembly.leaveLoop, h]

theorem inLoop_apply (body : CompileM σ α) (b : Build) (m : Machine σ) :
    inLoop body b m =
      (body b.enterLoop m).map fun p => ((p.1, p.2.func.loops.headD []), p.2.leaveLoop) := by
  simp only [inLoop, CompileM.bind_apply, CompileM.get_apply, CompileM.modify_apply,
    Outcome.andThen_ok]
  rfl

/-- Looking up names in the body of a loop records no jumps. -/
theorem Silent.inLoop {body : CompileM σ α} (hbody : Silent body) : Silent (inLoop body) where
  keeps {b m a b' m'} h := by
    rw [inLoop_apply] at h
    cases hp : body b.enterLoop m with
    | ok p m₁ =>
      rw [hp] at h
      cases h
      have hout : p.2.leaveLoop.fixed = (p.2.fixed.1.leaveLoop, p.2.fixed.2) := rfl
      rw [hout, hbody.keeps hp]
      rfl
    | failed e m₁ | unwound m₁ | exhausted => rw [hp] at h; cases h
  edited κ hκ b m := by
    rw [inLoop_apply, inLoop_apply]
    have henter : (b.edit κ).enterLoop = b.enterLoop.edit (around κ) := rfl
    rw [henter, hbody.edited _ (length_loops_around hκ)]
    cases hp : body b.enterLoop m with
    | ok p m₁ =>
      have hcode : p.2.assembly = b.enterLoop.assembly :=
        Build.assembly_eq_of_fixed (hbody.keeps hp)
      have hloops : p.2.func.loops = [] :: b.func.loops := congrArg (·.loops) hcode
      have hleave : p.2.leaveLoop.assembly = b.assembly := congrArg (·.leaveLoop) hcode
      have haround : around κ p.2.assembly =
          { κ b.assembly with loops := [] :: (κ b.assembly).loops } := by
        rw [hcode]
        rfl
      simp only [Outcome.map_ok, Build.edit, haround, hleave, hloops]
      rfl
    | failed e m₁ | unwound m₁ | exhausted => rfl

theorem forM_patch (jumps : List Nat) :
    (jumps.forM patch : CompileM σ Unit) = edit (·.patchAll jumps) := by
  induction jumps with
  | nil => rfl
  | cons jump jumps ih =>
    show (do patch jump; jumps.forM patch) = _
    rw [ih]
    rfl

theorem loop_eq (cond : Expr) {body : CompileM σ Unit} {bound : CompileM σ (List Core.Stmt)}
    (hs : Silent bound) (hbody : body = (do let ts ← bound; edit (Core.Stmt.emitAll ts))) :
    loop cond body = (do
      let test ← bindExpr cond
      let (ts, _) ← inLoop bound
      edit (Core.Stmt.loop cond.pos test ts).emit) := by
  funext b m
  simp only [loop, CompileM.bind_apply, compileExpr_eq, inLoop_apply, hbody, emit_eq, patch_eq,
    here_apply, emitAt_apply, edit_apply, forM_patch, Outcome.andThen_ok]
  cases hc : bindExpr cond b m with
  | ok p m' =>
    let κ : Assembly → Assembly := fun a => (p.1.emit a).emit (.jumpIfFalse 0) cond.pos
    have hκ (a : Assembly) : (κ a).loops.length = a.loops.length := p.1.length_loops_emit a
    have henter : ((p.2.edit p.1.emit).edit (·.emit (.jumpIfFalse 0) cond.pos)).enterLoop =
        p.2.enterLoop.edit (around κ) := rfl
    simp only [Outcome.andThen_ok, henter, hs.edited _ (length_loops_around hκ)]
    cases hq : bound p.2.enterLoop m' with
    | ok q m'' =>
      have hstart : b.assembly = p.2.assembly :=
        (Build.assembly_eq_of_fixed ((silent_bindExpr cond).keeps hc)).symm
      have hcode : q.2.assembly = p.2.enterLoop.assembly :=
        Build.assembly_eq_of_fixed (hs.keeps hq)
      have hleave : q.2.leaveLoop.assembly = p.2.assembly := congrArg (·.leaveLoop) hcode
      have haround : around κ q.2.assembly = (κ p.2.assembly).enterLoop := by
        rw [hcode]
        rfl
      have hsize : b.func.chunk.code.size = p.2.assembly.code.size :=
        congrArg (·.code.size) hstart
      simp only [Outcome.map_ok, Outcome.andThen_ok, Build.edit, hleave, haround, hsize]
      rfl
    | failed e m'' | unwound m'' | exhausted => rfl
  | failed e m' | unwound m' | exhausted => rfl

/-! ## Statements -/

theorem arm_eq (cond : Expr) {body rest : CompileM σ Unit}
    {bodyBound restBound : CompileM σ (List Core.Stmt)} (hs : Silent bodyBound)
    (ht : Silent restBound) (hbody : body = (do let ts ← bodyBound; edit (Core.Stmt.emitAll ts)))
    (hrest : rest = (do let ts ← restBound; edit (Core.Stmt.emitAll ts))) :
    arm cond body rest = (do
      let test ← bindExpr cond
      let ts ← bodyBound
      let us ← restBound
      edit (Core.Stmt.branch cond.pos test ts us).emit) := by
  funext b m
  simp only [arm, CompileM.bind_apply, compileExpr_eq, hbody, hrest, patch_eq,
    emitAt_apply, edit_apply]
  cases bindExpr cond b m with
  | ok p m' =>
    simp only [Outcome.andThen_ok, Build.edit_edit]
    rw [hs.edited _ (by intro a; exact p.1.length_loops_emit a)]
    cases hq : bodyBound p.2 m' with
    | ok q m'' =>
      have hp : p.2.assembly = q.2.assembly := (Build.assembly_eq_of_fixed (hs.keeps hq)).symm
      simp only [Outcome.map_ok, Outcome.andThen_ok, Build.edit_edit]
      rw [ht.edited _ (by
        intro a
        exact (Core.Stmt.length_loops_emitAll q.1 _).trans (p.1.length_loops_emit a))]
      cases hr : restBound q.2 m'' with
      | ok r m₃ =>
        have hq' : q.2.assembly = r.2.assembly := (Build.assembly_eq_of_fixed (ht.keeps hr)).symm
        simp only [Outcome.map_ok, Outcome.andThen_ok, Build.edit, hp, hq']
        rfl
      | failed e m₃ | unwound m₃ | exhausted => rfl
    | failed e m'' | unwound m'' | exhausted => rfl
  | failed e m' | unwound m' | exhausted => rfl

theorem silent_requireFunction (pos : Position) :
    Silent (requireFunction pos : CompileM σ Unit) := by
  apply Silent.get_bind (g := fun b => b.func.isFunction)
    (f := fun isFunction => if isFunction = true then _ else _) fun _ _ _ => rfl
  intro isFunction
  split
  · exact silent_pure _
  · exact silent_reject _ _

theorem silent_requireLoop (pos : Position) : Silent (requireLoop pos : CompileM σ Unit) where
  keeps {b m a b' m'} h := by
    simp only [requireLoop, CompileM.bind_apply, CompileM.get_apply, Outcome.andThen_ok] at h
    cases hb : b.func.loops with
    | nil => rw [hb] at h; cases h
    | cons breaks loops => rw [hb] at h; cases h; rfl
  edited κ hκ b m := by
    have hlen : (b.edit κ).func.loops.length = b.func.loops.length := hκ b.assembly
    simp only [requireLoop, CompileM.bind_apply, CompileM.get_apply, Outcome.andThen_ok]
    cases hb : b.func.loops with
    | nil =>
      rw [hb, List.length_nil, List.length_eq_zero_iff] at hlen
      rw [hlen]
      rfl
    | cons breaks loops =>
      rw [hb] at hlen
      obtain ⟨breaks', loops', h⟩ := List.exists_cons_of_length_eq_add_one hlen
      rw [h]
      rfl

mutual

theorem silent_bindStmt (call : Callback σ) : (s : Stmt) → Silent (bindStmt call s)
  | .expr e => (silent_bindExpr e).bind fun _ => silent_pure _
  | .assign pos name value declare => (silent_bindExpr value).bind fun _ =>
    (silent_bindTarget name declare pos).bind fun _ => silent_pure _
  | .setIndex pos object place value => (silent_bindExpr object).bind fun _ =>
    (silent_bindExpr place).bind fun _ => (silent_bindExpr value).bind fun _ => silent_pure _
  | .importModule pos name => (silent_importModule call name pos).bind fun _ => silent_pure _
  | .func pos name params body => (silent_bindFunction pos name params _).bind fun _ =>
    (silent_bindTarget name false pos).bind fun _ => silent_pure _
  | .ret pos value => by
    refine (silent_requireFunction pos).bind fun _ => ?_
    cases value with
    | some e => exact (silent_bindExpr e).bind fun _ => silent_pure _
    | none => exact silent_pure _
  | .branch cond body tail => (silent_bindExpr cond).bind fun _ =>
    (silent_bindBlock call body).bind fun _ => (silent_bindElse call tail).bind
      fun _ => silent_pure _
  | .loop cond body => (silent_bindExpr cond).bind fun _ =>
    (silent_bindBlock call body).inLoop.bind fun _ => silent_pure _
  | .leave pos => (silent_requireLoop pos).bind fun _ => silent_pure _
  | .pass => silent_pure _

theorem silent_bindBlock (call : Callback σ) : (ss : List Stmt) → Silent (bindBlock call ss)
  | [] => silent_pure _
  | s :: ss => (silent_bindStmt call s).bind fun _ => (silent_bindBlock call ss).bind fun _ =>
    silent_pure _

theorem silent_bindElse (call : Callback σ) : (tail : Else) → Silent (bindElse call tail)
  | .nothing => silent_pure _
  | .elseIf cond body tail => (silent_bindExpr cond).bind fun _ =>
    (silent_bindBlock call body).bind fun _ => (silent_bindElse call tail).bind
      fun _ => silent_pure _
  | .block body => silent_bindBlock call body

end

mutual

/-- Compiling a statement is looking up its names and writing down its code. -/
theorem compileStmt_eq (call : Callback σ) : (s : Stmt) →
    compileStmt call s = (do let t ← bindStmt call s; edit t.emit)
  | .expr e => by
    simp only [compileStmt, bindStmt, compileExpr_eq, emit_eq, bind_assoc, pure_bind]
    rfl
  | .assign pos name value declare => by
    simp only [compileStmt, bindStmt, compileExpr_eq, store_eq, bind_assoc, pure_bind,
      (silent_bindTarget name declare pos).comm (Core.Expr.length_loops_emit _)]
    rfl
  | .setIndex pos object place value => by
    simp only [compileStmt, bindStmt, compileExpr_eq, emit_eq, bind_assoc, pure_bind,
      (silent_bindExpr place).comm (Core.Expr.length_loops_emit _),
      (silent_bindExpr value).comm (Core.Expr.length_loops_emit _)]
    rfl
  | .importModule pos name => by
    simp only [compileStmt, bindStmt, bind_assoc, pure_bind]
    exact (bind_pure (importModule call name pos)).symm
  | .func pos name params body => by
    simp only [compileStmt, bindStmt, bind_assoc, pure_bind, emitConstant_eq, store_eq,
      function_eq pos name params (silent_bindBlock call body) (compileBlock_eq call body)]
    congr 1
    funext v
    rw [(silent_bindTarget name false pos).comm fun a => by rw [Assembly.loops_constant]]
    rfl
  | .ret pos value => by
    simp only [compileStmt, bindStmt, bind_assoc, emit_eq]
    congr 1
    funext _
    cases value with
    | some e =>
      simp only [compileExpr_eq, bind_assoc, pure_bind]
      rfl
    | none => rfl
  | .branch cond body tail => by
    simp only [compileStmt, bindStmt, bind_assoc, pure_bind]
    exact arm_eq cond (silent_bindBlock call body) (silent_bindElse call tail)
      (compileBlock_eq call body) (compileElse_eq call tail)
  | .loop cond body => by
    simp only [compileStmt, bindStmt, bind_assoc, pure_bind]
    exact loop_eq cond (silent_bindBlock call body) (compileBlock_eq call body)
  | .leave pos => by
    funext b m
    simp only [compileStmt, bindStmt, requireLoop, CompileM.bind_apply, CompileM.get_apply,
      Outcome.andThen_ok]
    cases h : b.func.loops with
    | nil => rfl
    | cons breaks loops =>
      have hloops : b.assembly.loops = breaks :: loops := h
      simp only [CompileM.bind_apply, emitAt_apply, Outcome.andThen_ok, CompileM.pure_apply,
        CompileM.modify_apply, edit_apply, Build.edit, Core.Stmt.emit, Assembly.leave, hloops]
      rfl
  | .pass => rfl

theorem compileBlock_eq (call : Callback σ) : (ss : List Stmt) →
    compileBlock call ss = (do let ts ← bindBlock call ss; edit (Core.Stmt.emitAll ts))
  | [] => rfl
  | s :: ss => by
    simp only [compileBlock, bindBlock, compileStmt_eq call s, compileBlock_eq call ss, bind_assoc,
      pure_bind, (silent_bindBlock call ss).comm (Core.Stmt.length_loops_emit _)]
    rfl

theorem compileElse_eq (call : Callback σ) : (tail : Else) →
    compileElse call tail = (do let ts ← bindElse call tail; edit (Core.Stmt.emitAll ts))
  | .nothing => rfl
  | .elseIf cond body tail => by
    simp only [compileElse, bindElse, bind_assoc, pure_bind]
    exact arm_eq cond (silent_bindBlock call body) (silent_bindElse call tail)
      (compileBlock_eq call body) (compileElse_eq call tail)
  | .block body => compileBlock_eq call body

end

/-! ## Programs -/

mutual

theorem silent_hoistStmt (call : Callback σ) : (s : Stmt) → Silent (hoistStmt call s)
  | .assign pos name _ _ =>
    (silent_checkAssignable name pos).bind fun _ => silent_declareGlobal name
  | .func pos name _ _ => (silent_checkAssignable name pos).bind fun _ => silent_declareGlobal name
  | .importModule pos name => silent_importModule call name pos
  | .branch _ body tail => (silent_hoist call body).bind fun _ => silent_hoistElse call tail
  | .loop _ body => silent_hoist call body
  | .expr _ | .setIndex _ _ _ _ | .ret _ _ | .leave _ | .pass => silent_pure _

theorem silent_hoist (call : Callback σ) : (ss : List Stmt) → Silent (hoist call ss)
  | [] => silent_pure _
  | s :: ss => (silent_hoistStmt call s).bind fun _ => silent_hoist call ss

theorem silent_hoistElse (call : Callback σ) : (tail : Else) → Silent (hoistElse call tail)
  | .nothing => silent_pure _
  | .elseIf _ body tail => (silent_hoist call body).bind fun _ => silent_hoistElse call tail
  | .block body => silent_hoist call body

end

variable (call : Callback σ) (ss : List Stmt)

theorem silent_bindTop : Silent (bindTop call ss) := by
  fun_induction bindTop call ss with
  | case1 => exact silent_pure _
  | case2 e => exact (silent_bindExpr e).bind fun _ => silent_pure _
  | case3 s ss _ ih => exact (silent_bindStmt call s).bind fun _ => ih.bind fun _ => silent_pure _

theorem compileTop_eq : compileTop call ss =
    (do let ts ← bindTop call ss; edit (Core.Stmt.emitAll ts)) := by
  fun_induction bindTop call ss with
  | case1 => rfl
  | case2 e =>
    simp only [compileTop, compileExpr_eq, emit_eq, bind_assoc, pure_bind]
    rfl
  | case3 s ss hs ih =>
    rw [compileTop, ih, compileStmt_eq]
    · simp only [bind_assoc, pure_bind,
        (silent_bindTop call ss).comm (Core.Stmt.length_loops_emit _)]
      rfl
    · exact hs

/-- Looks up the names of a whole program. -/
def bindBody : CompileM σ (List Core.Stmt) := do
  hoist call ss
  bindTop call ss

end Compile

/-- The beginning of a program, on a machine with so many variables. -/
def Build.start (source name : String) (globalBase : Nat) : Build where
  func := { chunk := { name := "main", source, sourceName := name }, isFunction := false }
  globalBase

open Compile

variable (call : Callback σ) (source name : String) (program : Program)

theorem bindProgram_apply (m : Machine σ) : bindProgram call source name program m =
    (bindBody call program (.start source name m.globals.size) m).andThen fun p n =>
      .ok ⟨"main", source, name, 0, p.2.func.chunk.locals, p.1⟩ (commit p.2 n) :=
  Run.bind_apply _ _ _

/-- The code of a program is the chunk of the resolved program. -/
theorem compileProgram_eq :
    compileProgram call source name program =
      (do let d ← bindProgram call source name program; return d.chunk) := by
  funext m
  have hs : Silent (bindBody call program) :=
    (silent_hoist call program).bind fun _ => silent_bindTop call program
  have hcode : (do hoist call program; compileTop call program : CompileM σ Unit) =
      (do let ts ← bindBody call program; edit (Core.Stmt.emitAll ts)) := by
    rw [compileTop_eq, bindBody, bind_assoc]
  show ((do hoist call program; compileTop call program : CompileM σ Unit)
      (.start source name m.globals.size) m).andThen
        (fun p m' => .ok p.2.func.chunk (commit p.2 m')) =
    ((bindBody call program (.start source name m.globals.size) m).andThen fun p m' =>
      .ok _ (commit p.2 m')).map Core.Func.chunk
  rw [hcode, CompileM.bind_apply]
  cases hp : bindBody call program (.start source name m.globals.size) m with
  | ok p m' =>
    have hfix := hs.keeps hp
    have hempty : p.2.assembly = {} := Build.assembly_eq_of_fixed hfix
    have hhead : { p.2.func.chunk with locals := 0 } =
        (Build.start source name m.globals.size).func.chunk :=
      congrArg (fun f => f.2.1) hfix
    have hname : p.2.func.chunk.name = "main" := congrArg Chunk.name hhead
    have hsource : p.2.func.chunk.source = source := congrArg Chunk.source hhead
    have hsourceName : p.2.func.chunk.sourceName = name := congrArg Chunk.sourceName hhead
    have hparams : p.2.func.chunk.params = 0 := congrArg Chunk.params hhead
    simp only [Outcome.andThen_ok, Outcome.map_ok, edit_apply, Build.edit, hempty, hname, hsource,
      hsourceName, hparams]
    rfl
  | failed e m' | unwound m' | exhausted => rfl

/-- A source text is rejected by the scanner or the parser, or it is a program. -/
theorem compileSource_cases {σ : Type} (source name : String) :
    (∃ e, ∀ call : Callback σ, compileSource call source name = Run.fail e) ∨
      ∃ tokens program, tokenize source = .ok tokens ∧ parse tokens = .ok program ∧
        ∀ call : Callback σ, compileSource call source name =
          (do let d ← bindProgram call source name program; return d.chunk) := by
  cases htokens : tokenize source with
  | error e => exact .inl ⟨e, fun call => by simp only [compileSource, htokens]⟩
  | ok tokens =>
    cases hprogram : parse tokens with
    | error e => exact .inl ⟨e, fun call => by simp only [compileSource, htokens, hprogram]⟩
    | ok program =>
      exact .inr ⟨tokens, program, rfl, hprogram, fun call => by
        simp only [compileSource, htokens, hprogram, compileProgram_eq]⟩

end ScriptMachine
