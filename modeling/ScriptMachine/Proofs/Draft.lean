import Mathlib.Logic.Relation
import ScriptMachine.Proofs.Link
import ScriptMachine.Proofs.Sparing
import ScriptMachine.Proofs.Spelling
/-!
# The course of a compilation

A compilation goes from one partial program to the next, and from one machine to the next, while
loaders of modules run in between. What names stand for may be different at every such moment.

* `Draft`: a moment of a compilation;
* `Draft.Next`, `Draft.Later`: one step, and the way from one moment to a later one;
* `Draft.Ends`: how a part of a compilation may end.
-/

namespace ScriptMachine

/-- A moment of a compilation: a partial program, and the machine. -/
structure Draft (σ : Type) where
  build : Build
  machine : Machine σ

namespace Draft

variable {σ α β : Type}

/-- What a name stands for at this moment. -/
def resolve (d : Draft σ) (name : String) : Binding := d.build.resolve d.machine name

/-- A module is made known under its name. -/
def link (d : Draft σ) (name : String) (index : Nat) : Draft σ :=
  { d with build := { d.build with newImports := d.build.newImports ++ [(name, index)] } }

/-- One step of a compilation, in which loaders run by `call`. -/
inductive Next (call : Callback σ) (d : Draft σ) : Draft σ → Prop
  | string (s : String) : Next call d { d with machine := (d.machine.alloc (.string s)).2 }
  | function (f : ScriptFunction) :
    Next call d { d with machine := (d.machine.alloc (.function f)).2 }
  /-- The top level adds a variable, unless there is one of that name. -/
  | declare (name : String) (top : d.build.func.isFunction = false)
    (free : ∀ index, d.resolve name ≠ .module index) :
    Next call d { d with build := d.build.declareGlobal d.machine name }
  /-- The compilation goes on in another function or loop, or with another local variable. -/
  | within (func : FuncBuild) : Next call d { d with build := { d.build with func } }
  /-- An import of a module that was loaded before. -/
  | ready {name : String} {index : Nat} (new : ∀ i, d.resolve name ≠ .module i)
    (free : d.build.isGlobal d.machine name = false)
    (found : d.machine.modules.lookup name = .ready index) :
    Next call d (d.link name index)
  /-- An import of a module whose loader runs now. -/
  | load {name : String} {index : Nat} {handle : ModuleHandle} {loader : Loader σ} {v : Value}
    {n : Machine σ} (new : ∀ i, d.resolve name ≠ .module i)
    (free : d.build.isGlobal d.machine name = false)
    (found : d.machine.modules.lookup name = .load index handle loader)
    (loads : call (loader handle) (d.machine.beginLoad index) = .ok v n) :
    Next call d ({ d with machine := n.finishLoad index }.link name index)

/-- The way from one moment to a later one. -/
def Later (call : Callback σ) : Draft σ → Draft σ → Prop := Relation.ReflTransGen (Next call)

variable {call : Callback σ} {d k : Draft σ} {pos : Position}

theorem Later.refl (d : Draft σ) : d.Later call d := Relation.ReflTransGen.refl

theorem Later.trans {j : Draft σ} (h : d.Later call j) (h' : j.Later call k) : d.Later call k :=
  Relation.ReflTransGen.trans h h'

theorem Next.later (h : d.Next call k) : d.Later call k := Relation.ReflTransGen.single h

/-! ## What is watched -/

/-- What is watched in the course of a compilation: the places of errors, and something that every
step keeps, as long as the functions that are made leave the first variables alone. These are built
in. -/
structure Watch (call : Callback σ) where
  place : Position → Prop
  holds : Draft σ → Prop
  /-- The number of variables that are left alone. -/
  low : Nat
  string : ∀ {d : Draft σ} (s : String), holds d →
    holds { d with machine := (d.machine.alloc (.string s)).2 }
  function : ∀ {d : Draft σ} {f : ScriptFunction}, f.chunk.Spares low → holds d →
    holds { d with machine := (d.machine.alloc (.function f)).2 }
  declare : ∀ {d : Draft σ} {name : String}, d.build.func.isFunction = false →
    (∀ index, d.resolve name ≠ .module index) → holds d →
    holds { d with build := d.build.declareGlobal d.machine name }
  within : ∀ {d : Draft σ} (func : FuncBuild), holds d →
    holds { d with build := { d.build with func } }
  ready : ∀ {d : Draft σ} {name : String} (index : Nat), d.build.isGlobal d.machine name = false →
    holds d → holds (d.link name index)
  load : ∀ {d : Draft σ} {name : String} {index : Nat} {handle : ModuleHandle} {loader : Loader σ}
    {v : Value} {n : Machine σ}, d.build.isGlobal d.machine name = false →
    d.machine.modules.lookup name = .load index handle loader →
    call (loader handle) (d.machine.beginLoad index) = .ok v n → holds d →
    holds ({ d with machine := n.finishLoad index }.link name index)
  base : ∀ {d : Draft σ}, holds d → low ≤ d.build.globalBase
  builtin : ∀ {d : Draft σ}, holds d → ∀ slot < low, d.machine.globals.isBuiltin slot = true

/-- Nothing but the places of errors. -/
def Watch.places (call : Callback σ) (Q : Position → Prop) : Watch call where
  place := Q
  holds _ := True
  low := 0
  string _ := id
  function _ := id
  declare _ _ := id
  within _ := id
  ready _ _ := id
  load _ _ _ := id
  base _ := Nat.zero_le _
  builtin _ _ := nofun

/-- The way from one moment to a later one, with what is watched. -/
structure Leads (W : Watch call) (d k : Draft σ) : Prop where
  later : d.Later call k
  holds : W.holds d → W.holds k

variable {W : Watch call}

theorem Leads.refl (d : Draft σ) : d.Leads W d := ⟨.refl d, id⟩

theorem Leads.trans {j : Draft σ} (h : d.Leads W j) (h' : j.Leads W k) : d.Leads W k :=
  ⟨h.later.trans h'.later, h'.holds ∘ h.holds⟩

theorem leads_within (d : Draft σ) (func : FuncBuild) :
    d.Leads W { d with build := { d.build with func } } :=
  ⟨(Next.within func).later, W.within func⟩

/-- How a part of a compilation may end. If it is unwound, this was done by a loader. -/
inductive Ends (W : Watch call) (d : Draft σ) (post : α → Draft σ → Prop) :
    Outcome σ SyntaxError (α × Build) → Prop
  | ok {a : α} {b : Build} {m : Machine σ} (leads : d.Leads W ⟨b, m⟩) (h : post a ⟨b, m⟩) :
    Ends W d post (.ok (a, b) m)
  | failed {e : SyntaxError} {b : Build} {m : Machine σ} (leads : d.Leads W ⟨b, m⟩)
    (place : W.place e.pos) (stage : e.stage = .compile) : Ends W d post (.failed e m)
  | unwound {k : Draft σ} {name : String} {index : Nat} {handle : ModuleHandle} {loader : Loader σ}
    {m : Machine σ} (leads : d.Leads W k)
    (found : k.machine.modules.lookup name = .load index handle loader)
    (gives : call (loader handle) (k.machine.beginLoad index) = .unwound m) :
    Ends W d post (.unwound m)
  | exhausted : Ends W d post .exhausted

namespace Ends

variable {post : α → Draft σ → Prop} {post' : β → Draft σ → Prop}

theorem of_leads {o : Outcome σ SyntaxError (α × Build)} (h : d.Leads W k) (ho : k.Ends W post o) :
    d.Ends W post o := by
  cases ho with
  | ok leads hpost => exact .ok (h.trans leads) hpost
  | failed leads place stage => exact .failed (h.trans leads) place stage
  | unwound leads found gives => exact .unwound (h.trans leads) found gives
  | exhausted => exact .exhausted

theorem mono {post' : α → Draft σ → Prop} {o : Outcome σ SyntaxError (α × Build)}
    (h : d.Ends W post o) (hpost : ∀ a k, post a k → post' a k) : d.Ends W post' o := by
  cases h with
  | ok leads h => exact .ok leads (hpost _ _ h)
  | failed leads place stage => exact .failed leads place stage
  | unwound leads found gives => exact .unwound leads found gives
  | exhausted => exact .exhausted

/-- One part after the other. -/
theorem bind {x : CompileM σ α} {f : α → CompileM σ β} (hx : d.Ends W post (x d.build d.machine))
    (hf : ∀ a k, d.Leads W k → post a k → k.Ends W post' (f a k.build k.machine)) :
    d.Ends W post' ((x >>= f) d.build d.machine) := by
  rw [CompileM.bind_apply]
  generalize x d.build d.machine = o at hx
  cases hx with
  | ok leads hpost => exact .of_leads leads (hf _ _ leads hpost)
  | failed leads place stage => exact .failed leads place stage
  | unwound leads found gives => exact .unwound leads found gives
  | exhausted => exact .exhausted

theorem pure {a : α} (h : post a d) :
    d.Ends W post ((Pure.pure a : CompileM σ α) d.build d.machine) :=
  .ok (.refl d) h

theorem reject (fault : SyntaxFault) (h : W.place pos) (hstage : fault.stage = .compile := by rfl) :
    d.Ends W post ((Compile.reject fault pos : CompileM σ α) d.build d.machine) :=
  .failed (.refl d) h hstage

end Ends

/-! ## Names -/

theorem ends_resolve (d : Draft σ) (name : String) :
    d.Ends W (fun binding k => binding = d.resolve name ∧ k = d)
      (Compile.resolve name d.build d.machine) :=
  .ok (.refl d) ⟨rfl, rfl⟩

theorem ends_isGlobal (d : Draft σ) (name : String) :
    d.Ends W (fun known k => known = d.build.isGlobal d.machine name ∧ k = d)
      (Compile.isGlobal name d.build d.machine) :=
  .ok (.refl d) ⟨rfl, rfl⟩

/-- What can be assigned to is neither a module nor built in. -/
theorem ends_checkAssignable (d : Draft σ) (name : String) (hpos : W.place pos) :
    d.Ends W (fun _ k => k = d ∧ (∀ index, d.resolve name ≠ .module index) ∧
        ∀ slot, d.resolve name = .global slot → d.machine.globals.isBuiltin slot = false)
      (Compile.checkAssignable name pos d.build d.machine) := by
  refine (d.ends_resolve name).bind ?_
  rintro binding _ - ⟨hbinding, rfl⟩
  rw [← hbinding]
  cases binding with
  | module index => exact .reject _ hpos
  | «local» slot | undefined => exact .pure ⟨rfl, nofun, nofun⟩
  | global slot =>
    rename_i d
    refine Ends.bind (show d.Ends W (fun x k => x = d.machine.globals.isBuiltin slot ∧ k = d) _ from
      .ok (.refl d) ⟨rfl, rfl⟩) ?_
    rintro builtin _ - ⟨hbuiltin, rfl⟩
    cases builtin with
    | true => exact .reject _ hpos
    | false => exact .pure ⟨rfl, nofun, fun slot' heq => Binding.global.inj heq ▸ hbuiltin.symm⟩

theorem func_declareGlobal (b : Build) (m : Machine σ) (name : String) :
    (b.declareGlobal m name).func = b.func := by
  unfold Build.declareGlobal
  split <;> rfl

theorem ends_declareGlobal {name : String} (top : d.build.func.isFunction = false)
    (free : ∀ index, d.resolve name ≠ .module index) :
    d.Ends W (fun _ k => k = { d with build := d.build.declareGlobal d.machine name })
      (Compile.declareGlobal name d.build d.machine) :=
  .ok ⟨(Next.declare name top free).later, W.declare top free⟩ rfl

/-! ## Modules -/

/-- An import: either the module is known already, or it gets known now. -/
theorem ends_importModule (d : Draft σ) (name : String) (hpos : W.place pos) :
    d.Ends W (fun _ k => k.build.func = d.build.func)
      (Compile.importModule call name pos d.build d.machine) := by
  -- Whatever else the name may stand for, the module is looked up next.
  have hnew (new : ∀ i, d.resolve name ≠ .module i) :
      d.Ends W (fun _ k => k.build.func = d.build.func)
          (Compile.newImport call name pos d.build d.machine) := by
    refine (d.ends_isGlobal name).bind ?_
    rintro known _ - ⟨hknown, rfl⟩
    cases known with
    | true => exact .reject _ hpos
    | false =>
      rename_i k
      show k.Ends W _ ((Compile.loadModule call name pos >>= Compile.addImport name)
        k.build k.machine)
      rw [CompileM.bind_apply, Link.loadModule_apply]
      cases hfound : k.machine.modules.lookup name with
      | unknown | cyclic => exact .failed (.refl k) hpos rfl
      | ready index =>
        exact .ok ⟨(Next.ready new hknown.symm hfound).later, W.ready index hknown.symm⟩ rfl
      | load index handle loader =>
        dsimp only
        cases hload : call (loader handle) (k.machine.beginLoad index) with
        | failed e n => exact e.elim
        | exhausted => exact .exhausted
        | unwound n => exact .unwound (.refl k) hfound hload
        | ok v n =>
          exact .ok ⟨(Next.load new hknown.symm hfound hload).later,
            W.load hknown.symm hfound hload⟩ rfl
  refine (d.ends_resolve name).bind ?_
  rintro binding _ - ⟨hbinding, rfl⟩
  cases binding with
  | module index => exact .pure rfl
  | «local» slot | global slot | undefined => exact hnew (by rw [← hbinding]; exact nofun)

/-- A member is a function of what the name of a module stands for at the moment. -/
theorem ends_member (d : Draft σ) (hpos : W.place pos) {object : Expr} (hobject : object.At W.place)
    (id : String) : d.Ends W (fun v k => k = d ∧ ∃ objectPos name index,
        object = .name objectPos name ∧
        d.resolve name = .module index ∧ d.machine.modules.function? index id = some v)
      (Compile.member pos object id d.build d.machine) := by
  unfold Compile.member
  split
  · rename_i objectPos name
    refine (d.ends_resolve name).bind ?_
    rintro binding k - ⟨hbinding, rfl⟩
    cases binding with
    | module index =>
      refine Ends.bind (show Ends W _ (fun v k' => v = k.machine.modules.function? index id ∧
        k' = k) _ from .ok (.refl _) ⟨rfl, rfl⟩) ?_
      rintro v _ - ⟨hv, rfl⟩
      cases v with
      | none => exact .reject _ hpos
      | some v => exact .pure ⟨rfl, objectPos, name, index, rfl, hbinding.symm, hv.symm⟩
    | undefined => exact .reject _ hobject
    | «local» slot | global slot => exact .reject _ hpos
  · exact .reject _ hpos

/-! ## The names of the top level -/

mutual

theorem ends_hoistStmt : (t : Stmt) → t.At W.place → (d : Draft σ) →
    d.build.func.isFunction = false →
    d.Ends W (fun _ k => k.build.func.isFunction = false)
      (Compile.hoistStmt call t d.build d.machine)
  | .assign pos name _ _, hQ, d, top | .func pos name _ _, hQ, d, top => by
    unfold Compile.hoistStmt
    refine (d.ends_checkAssignable name hQ.1).bind ?_
    rintro _ _ - ⟨rfl, free, -⟩
    refine (ends_declareGlobal top free).mono ?_
    rintro _ _ rfl
    exact (congrArg (·.isFunction) (func_declareGlobal _ _ name)).trans top
  | .importModule pos name, hQ, d, top => by
    unfold Compile.hoistStmt
    exact (d.ends_importModule name hQ).mono fun _ k hk => by rw [hk, top]
  | .branch _ body tail, hQ, d, top => by
    unfold Compile.hoistStmt
    exact (ends_hoist body hQ.2.1 d top).bind fun _ k _ hk => ends_hoistElse tail hQ.2.2 k hk
  | .loop _ body, hQ, d, top => ends_hoist body hQ.2 d top
  | .expr _, _, _, top | .setIndex _ _ _ _, _, _, top | .ret _ _, _, _, top | .leave _, _, _, top
  | .pass, _, _, top =>
    .pure top

theorem ends_hoist : (ts : List Stmt) → Stmt.AllAt W.place ts → (d : Draft σ) →
    d.build.func.isFunction = false →
    d.Ends W (fun _ k => k.build.func.isFunction = false) (Compile.hoist call ts d.build d.machine)
  | [], _, _, top => .pure top
  | t :: ts, hQ, d, top =>
    (ends_hoistStmt t hQ.1 d top).bind fun _ k _ hk => ends_hoist ts hQ.2 k hk

theorem ends_hoistElse : (tail : Else) → tail.At W.place → (d : Draft σ) →
    d.build.func.isFunction = false →
    d.Ends W (fun _ k => k.build.func.isFunction = false)
      (Compile.hoistElse call tail d.build d.machine)
  | .nothing, _, _, top => .pure top
  | .elseIf _ body tail, hQ, d, top =>
    (ends_hoist body hQ.2.1 d top).bind fun _ k _ hk => ends_hoistElse tail hQ.2.2 k hk
  | .block body, hQ, d, top => ends_hoist body hQ d top

end

end Draft

end ScriptMachine
