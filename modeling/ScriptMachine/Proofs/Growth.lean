import ScriptMachine.Proofs.Link
import ScriptMachine.Proofs.Sources
import ScriptMachine.Proofs.Upkeep
/-!
# What no run undoes

Whatever hosts and scripts do, the options stay, variables keep their slots and names, slots of the
heap are never given up, and functions get on the heap only with the code of a declaration.

* `Machine.Grows`: a machine that may come out of another one;
* `Host.grows_run`: **every run of a host program**, with all that it evaluates, compiles and loads;
* `Machine.Reachable`: the machines that hosts come to see.
-/

namespace ScriptMachine

variable {σ α : Type}

/-! ## Heaps -/

namespace Heap

variable {ν : Type} {h h' h'' : Heap ν}

/-- A heap that may come out of another one. -/
structure Grows (h h' : Heap ν) : Prop where
  size : h.slots.size ≤ h'.slots.size
  sourced : h.Sourced → h'.Sourced

theorem Grows.refl (h : Heap ν) : h.Grows h := ⟨Nat.le_refl _, id⟩

theorem Grows.trans (hg : h.Grows h') (hg' : h'.Grows h'') : h.Grows h'' :=
  ⟨Nat.le_trans hg.size hg'.size, fun hs => hg'.sourced (hg.sourced hs)⟩

variable (h : Heap ν)

theorem grows_alloc {o : Object ν} (ho : ∀ f, o = .function f → f.Declared) :
    h.Grows (h.alloc o).2 :=
  ⟨h.size_le_alloc o, fun hs => hs.alloc ho⟩

theorem grows_setItem (id : ObjectId) (i : Nat) (v : Value) :
    h.Grows (h.modify id fun o => o.setItem i v) :=
  ⟨Nat.le_of_eq (size_modify h id _).symm, fun hs => hs.modify_setItem id i v⟩

theorem grows_pin (id : ObjectId) : h.Grows (h.pin id).2 :=
  ⟨Nat.le_of_eq (size_pin h id).symm, fun hs => hs.pin id⟩

theorem grows_unpin (id : ObjectId) : h.Grows (h.unpin id).2 :=
  ⟨Nat.le_of_eq (size_unpin h id).symm, fun hs => hs.unpin id⟩

theorem grows_collect (roots : List Value) : h.Grows (h.collect roots).2 :=
  ⟨Nat.le_of_eq (size_collect h roots).symm, fun hs => hs.collect roots⟩

end Heap

/-! ## Machines -/

/-- A machine that may come out of another one. -/
structure Machine.Grows (m m' : Machine σ) : Prop where
  options : m'.options = m.options
  names : m.globals.names <+: m'.globals.names
  heap : m.heap.Grows m'.heap

namespace Machine

variable {m m' m'' : Machine σ}

theorem Grows.refl (m : Machine σ) : m.Grows m := ⟨rfl, List.prefix_rfl, .refl _⟩

theorem Grows.trans (h : m.Grows m') (h' : m'.Grows m'') : m.Grows m'' :=
  ⟨h'.options.trans h.options, h.names.trans h'.names, h.heap.trans h'.heap⟩

theorem Grows.of_heap (ho : m'.options = m.options) (hg : m'.globals = m.globals)
    (hh : m.heap.Grows m'.heap) : m.Grows m' :=
  ⟨ho, hg ▸ List.prefix_rfl, hh⟩

/-- Changes that leave options, variables and heap alone. -/
theorem Grows.of_eq (ho : m'.options = m.options) (hg : m'.globals = m.globals)
    (hh : m'.heap = m.heap) : m.Grows m' :=
  .of_heap ho hg (hh ▸ .refl _)

theorem Grows.size_globals (h : m.Grows m') : m.globals.size ≤ m'.globals.size := by
  have hle := h.names.length_le
  rwa [Globals.length_names, Globals.length_names] at hle

theorem Grows.outcomeAll {ε : Type} {o : Outcome σ ε α} (h : m.Grows m') (ho : o.All m'.Grows) :
    o.All m.Grows :=
  ho.mono fun _ => h.trans

theorem grows_alloc (m : Machine σ) {o : Object (Native σ)}
    (ho : ∀ f, o = .function f → f.Declared) : m.Grows (m.alloc o).2 :=
  .of_heap rfl rfl (m.heap.grows_alloc ho)

theorem grows_commit (m : Machine σ) (b : Build) : m.Grows (Compile.commit b m) :=
  ⟨rfl, Globals.names_foldl_declare b.newGlobals m.globals, .refl _⟩

theorem grows_collect (m : Machine σ) : m.Grows m.collect.2 :=
  .of_heap rfl rfl (m.heap.grows_collect _)

/-- Instructions stay within what a machine has grown out of. -/
theorem upkeep_grows (m₀ : Machine σ) : Upkeep m₀.Grows where
  message _ h := h.trans (.of_eq rfl rfl rfl)
  stack _ h := h.trans (.of_eq rfl rfl rfl)
  push _ _ h := h.trans (.of_eq rfl rfl rfl)
  jump _ h := h.trans (.of_eq rfl rfl rfl)
  enter _ _ _ h := h.trans (.of_eq rfl rfl rfl)
  leave h := h.trans (.of_eq rfl rfl rfl)
  setGlobal _ _ _ hset h := h.trans ⟨rfl, Globals.names_set? hset ▸ List.prefix_rfl, .refl _⟩
  setItem _ _ _ h := h.trans (.of_heap rfl rfl (Heap.grows_setItem _ _ _ _))
  string _ h := h.trans (grows_alloc _ fun _ hf => nomatch hf)
  list _ h := h.trans (grows_alloc _ fun _ hf => nomatch hf)
  safePoint h := safePoint_of_collect h (h.trans (grows_collect _))

theorem service_grows (m₀ : Machine σ) : Service m₀.Grows where
  aside h hstanding hheap := h.trans
    (.of_eq (congrArg (·.options) hstanding) (congrArg (·.globals) hstanding) hheap)
  string _ h := h.trans (grows_alloc _ fun _ hf => nomatch hf)
  list _ h := h.trans (grows_alloc _ fun _ hf => nomatch hf)
  pin {m} id h := h.trans (.of_heap rfl rfl (m.heap.grows_pin id))
  unpin {m} id h := h.trans (.of_heap rfl rfl (m.heap.grows_unpin id))
  collect _ h := h.trans (grows_collect _)

variable (m : Machine σ)

theorem grows_collectGarbage : m.Grows m.collectGarbage.2 :=
  m.service_grows.collectGarbage (.refl m)

theorem grows_step (entry : Nat) : m.Grows (m.step entry).machine :=
  m.upkeep_grows.step (.refl m) entry

theorem grows_resume (name : String) (callee : Nat) (v : Value) :
    m.Grows (Step.ofChecked (m.resume name callee v)).machine :=
  m.upkeep_grows.resume (.refl m) name callee v

end Machine

/-! ## Compilations -/

open Machine

variable {call : Callback σ}

/-- Every callback leaves a machine that may come out of the one it finds. -/
def Callback.Grows (call : Callback σ) : Prop := ∀ h m, (call h m).All m.Grows

/-- A machine beside itself, with what it has grown out of. -/
def Link.growth (m₀ : Machine σ) : Link σ :=
  .self m₀.Grows m₀.Grows m₀.Grows (fun _ _ h => h.trans (grows_alloc _ fun _ hf => nomatch hf))
    (fun _ _ _ hd h => h.trans (grows_alloc _ fun _ hf => ⟨_, _, hd, Object.function.inj hf⟩))
    fun m b h => h.trans (m.grows_commit b)

section

variable (hcall : Callback.Grows call)

include hcall

theorem Link.loads_growth (m₀ : Machine σ) (name : String) : (growth m₀).Loads call call name := by
  refine loads_self fun {m index handle loader} hm _ => ?_
  have hbegin : m.Grows (m.beginLoad index) := .of_eq rfl rfl rfl
  have hload := Outcome.leaves_iff_all.2 (hbegin.outcomeAll (hcall (loader handle) _))
  exact hload.mono (fun _ n hn => ⟨hm.trans (hn.trans (.of_eq rfl rfl rfl)), hn.names⟩)
    (fun _ _ _ => trivial) fun _ hn => hm.trans hn

theorem leaves_compileSource (source name : String) (m : Machine σ) :
    (compileSource call source name m).Leaves
      (fun c n => m.Grows n ∧ ∃ d : Core.Func, d.chunk = c ∧ d.locals = 0 ∧ d.Scoped n.globals.size)
      (fun _ => m.Grows) m.Grows :=
  Link.leaves_compileSource (fun name _ => Link.loads_growth hcall m name) (.refl m) name

theorem grows_compileSource (source name : String) (m : Machine σ) :
    (compileSource call source name m).All m.Grows :=
  Outcome.leaves_iff_all.1 <|
    (leaves_compileSource hcall source name m).mono (fun _ _ h => h.1) (fun _ _ h => h) fun _ h => h

/-- A program that compiles has its slots in bounds, and no local variables of its own. -/
theorem scoped_of_bindProgram {source name : String} {program : Program} {m m' : Machine σ}
    {d : Core.Func} (h : bindProgram call source name program m = .ok d m') :
    d.Scoped m'.globals.size ∧ d.locals = 0 ∧ m.Grows m' := by
  have hrel : (Link.growth m).rel () m m := ⟨rfl, .refl m⟩
  have hends :=
    Link.ends_bindProgram source name program (fun name _ => Link.loads_growth hcall m name) hrel
      (Nat.zero_le _)
  rw [h] at hends
  cases hends with
  | ok _ hn =>
    obtain ⟨⟨-, hgrows⟩, -, -, hlocals, hscoped⟩ := hn
    exact ⟨hscoped, hlocals, hgrows⟩

end

/-! ## Evaluations -/

theorem tenure_grows (hcall : Callback.Grows call) (m₀ : Machine σ) :
    Tenure m₀.Grows call fun _ => True where
  upkeep := m₀.upkeep_grows
  service := m₀.service_grows
  status _ _ _ h := h.trans (.of_eq rfl rfl rfl)
  start _ h := h.trans (.of_eq rfl rfl rfl)
  settle _ _ h := h.trans (.of_eq rfl rfl rfl)
  recover h := h.trans (.of_eq rfl rfl rfl)
  native _ _ h := h.outcomeAll (hcall _ _)
  compile h source name :=
    (leaves_compileSource hcall source name _).mono (fun _ _ hn => ⟨trivial, h.trans hn.1⟩)
      (fun _ _ => h.trans) fun _ => h.trans

theorem grows_runSteps (hcall : Callback.Grows call) (entry fuel : Nat) (m : Machine σ) :
    (runSteps call entry fuel m).All m.Grows :=
  (tenure_grows hcall m).runSteps (.refl m) entry fuel

theorem grows_eval {ε : Type} (hcall : Callback.Grows call) (fuel : Nat) (source : String)
    (m : Machine σ) : (eval call fuel source m : Outcome σ ε _).All m.Grows :=
  (tenure_grows hcall m).eval (.refl m) fuel source

theorem Machine.grows_conclude (m : Machine σ) (result : Except Failure Value) :
    m.Grows (m.conclude result) :=
  (m.service_grows.conclude (fun _ _ h => h.trans (.of_eq rfl rfl rfl)) (.refl m) result)

theorem Machine.grows_setFunction (m : Machine σ) (handle : ModuleHandle) (name : String)
    (arity : Nat) (body : Native σ) : m.Grows (m.setFunction handle name arity body).2 := by
  have halloc : m.Grows (m.alloc (.native { name, arity, code := body })).2 :=
    m.grows_alloc fun _ hf => nomatch hf
  unfold setFunction
  split
  · exact halloc.trans (.of_eq rfl rfl rfl)
  · exact .refl m

theorem Request.grows_perform (hcall : Callback.Grows call) (fuel : Nat) (r : Request)
    (m : Machine σ) : (r.perform call fuel m).All m.Grows :=
  (tenure_grows hcall m).perform (.refl m) fuel r

/-! ## Host programs -/

namespace Host

theorem grows_interpret (hcall : Callback.Grows call) (fuel : Nat) (h : Host σ) (m : Machine σ) :
    (h.interpret call fuel m).All m.Grows := by
  induction h generalizing m with
  | finish v | unwind => exact .refl m
  | ask r next ih =>
    have hperform := r.grows_perform hcall fuel m
    unfold interpret
    split <;> rename_i hr <;> rw [hr] at hperform
    · exact hperform.outcomeAll (ih _ _)
    · exact hperform
    · trivial
  | read next ih => exact ih _ m
  | write s next ih =>
    have hwrite : m.Grows { m with host := s } := .of_eq rfl rfl rfl
    exact hwrite.outcomeAll (ih _)
  | addLoader name loader next _ ih =>
    have hadd : m.Grows (m.addLoader name loader) := .of_eq rfl rfl rfl
    exact hadd.outcomeAll (ih _)
  | setFunction handle name arity body next _ ih =>
    exact (m.grows_setFunction handle name arity body).outcomeAll (ih _ _)

/-- Every run of a host program leaves a machine that may come out of the one it finds. -/
theorem grows_run (fuel : Nat) : Callback.Grows (run fuel : Callback σ) := by
  induction fuel with
  | zero => exact fun _ _ => trivial
  | succ fuel ih => exact fun h m => h.grows_interpret ih fuel m

end Host

/-- So does a compilation that stops at one of the loaders. -/
theorem Callback.grows_of_runs {fuel : Nat}
    (h : ∀ p k, call p k = p.run fuel k ∨ call p k = .unwound k) : Callback.Grows call := by
  intro p k
  rcases h p k with hk | hk <;> rw [hk]
  · exact Host.grows_run fuel p k
  · exact .refl k

/-! ## Reachable machines -/

namespace Machine

/-- A machine that comes out of a new one by runs of host programs, whether they end or are
unwound. -/
inductive Reachable : Machine σ → Prop
  | new (options : Options) (host : σ) : Reachable (Machine.new options host)
  | ran {m m' : Machine σ} {v : Value} (before : Reachable m) (fuel : Nat) (h : Host σ)
    (runs : h.run fuel m = .ok v m') : Reachable m'
  | unwound {m m' : Machine σ} (before : Reachable m) (fuel : Nat) (h : Host σ)
    (runs : h.run fuel m = .unwound m') : Reachable m'

theorem sourced_openBuiltins (l : Library σ) {m : Machine σ} (hm : m.heap.Sourced) :
    (m.openBuiltins l).heap.Sourced := by
  unfold openBuiltins
  generalize l.entries = entries
  induction entries generalizing m with
  | nil => exact hm
  | cons e entries ih => exact ih (hm.alloc fun _ hf => nomatch hf)

theorem Reachable.sourced {m : Machine σ} (h : m.Reachable) : m.heap.Sourced := by
  induction h with
  | new options host => exact sourced_openBuiltins _ .empty
  | @ran n _ _ _ fuel h runs ih | @unwound n _ _ fuel h runs ih =>
    have hgrows := Host.grows_run fuel h n
    rw [runs] at hgrows
    exact hgrows.heap.sourced ih

end Machine

end ScriptMachine
