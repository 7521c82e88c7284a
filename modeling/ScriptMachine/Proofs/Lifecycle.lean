import Mathlib.Data.List.Chain
import ScriptMachine.Proofs.Course
import ScriptMachine.Proofs.Idle
/-!
# The life of a module

A module is registered, then it is loading, then it is loaded, and it never goes back. Of the
loaders that are registered under one name at most one is ever called: the last one before
the import that finds the module still registered. A loaded module does not change any more, and
programs use no others.

* `Course.linked`, `Course.known_of_later`: **imports are loaded modules**;
* `Course.usesSealed`: **programs use members of loaded modules only**;
* `Course.lifecycle`: **the life of modules in every course of events**.
-/

namespace ScriptMachine

/-! ## Registries -/

namespace Registry

variable {l : Type} {r r' : Registry l} {name : String} {index : Nat}

theorem index?_eq (r : Registry l) (name : String) :
    r.index? name = (r.entries.map (·.name)).findIdx? (· == name) := by
  rw [Array.findIdx?_map]
  rfl

/-- The state of a module. -/
def state? (r : Registry l) (name : String) : Option (ModuleState l) :=
  (r.index? name).bind fun i => r.entries[i]?.map (·.state)

theorem status?_eq (r : Registry l) (name : String) :
    r.status? name = (r.state? name).map (·.status) := by
  unfold status? state?
  cases r.index? name with
  | none => rfl
  | some i => rw [Option.bind_some, Option.map_map]; rfl

theorem name_of_index? (h : r.index? name = some index) :
    ∃ e, r.entries[index]? = some e ∧ e.name = name := by
  obtain ⟨hlt, hname, -⟩ := Array.findIdx?_eq_some_iff_getElem.1 h
  exact ⟨_, Array.getElem?_eq_getElem hlt, eq_of_beq hname⟩

/-- Different modules are at different places. -/
theorem index?_inj {other : String} (h : r.index? name = some index)
    (h' : r.index? other = some index) : other = name := by
  obtain ⟨e, he, hname⟩ := name_of_index? h
  obtain ⟨e', he', hname'⟩ := name_of_index? h'
  obtain rfl := Option.some.inj (he.symm.trans he')
  exact hname'.symm.trans hname

theorem lookup_eq_ready_iff : r.lookup name = .ready index ↔
    r.index? name = some index ∧ ∃ e, r.entries[index]? = some e ∧ e.state = .loaded := by
  constructor
  · intro h
    unfold lookup at h
    split at h
    · cases h
    · rename_i i hi
      split at h
      · cases h
      · rename_i e he
        split at h <;> cases h
        rename_i hstate
        exact ⟨hi, e, he, hstate⟩
  · rintro ⟨hi, e, he, hstate⟩
    unfold lookup
    rw [hi]
    simp only [he, hstate]

variable {handle : ModuleHandle}

theorem of_lookup_load {body : l} (h : r.lookup name = .load index handle body) :
    r.index? name = some index ∧ r.state? name = some (.registered body) := by
  have hindex : r.index? name = some index := by
    unfold lookup at h
    split at h
    · cases h
    · rename_i i hi
      split at h
      · cases h
      · split at h <;> cases h
        exact hi
  obtain ⟨e, he, hstate, -⟩ := of_lookup h
  exact ⟨hindex, by rw [state?, hindex, Option.bind_some, he, Option.map_some, hstate]⟩

/-! ### Changes of one module -/

section Modify

variable {f : ModuleEntry l → ModuleEntry l} (hf : ∀ e, (f e).name = e.name)

include hf

theorem index?_modify (i : Nat) :
    ({ entries := r.entries.modify i f } : Registry l).index? name = r.index? name := by
  rw [index?_eq, index?_eq]
  congr 1
  refine Array.ext_getElem? fun j => ?_
  rw [Array.getElem?_map, Array.getElem?_map, Array.getElem?_modify]
  split
  · cases r.entries[j]? <;> simp [hf]
  · rfl

theorem state?_modify (i : Nat) : ({ entries := r.entries.modify i f } : Registry l).state? name =
    if r.index? name = some i then r.entries[i]?.map fun e => (f e).state else r.state? name := by
  unfold state?
  rw [index?_modify hf]
  cases hindex : r.index? name with
  | none => rfl
  | some j =>
    simp only [Option.bind_some, Array.getElem?_modify, Option.some.injEq]
    by_cases hj : i = j
    · subst hj
      cases r.entries[i]? <;> simp
    · simp [hj, Ne.symm hj]

end Modify

/-! ### What no move undoes -/

/-- Modules keep their places, and loaded ones stay as they are. -/
structure Keeps (r r' : Registry l) : Prop where
  index : ∀ {name : String} {i : Nat}, r.index? name = some i → r'.index? name = some i
  loaded : ∀ {i : Nat} {e : ModuleEntry l}, r.entries[i]? = some e → e.state = .loaded →
    r'.entries[i]? = some e

theorem Keeps.refl (r : Registry l) : r.Keeps r := ⟨id, fun he _ => he⟩

theorem Keeps.trans {r'' : Registry l} (h : r.Keeps r') (h' : r'.Keeps r'') : r.Keeps r'' :=
  ⟨fun hi => h'.index (h.index hi), fun he hstate => h'.loaded (h.loaded he hstate) hstate⟩

/-- What an import finds loaded it finds loaded for ever. -/
theorem Keeps.ready (h : r.Keeps r') (hready : r.lookup name = .ready index) :
    r'.lookup name = .ready index := by
  obtain ⟨hindex, e, he, hstate⟩ := lookup_eq_ready_iff.1 hready
  exact lookup_eq_ready_iff.2 ⟨h.index hindex, e, h.loaded he hstate, hstate⟩

theorem keeps_modify {f : ModuleEntry l → ModuleEntry l} {i : Nat} (hf : ∀ e, (f e).name = e.name)
    (hloaded : ∀ e, r.entries[i]? = some e → e.state = .loaded → f e = e) :
    r.Keeps { entries := r.entries.modify i f } where
  index hindex := by rwa [index?_modify hf]
  loaded {j e} he hstate := by
    show (r.entries.modify i f)[j]? = some e
    rw [Array.getElem?_modify]
    split
    · rename_i hj
      subst hj
      rw [he, Option.map_some, hloaded e he hstate]
    · exact he

theorem keeps_addLoader (name : String) (body : l) : r.Keeps (r.addLoader name body) := by
  unfold addLoader
  split
  · refine ⟨fun {name i} hindex => ?_, fun {i e} he _ => ?_⟩
    · rw [index?, Array.findIdx?_push]
      rw [index?] at hindex
      rw [hindex, Option.some_or]
    · have hi : i < r.entries.size := (Array.getElem?_eq_some_iff.1 he).1
      show (r.entries.push _)[i]? = some e
      rw [Array.getElem?_push, if_neg (Nat.ne_of_lt hi), he]
  · refine keeps_modify (fun e => ?_) fun e _ hstate => ?_
    · split <;> rfl
    · rw [hstate]

theorem keeps_install (haccepts : r.accepts handle = true) (name : String) (v : Value) :
    r.Keeps (r.install handle name v) := by
  refine keeps_modify (fun _ => rfl) fun e he hstate => ?_
  have hstatus := status_of_accepts haccepts he
  rw [hstate] at hstatus
  cases hstatus

theorem keeps_beginLoad {body : l} (h : r.lookup name = .load index handle body) :
    r.Keeps (r.beginLoad index) := by
  obtain ⟨e, he, hregistered, -⟩ := of_lookup h
  refine keeps_modify (fun _ => rfl) fun e' he' hstate => ?_
  obtain rfl := Option.some.inj (he.symm.trans he')
  rw [hregistered] at hstate
  cases hstate

theorem keeps_finishLoad (h : r.Loading index) : r.Keeps (r.finishLoad index) := by
  obtain ⟨e, he, hloading⟩ := h
  refine keeps_modify (fun _ => rfl) fun e' he' hstate => ?_
  obtain rfl := Option.some.inj (he.symm.trans he')
  rw [hstate] at hloading
  cases hloading

/-! ### The states of modules -/

theorem state?_addLoader (body : l) (other : String) : (r.addLoader name body).state? other =
    if other = name then
      match r.state? name with
      | some .loading => some .loading
      | some .loaded => some .loaded
      | _ => some (.registered body)
    else r.state? other := by
  unfold addLoader
  cases hindex : r.index? name with
  | none =>
    have hstate : r.state? name = none := by rw [state?, hindex, Option.bind_none]
    have hindex' : (r.entries.push { name, state := .registered body }).findIdx? (·.name == other) =
        (r.index? other).or (if other = name then some r.entries.size else none) := by
      rw [Array.findIdx?_push]
      simp only [beq_iff_eq, eq_comm (a := name)]
      rfl
    by_cases hother : other = name
    · subst hother
      rw [if_pos rfl, hstate]
      dsimp only
      rw [state?, index?, hindex', hindex]
      simp
    · rw [if_neg hother]
      dsimp only
      rw [state?, index?, hindex', if_neg hother, Option.or_none, state?]
      cases hindex'' : r.index? other with
      | none => rfl
      | some i =>
        obtain ⟨e, he, -⟩ := name_of_index? hindex''
        have hi : i < r.entries.size := (Array.getElem?_eq_some_iff.1 he).1
        rw [Option.bind_some, Option.bind_some, Array.getElem?_push, if_neg (Nat.ne_of_lt hi)]
  | some i =>
    obtain ⟨e, he, -⟩ := name_of_index? hindex
    have hstate : r.state? name = some e.state := by
      rw [state?, hindex, Option.bind_some, he, Option.map_some]
    dsimp only
    refine (state?_modify (fun e => ?_) _).trans ?_
    · split <;> rfl
    by_cases hother : other = name
    · rw [hother, if_pos hindex, if_pos rfl, hstate, he, Option.map_some]
      cases hs : e.state <;> simp [hs]
    · rw [if_neg hother, if_neg fun hindex' => hother (index?_inj hindex hindex')]

theorem state?_install (handle : ModuleHandle) (function : String) (v : Value) (other : String) :
    (r.install handle function v).state? other = r.state? other := by
  refine (state?_modify ?_ _).trans ?_
  · exact fun _ => rfl
  split
  · rename_i hindex
    rw [state?, hindex, Option.bind_some]
  · rfl

theorem state?_beginLoad {body : l} (h : r.lookup name = .load index handle body)
    (other : String) : (r.beginLoad index).state? other = if other = name then some .loading
      else r.state? other := by
  obtain ⟨hindex, -⟩ := of_lookup_load h
  obtain ⟨e, he, -⟩ := name_of_index? hindex
  refine (state?_modify ?_ _).trans ?_
  · exact fun _ => rfl
  rw [he, Option.map_some]
  by_cases hother : other = name
  · rw [hother, if_pos hindex, if_pos rfl]
  · rw [if_neg hother, if_neg fun hindex' => hother (index?_inj hindex hindex')]

theorem state?_finishLoad (other : String) :
    (r.finishLoad index).state? other = if r.index? other = some index then some .loaded
      else r.state? other := by
  refine (state?_modify ?_ _).trans ?_
  · exact fun _ => rfl
  split
  · rename_i hindex
    obtain ⟨e, he, -⟩ := name_of_index? hindex
    rw [he, Option.map_some]
  · rfl

/-- The next import finds the module loaded. -/
theorem lookup_finishLoad (hindex : (r.finishLoad index).index? name = some index) :
    (r.finishLoad index).lookup name = .ready index := by
  obtain ⟨e, he, -⟩ := name_of_index? hindex
  refine lookup_eq_ready_iff.2 ⟨hindex, e, he, ?_⟩
  unfold finishLoad at he
  rw [Array.getElem?_modify, if_pos rfl] at he
  obtain ⟨e', -, rfl⟩ := Option.map_eq_some_iff.1 he
  rfl

theorem state?_of_loading (h : r.Loading index) (hindex : r.index? name = some index) :
    r.state? name = some .loading := by
  obtain ⟨e, he, hstatus⟩ := h
  rw [state?, hindex, Option.bind_some, he, Option.map_some]
  cases hstate : e.state <;> rw [hstate] at hstatus <;> first | rfl | cases hstatus

end Registry

variable {σ : Type}

/-! ## Moves -/

/-- What may become of the status of a module from one moment to the next. -/
inductive ModuleStatus.Becomes : Option ModuleStatus → Option ModuleStatus → Prop
  | same (s : Option ModuleStatus) : Becomes s s
  | registered : Becomes none (some .registered)
  | loading : Becomes (some .registered) (some .loading)
  | loaded : Becomes (some .loading) (some .loaded)

/-- The loader that is registered under a name. -/
def Event.registers? (name : String) : Event σ → Option (Loader σ)
  | .registered other body => if other = name then some body else none
  | _ => none

/-- The loader of a name that is called. -/
def Event.calls? (name : String) : Event σ → Option (Loader σ)
  | .opened (.loader other _ body) => if other = name then some body else none
  | _ => none

theorem Event.loader_cases (e : Event σ) : (∃ name body, e = .registered name body) ∨
    (∃ name index body, e = .opened (.loader name index body)) ∨
    ∀ name, e.registers? name = none ∧ e.calls? name = none := by
  cases e with
  | registered name body => exact .inl ⟨name, body, rfl⟩
  | opened task =>
    cases task with
    | loader name index body => exact .inr (.inl ⟨name, index, body, rfl⟩)
    | _ => exact .inr (.inr fun _ => ⟨rfl, rfl⟩)
  | _ => exact .inr (.inr fun _ => ⟨rfl, rfl⟩)

/-- What the state of a module tells about the loaders that were registered and called under its
name, the last first. -/
def ModuleState.Tells {l : Type} (registered called : List l) : Option (ModuleState l) → Prop
  | none => registered = [] ∧ called = []
  | some (.registered body) => registered.head? = some body ∧ called = []
  | some .loading => called.length = 1
  | some .loaded => called.length = 1

variable {ts : List (Task σ)} {index : Nat}

namespace Moves

variable {p q : Point σ} {e : Event σ}

/-- The module whose loader has its turn is loading. -/
theorem loading_of_tasks {name : String} {body : Loader σ}
    (hloading : ∀ i ∈ p.loaders, p.machine.modules.Loading i)
    (htasks : p.tasks = .loader name index body :: ts) : p.machine.modules.Loading index := by
  have hloaders : p.loaders = index :: (⟨ts, p.unwinding, p.machine⟩ : Point σ).loaders :=
    congrArg (List.filterMap _) htasks
  exact hloading index (hloaders ▸ List.mem_cons_self)

variable (h : Moves p e q) (hloading : ∀ i ∈ p.loaders, p.machine.modules.Loading i)

include h hloading

theorem keeps : p.machine.modules.Keeps q.machine.modules := by
  obtain ⟨hmodules, -⟩ | ⟨name, body, -, -, hmodules⟩ | ⟨handle, name, v, -, -,
    haccepts, hmodules⟩ | ⟨name, index, handle, body, -, -, hlookup, hmodules⟩ | ⟨name, index, body,
      -, htasks, hmodules⟩ |
    ⟨name, index, body, -, -, hmodules⟩ := h.modules_cases <;> rw [hmodules]
  · exact .refl _
  · exact Registry.keeps_addLoader name body
  · exact Registry.keeps_install haccepts name v
  · exact Registry.keeps_beginLoad hlookup
  · exact Registry.keeps_finishLoad (loading_of_tasks hloading htasks)
  · exact .refl _

/-- One move takes a module one step on, or leaves it where it is. -/
theorem becomes (other : String) :
    ModuleStatus.Becomes (p.machine.modules.status? other) (q.machine.modules.status? other) := by
  rw [Registry.status?_eq, Registry.status?_eq]
  obtain ⟨hmodules, -⟩ | ⟨name, body, -, -, hmodules⟩ | ⟨handle, name, v, -, -,
    haccepts, hmodules⟩ | ⟨name, index, handle, body, -, -, hlookup, hmodules⟩ | ⟨name, index, body,
      -, htasks, hmodules⟩ |
    ⟨name, index, body, -, -, hmodules⟩ := h.modules_cases
  · rw [hmodules]
    exact .same _
  · rw [hmodules, Registry.state?_addLoader]
    split
    · rename_i hname
      rw [hname]
      rcases p.machine.modules.state? name with _ | _ | _ | _
      · exact .registered
      all_goals exact .same _
    · exact .same _
  · rw [hmodules, Registry.state?_install]
    exact .same _
  · rw [hmodules, Registry.state?_beginLoad hlookup]
    split
    · rename_i hname
      rw [hname, (Registry.of_lookup_load hlookup).2]
      exact .loading
    · exact .same _
  · rw [hmodules, Registry.state?_finishLoad]
    split
    · rename_i hindex
      rw [Registry.state?_of_loading (loading_of_tasks hloading htasks) hindex]
      exact .loaded
    · exact .same _
  · rw [hmodules]
    exact .same _

theorem tells {other : String} {registered called : List (Loader σ)}
    (htells : ModuleState.Tells registered called (p.machine.modules.state? other)) :
    ModuleState.Tells ((e.registers? other).toList ++ registered)
      ((e.calls? other).toList ++ called) (q.machine.modules.state? other) := by
  rcases e.loader_cases with ⟨name, body, rfl⟩ | ⟨name, index, body, rfl⟩ | hnone
  · -- A loader takes the place of the one before, as long as the module is registered.
    cases h with
    | @register ts m turn =>
      show ModuleState.Tells ((if name = other then some body else none).toList ++ registered)
        called ((m.modules.addLoader name body).state? other)
      rw [Registry.state?_addLoader]
      by_cases hname : name = other
      · subst hname
        rw [if_pos rfl, if_pos rfl]
        cases hstate : m.modules.state? name with
        | none =>
          rw [hstate] at htells
          exact ⟨rfl, htells.2⟩
        | some state =>
          rw [hstate] at htells
          cases state with
          | registered before => exact ⟨rfl, htells.2⟩
          | loading | loaded => exact htells
      · rw [if_neg hname, if_neg (Ne.symm hname)]
        exact htells
  · -- The module was registered, so no loader was called before.
    cases h with
    | @load ts m _ _ handle _ found =>
      show ModuleState.Tells registered
        ((if name = other then some body else none).toList ++ called)
        ((m.modules.beginLoad index).state? other)
      rw [Registry.state?_beginLoad found]
      by_cases hname : name = other
      · subst hname
        rw [(Registry.of_lookup_load found).2] at htells
        rw [if_pos rfl, if_pos rfl, htells.2]
        exact rfl
      · rw [if_neg hname, if_neg (Ne.symm hname)]
        exact htells
  · obtain ⟨hregisters, hcalls⟩ := hnone other
    rw [hregisters, hcalls, Option.toList_none, List.nil_append, List.nil_append]
    obtain ⟨hmodules, -⟩ | ⟨name, body, rfl, -⟩ | ⟨handle, name, v, -, -, haccepts, hmodules⟩ |
      ⟨name, index, handle, body, rfl, -⟩ | ⟨name, index, body, -, htasks, hmodules⟩ |
      ⟨name, index, body, -, -, hmodules⟩ := h.modules_cases
    · rwa [hmodules]
    · have hname := (hnone name).1
      simp [Event.registers?] at hname
    · rwa [hmodules, Registry.state?_install]
    · have hname := (hnone name).2
      simp [Event.calls?] at hname
    · rw [hmodules, Registry.state?_finishLoad]
      split
      · rename_i hindex
        rwa [Registry.state?_of_loading (loading_of_tasks hloading htasks) hindex] at htells
      · exact htells
    · rwa [hmodules]

end Moves

/-! ## Paths -/

/-- The loaders that were registered under a name, the last first. -/
def History.registered (hist : History σ) (name : String) : List (Loader σ) :=
  hist.filterMap fun x => x.2.registers? name

/-- The loaders of a name that were called, the last first. -/
def History.called (hist : History σ) (name : String) : List (Loader σ) :=
  hist.filterMap fun x => x.2.calls? name

theorem History.registered_cons (x : Point σ × Event σ) (hist : History σ) (name : String) :
    History.registered (x :: hist) name = (x.2.registers? name).toList ++ hist.registered name := by
  unfold History.registered
  rw [List.filterMap_cons]
  cases x.2.registers? name <;> rfl

theorem History.called_cons (x : Point σ × Event σ) (hist : History σ) (name : String) :
    History.called (x :: hist) name = (x.2.calls? name).toList ++ hist.called name := by
  unfold History.called
  rw [List.filterMap_cons]
  cases x.2.calls? name <;> rfl

namespace Path

variable {options : Options} {host : σ} {q : Point σ} {hist : History σ}

theorem loading_of_mem (h : Path (.new options host) hist q) :
    ∀ i ∈ q.loaders, q.machine.modules.Loading i :=
  fun i hi => (h.loading_iff i).2 (List.mem_append_left _ hi)

/-- The way to an event of the past. -/
theorem before {p q r : Point σ} {later earlier : History σ} {e : Event σ}
    (h : Path p (later ++ (r, e) :: earlier) q) : Path p earlier r ∧ ∃ r', Moves r e r' := by
  induction later generalizing q with
  | nil => cases h with | move before moves => exact ⟨before, _, moves⟩
  | cons x later ih => cases h with | move before moves => exact ih before

variable (h : Path (.new options host) hist q)

include h

theorem tells (name : String) :
    ModuleState.Tells (hist.registered name) (hist.called name)
      (q.machine.modules.state? name) := by
  induction h with
  | start =>
    have hnone : (Point.new options host).machine.modules.state? name = none := by
      have hmodules : (Point.new options host).machine.modules = {} := rfl
      simp [hmodules, Registry.state?, Registry.index?]
    rw [hnone]
    exact ⟨rfl, rfl⟩
  | move before moves ih =>
    rw [History.registered_cons, History.called_cons]
    exact moves.tells before.loading_of_mem ih

theorem keeps_points :
    (hist.points q).Pairwise fun next before =>
      before.machine.modules.Keeps next.machine.modules := by
  induction h with
  | start => exact List.pairwise_singleton _ _
  | @move hist q r e before moves ih =>
    have hstep := moves.keeps before.loading_of_mem
    refine List.pairwise_cons.2 ⟨fun x hx => ?_, ih⟩
    rcases List.mem_cons.1 hx with rfl | hx
    · exact hstep
    · exact ((List.pairwise_cons.1 ih).1 x hx).trans hstep

theorem becomes_points (name : String) :
    (hist.points q).IsChain fun next before =>
      ModuleStatus.Becomes (before.machine.modules.status? name)
        (next.machine.modules.status? name) := by
  induction h with
  | start => exact List.isChain_singleton _
  | move before moves ih =>
    exact List.isChain_cons_cons.2 ⟨moves.becomes before.loading_of_mem name, ih⟩

end Path

/-! ## Imports -/

/-- Imports are loaded modules, under their names. -/
def Machine.Linked (m : Machine σ) : Prop :=
  ∀ name index, (name, index) ∈ m.imports → m.modules.lookup name = .ready index

/-- What a program has imported so far are loaded modules, under their names. -/
def Draft.Linked (d : Draft σ) : Prop :=
  ∀ name index, (name, index) ∈ d.build.newImports → d.machine.modules.lookup name = .ready index

variable {d : Draft σ}

/-- A name that stands for a module is the name of an import. -/
theorem Draft.mem_of_resolve {name : String} (h : d.resolve name = .module index) :
    (name, index) ∈ d.build.newImports ∨ (name, index) ∈ d.machine.imports := by
  have hor : (d.build.newImports.lookup name).or (d.machine.imports.lookup name) = some index := by
    unfold Draft.resolve Build.resolve at h
    dsimp only at h
    split at h
    · cases h
    · rename_i himport
      cases h
      exact himport
    · cases h
    · cases h
  have hmem {imports : List (String × Nat)} (hlookup : imports.lookup name = some index) :
      (name, index) ∈ imports := by
    obtain ⟨before, after, rfl, -⟩ := List.lookup_eq_some_iff.1 hlookup
    simp
  exact (Option.or_eq_some_iff.1 hor).imp hmem fun h => hmem h.2

theorem Draft.Linked.commit (h : d.Linked) (hm : d.machine.Linked) : d.commit.Linked :=
  fun name index hmem => (Draft.mem_imports_commit hmem).elim (h name index) (hm name index)

variable {source name : String}

variable {fuel : Nat}

namespace Course

variable {options : Options} {host : σ} {q : Point σ} {hist : History σ}

/-- Along a course, nothing about modules is undone. -/
theorem keeps_of_suffix {p : Point σ} {hist' : History σ} (h : Course (.new options host) hist' q)
    (hsuffix : hist.points p <:+ hist'.points q) : p.machine.modules.Keeps q.machine.modules := by
  rcases List.mem_cons.1 (hsuffix.subset (List.mem_cons_self)) with rfl | hmem
  · exact .refl _
  · exact (List.pairwise_cons.1 h.path.keeps_points).1 p hmem

/-- **While a program is compiled**, what it has imported so far are loaded modules. -/
theorem linked_of_later {m : Machine σ}
    (h : Course (.new options host) hist ⟨.compilation :: ts, false, m⟩)
    (later : (Draft.start source name m).Later (Host.run fuel) d) : d.Linked := by
  induction later with
  | refl => exact fun _ _ hmem => nomatch hmem
  | @tail d k later step ih =>
    -- The step is part of the course, so what was loaded before it is loaded behind it.
    have hconducts := Host.conducts_run (σ := σ) fuel
    obtain ⟨hist₁, hd, -⟩ := Draft.Later.continues hconducts later ts h
    obtain ⟨hist₂, hk, hsuffix⟩ := step.continues hconducts ts hd
    have hkeeps : d.machine.modules.Keeps k.machine.modules := keeps_of_suffix hk hsuffix
    cases step with
    | string s | function f | within func => exact ih
    | declare other top free =>
      have himports : (d.build.declareGlobal d.machine other).newImports = d.build.newImports := by
        unfold Build.declareGlobal
        split <;> rfl
      intro name index hmem
      exact ih name index (himports ▸ hmem)
    | ready new free found =>
      intro name index hmem
      rcases List.mem_append.1 hmem with hmem | hmem
      · exact ih name index hmem
      · cases List.mem_singleton.1 hmem
        exact found
    | load new free found loads =>
      intro name index hmem
      rcases List.mem_append.1 hmem with hmem | hmem
      · exact hkeeps.ready (ih name index hmem)
      · cases List.mem_singleton.1 hmem
        exact Registry.lookup_finishLoad (hkeeps.index (Registry.of_lookup_load found).1)

/-- **Imports are loaded modules**, at every point of a course. -/
theorem linked (h : Course (.new options host) hist q) : q.machine.Linked := by
  induction h with
  | start => exact fun _ _ hmem => nomatch hmem
  | @move hist q r e before moves keeps ih =>
    -- A move adds no imports, and what is loaded stays loaded.
    intro name index hmem
    rw [keeps.imports] at hmem
    exact (moves.keeps before.path.loading_of_mem).ready (ih name index hmem)
  | compiled before compiles turn ih =>
    -- New imports were drafted since the compilation began, at an earlier point.
    obtain ⟨hist', hm⟩ := before.of_mem compiles.began
    exact (linked_of_later hm compiles.later).commit ih
  | started before compiles ih =>
    obtain ⟨hist', hm⟩ := before.of_mem compiles.began
    exact (linked_of_later hm compiles.later).commit ih

/-- **What a name is taken to be the name of a module for is loaded**, at every moment of a
compilation. -/
theorem known_of_later {m : Machine σ}
    (h : Course (.new options host) hist ⟨.compilation :: ts, false, m⟩)
    (later : (Draft.start source name m).Later (Host.run fuel) d) {object : String}
    (hresolve : d.resolve object = .module index) :
    d.machine.modules.lookup object = .ready index := by
  rcases Draft.mem_of_resolve hresolve with hnew | himport
  · exact linked_of_later h later object index hnew
  · obtain ⟨hist', hd, -⟩ := Draft.Later.continues (Host.conducts_run fuel) later ts h
    exact hd.linked object index himport

end Course

/-! ## The life of modules -/

theorem Registry.Keeps.function? {l : Type} {r r' : Registry l} (h : r.Keeps r') {name : String}
    (hready : r.lookup name = .ready index) (id : String) :
    r'.function? index id = r.function? index id := by
  obtain ⟨-, e, he, hstate⟩ := lookup_eq_ready_iff.1 hready
  unfold Registry.function?
  rw [he, h.loaded he hstate]

/-- Members are those of loaded modules: the module was loaded when the member was taken from its
table, and the member is still there at the end. -/
def Draft.sealedMembers (call : Callback σ) (root stop : Draft σ) : Sense where
  name id b := (root.seen call stop).name id b
  member object id v :=
    ∃ k index, Between call root stop k ∧ k.machine.modules.lookup object = .ready index ∧
    k.machine.modules.function? index id = some v ∧ stop.commit.modules.function? index id = some v
  string s v := (root.seen call stop).string s v
  function f v := (root.seen call stop).function f v

/-- The members that the code of a source text uses, in the top level and in all functions, are
those of loaded modules. -/
def Chunk.UsesSealed (chunk : Chunk) (call : Callback σ) (source name : String) (m n : Machine σ) :
    Prop :=
  ∃ (tokens : List Token) (program : Program) (stop : Draft σ) (f : Core.Func),
    tokenize source = .ok tokens ∧ parse tokens = .ok program ∧ f.chunk = chunk ∧ n = stop.commit ∧
      Program.Resolves ((Draft.start source name m).sealedMembers call stop) program f.body

/-- **Programs use members of loaded modules only**. -/
theorem Course.usesSealed {options : Options} {host : σ} {hist : History σ} {m n : Machine σ}
    {chunk : Chunk} (h : Course (.new options host) hist ⟨.compilation :: ts, false, m⟩)
    (hcompile : compileSource (Host.run fuel) source name m = .ok chunk n) :
    chunk.UsesSealed (Host.run fuel) source name m n := by
  obtain ⟨e, hrun⟩ | ⟨tokens, program, htokens, hprogram, hrun⟩ :=
    compileSource_cases (σ := σ) source name
  · rw [hrun] at hcompile
    cases hcompile
  · rw [hrun] at hcompile
    obtain ⟨stop, f, later, rfl, rfl, hmade⟩ := Draft.made_of_bindProgram hcompile
    have hle : ((Draft.start source name m).seen (Host.run fuel) stop).Le
        ((Draft.start source name m).sealedMembers (Host.run fuel) stop) := by
      refine ⟨fun h => h, ?_, fun h => h, fun h => h⟩
      rintro object id v ⟨k, index, hbetween, hresolve, hfunction⟩
      have hready := h.known_of_later hbetween.1 hresolve
      -- The rest of the compilation leaves the table of the module as it is.
      have hconducts := Host.conducts_run (σ := σ) fuel
      obtain ⟨hist₁, hk, -⟩ := Draft.Later.continues hconducts hbetween.1 ts h
      obtain ⟨hist₂, hstop, hsuffix⟩ := Draft.Later.continues hconducts hbetween.2 ts hk
      have hstays := (keeps_of_suffix hstop hsuffix).function? hready id
      exact ⟨k, index, hbetween, hready, hfunction, hstays.trans hfunction⟩
    exact ⟨tokens, program, stop, f, htokens, hprogram, rfl, rfl,
      (hmade.mono Draft.made_le_seen).mono hle⟩

/-- The life of modules in a course of events. -/
structure Lifecycle (hist : History σ) (q : Point σ) : Prop where
  /-- For each name, at most one loader is ever called, -/
  once : ∀ name, (hist.called name).length ≤ 1
  /-- the last one that was registered before the import that calls it. -/
  last : ∀ {later earlier : History σ} {p : Point σ} {name : String} {index : Nat}
    {body : Loader σ},
    hist = later ++ (p, .opened (.loader name index body)) :: earlier →
    (earlier.registered name).head? = some body
  /-- The status of a module goes from registered to loading, and from loading to loaded. -/
  status : ∀ name, (hist.points q).IsChain fun next before =>
    ModuleStatus.Becomes (before.machine.modules.status? name) (next.machine.modules.status? name)
  /-- Once a module is loaded, it stays as it is, with its table of functions. -/
  sealed : (hist.points q).Pairwise fun next before =>
    before.machine.modules.Keeps next.machine.modules
  /-- Every member of a module in the code of a program comes from a module that was loaded at that
  time. -/
  members : ∀ {ts : List (Task σ)} {m n : Machine σ} {fuel : Nat} {source name : String}
    {chunk : Chunk},
    ⟨.compilation :: ts, false, m⟩ ∈ hist.points q → compileSource (Host.run fuel) source name m =
      .ok chunk n → chunk.UsesSealed (Host.run fuel) source name m n
  /-- The same before the end of a compilation, and if it fails. -/
  known : ∀ {ts : List (Task σ)} {m : Machine σ} {fuel : Nat} {source name : String} {d : Draft σ},
    ⟨.compilation :: ts, false, m⟩ ∈ hist.points q →
    (Draft.start source name m).Later (Host.run fuel) d →
    ∀ {object : String} {index : Nat}, d.resolve object = .module index →
      d.machine.modules.lookup object = .ready index
  /-- Whatever the host does next is part of the course, however it ends. -/
  goesOn : q.unwinding = false → HostTurn q.tasks →
    ∀ (fuel : Nat) (h : Host σ), q.Leads q.tasks (h.run fuel q.machine)

/-- **The life of modules in every course of events**. -/
theorem Course.lifecycle {options : Options} {host : σ} {hist : History σ} {q : Point σ}
    (h : Course (.new options host) hist q) : Lifecycle hist q where
  once name := by
    have htells := h.path.tells name
    cases hstate : q.machine.modules.state? name with
    | none =>
      rw [hstate] at htells
      simp [htells.2]
    | some state =>
      rw [hstate] at htells
      cases state with
      | registered body => simp [htells.2]
      | loading => exact htells.le
      | loaded => exact htells.le
  last := by
    -- The import has found the loader in the registry, which tells that it is the last one.
    rintro later earlier p name index body rfl
    obtain ⟨hearlier, p', moves⟩ := h.path.before
    cases moves with
    | load found =>
      have htells := hearlier.tells name
      rw [(Registry.of_lookup_load found).2] at htells
      exact htells.1
  status := h.path.becomes_points
  sealed := h.path.keeps_points
  members hmem hcompile := (h.of_mem hmem).elim fun _ hm => hm.usesSealed hcompile
  known hmem later := (h.of_mem hmem).elim fun _ hm => hm.known_of_later later
  goesOn hunwinding hturn fuel program := by
    obtain ⟨ts, unwinding, m⟩ := q
    cases hunwinding
    exact Host.conducts_run fuel ts program m hturn

/-- Two loaders are registered as `m`, and a program uses a member of it: the second one was called,
and the code has the function that it has installed. -/
theorem Course.lifecycle_import :
    ∃ (hist : History Unit) (chunk : Chunk) (n : Machine Unit) (v : Value),
    Course (.new {} ()) hist ⟨[], false, n⟩ ∧ n.modules.status? "m" = some .loaded ∧
      n.modules.function? 0 "f" = none ∧ n.modules.function? 0 "g" = some v ∧ v ∈ chunk.constants ∧
      (hist.called "m").length = 1 ∧ Lifecycle hist ⟨[], false, n⟩ := by
  let installs (name : String) : Loader Unit := fun handle =>
    .setFunction handle name 0 (fun _ => .finish .none) fun _ => .finish .none
  let m : Machine Unit :=
    ((Machine.new {} ()).addLoader "m" (installs "f")).addLoader "m" (installs "g")
  obtain ⟨chunk, n, hcompiled, hstatus, hfirst, hsecond⟩ := Outcome.exists_of_value?
    (o := compileSource (Host.run 2) "import m\nm.g()" "" m)
    (fun c n => n.modules.status? "m" = some .loaded ∧ n.modules.function? 0 "f" = none ∧
      (n.modules.function? 0 "g").any (· ∈ c.constants) = true) (by decide +kernel)
  obtain ⟨v, hv, hmem⟩ := (Option.any_eq_true _ _).1 hsecond
  have hregister : Course (.new {} ()) _ ⟨[], false, m⟩ :=
    (Course.start.move (.register hostTurn_nil "m" (installs "f")) ⟨rfl, rfl⟩).move
      (.register hostTurn_nil "m" (installs "g")) ⟨rfl, rfl⟩
  -- For any source text, so that nothing is computed here.
  have hcontinues (source : String) (h : compileSource (Host.run 2) source "" m = .ok chunk n) :
      Continues ⟨[], false, m⟩ ⟨[], false, n⟩ := by
    have hleads :=
      Conduct.perform (C := .course Unit) ((Conduct.course Unit).run 2) hostTurn_nil 0
        (.compile source "") m
    have hperform : (Request.compile source "").perform (Host.run 2) 0 m = .ok (.ok chunk) n := by
      show Run.attempt (compileSource (Host.run 2) source "") m = _
      unfold Run.attempt
      rw [h]
    rwa [hperform] at hleads
  obtain ⟨hist, hcourse, -⟩ := hcontinues _ hcompiled hregister
  have hcalled : (hist.called "m").length = 1 := by
    have htells := hcourse.path.tells "m"
    rw [Registry.status?_eq] at hstatus
    obtain ⟨state, hstate, hloaded⟩ := Option.map_eq_some_iff.1 hstatus
    rw [hstate] at htells
    cases state with
    | registered body => cases hloaded
    | loading => cases hloaded
    | loaded => exact htells
  exact ⟨hist, chunk, n, v, hcourse, hstatus, hfirst, hv, of_decide_eq_true hmem, hcalled,
    hcourse.lifecycle⟩

end ScriptMachine
