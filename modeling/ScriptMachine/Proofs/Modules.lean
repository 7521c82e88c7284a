import ScriptMachine.Proofs.History
/-!
# Modules in the course of events

A module is loading from the moment its loader is called, and is sealed when the loader returns.
When the loader gives up, the module stays in between for good, and its handle stays valid.

* `Moves.modules_cases`: what a move does to modules;
* `Path.loading_iff`: **which modules are loading**;
* `Path.sealed_iff`: with no loader in progress, no handle is valid and no import is cyclic exactly
  as long as no loader was given up.
-/

namespace ScriptMachine

variable {σ : Type}

/-! ## What moves do to modules -/

variable {handle : ModuleHandle}

namespace Machine

theorem setFunction_of_accepts {m : Machine σ} (haccepts : m.modules.accepts handle = true)
    (name : String) (arity : Nat) (body : Native σ) :
    m.setFunction handle name arity body = (.ok (),
      { (m.alloc (.native ⟨name, arity, body⟩)).2 with
        modules := m.modules.install handle name (m.alloc (.native ⟨name, arity, body⟩)).1 }) := by
  unfold Machine.setFunction
  rw [haccepts]
  rfl

end Machine

/-- The loaders in progress, the innermost first. -/
def Point.loaders (p : Point σ) : List Nat :=
  p.tasks.filterMap fun
    | .loader _ index _ => some index
    | _ => none

/-- The loader that was given up. -/
def Event.lost? : Event σ → Option Nat
  | .abandoned (.loader _ index _) => some index
  | _ => none

variable {e : Event σ}

/-- What a move does to modules. -/
theorem Moves.modules_cases {p q : Point σ} (h : Moves p e q) :
    (q.machine.modules = p.machine.modules ∧ q.loaders = p.loaders ∧ e.lost? = none) ∨
    (∃ name body, e = .registered name body ∧ q.tasks = p.tasks ∧
      q.machine.modules = p.machine.modules.addLoader name body) ∨
    (∃ handle name v, e = .installed handle name (.ok ()) ∧ q.tasks = p.tasks ∧
      p.machine.modules.accepts handle = true ∧
      q.machine.modules = p.machine.modules.install handle name v) ∨
    (∃ name index handle body, e = .opened (.loader name index body) ∧
      q.tasks = .loader name index body :: p.tasks ∧
      p.machine.modules.lookup name = .load index handle body ∧
      q.machine.modules = p.machine.modules.beginLoad index) ∨
    (∃ name index body, e = .closed (.loader name index body) ∧
      p.tasks = .loader name index body :: q.tasks ∧
      q.machine.modules = p.machine.modules.finishLoad index) ∨
    (∃ name index body, e = .abandoned (.loader name index body) ∧
      p.tasks = .loader name index body :: q.tasks ∧ q.machine.modules = p.machine.modules) := by
  cases h with
  | reply _ plain performed =>
    exact .inl ⟨congrArg (·.modules) (plain.standing performed), rfl, rfl⟩
  | register _ name body => exact .inr (.inl ⟨name, body, rfl, rfl, rfl⟩)
  | @install ts m _ handle name arity body =>
    cases haccepts : m.modules.accepts handle with
    | false =>
      have hset : m.setFunction handle name arity body = (.error .invalidModuleHandle, m) := by
        unfold Machine.setFunction
        rw [haccepts]
        rfl
      rw [hset]
      exact .inl ⟨rfl, rfl, rfl⟩
    | true =>
      rw [Machine.setFunction_of_accepts haccepts]
      exact .inr (.inr (.inl ⟨handle, name, _, rfl, rfl, haccepts, rfl⟩))
  | load found => exact .inr (.inr (.inr (.inl ⟨_, _, _, _, rfl, rfl, found, rfl⟩)))
  | sealed => exact .inr (.inr (.inr (.inr (.inl ⟨_, _, _, rfl, rfl, rfl⟩))))
  | abandon task goes =>
    cases task with
    | loader name index body =>
      exact .inr (.inr (.inr (.inr (.inr ⟨name, index, body, rfl, rfl, rfl⟩))))
    | _ => exact .inl ⟨rfl, rfl, rfl⟩
  | resume resumes | spoil resumes =>
    exact .inl ⟨congrArg (·.modules) (Machine.surroundings_of_resume resumes), rfl, rfl⟩
  | start commits chunk =>
    subst commits
    exact .inl ⟨rfl, rfl, rfl⟩
  | @conclude _ m result => exact .inl ⟨congrArg (·.modules) (m.standing_conclude result), rfl, rfl⟩
  | step steps | call steps | finish steps | fail steps =>
    exact .inl ⟨congrArg (·.modules) (Machine.surroundings_of_step steps), rfl, rfl⟩
  | _ => exact .inl ⟨rfl, rfl, rfl⟩

/-! ## Modules that are loading -/

namespace Registry

variable {l : Type} {r : Registry l}

/-- A module is loading. -/
def Loading (r : Registry l) (i : Nat) : Prop :=
  ∃ e, r.entries[i]? = some e ∧ e.state.status = .loading

variable {index i : Nat}

/-- Changes of one module. -/
theorem loading_modify {f : ModuleEntry l → ModuleEntry l} :
    ({ entries := r.entries.modify index f } : Registry l).Loading i ↔
      if index = i then ∃ e, r.entries[i]? = some e ∧ (f e).state.status = .loading
        else r.Loading i := by
  unfold Loading
  rw [Array.getElem?_modify]
  split
  · simp only [Option.map_eq_some_iff]
    constructor
    · rintro ⟨_, ⟨e, he, rfl⟩, hloading⟩
      exact ⟨e, he, hloading⟩
    · rintro ⟨e, he, hloading⟩
      exact ⟨f e, ⟨e, he, rfl⟩, hloading⟩
  · rfl

theorem loading_install {i : Nat} (handle : ModuleHandle) (name : String) (v : Value) :
    (r.install handle name v).Loading i ↔ r.Loading i := by
  unfold install
  rw [loading_modify]
  split <;> rfl

theorem loading_addLoader {i : Nat} (name : String) (body : l) :
    (r.addLoader name body).Loading i ↔ r.Loading i := by
  unfold addLoader
  split
  · unfold Loading
    constructor
    · rintro ⟨e, he, hloading⟩
      rw [Array.getElem?_push] at he
      split at he
      · cases he
        cases hloading
      · exact ⟨e, he, hloading⟩
    · rintro ⟨e, he, hloading⟩
      have hi : i < r.entries.size := (Array.getElem?_eq_some_iff.1 he).1
      exact ⟨e, by rw [Array.getElem?_push, if_neg (Nat.ne_of_lt hi), he], hloading⟩
  · rw [loading_modify]
    split
    · refine exists_congr fun e => and_congr_right fun _ => ?_
      cases hstate : e.state <;> simp [hstate, ModuleState.status]
    · rfl

/-- A module that is about to be loaded was registered under its name, and its loader gets its
handle. -/
theorem of_lookup {name : String} {index : Nat} {body : l}
    (h : r.lookup name = .load index handle body) :
      ∃ e, r.entries[index]? = some e ∧ e.state = .registered body ∧ e.name = name ∧
      handle = ⟨UInt32.ofNat index, e.generation⟩ := by
  unfold lookup at h
  split at h
  · cases h
  · rename_i i hi
    split at h
    · cases h
    · rename_i e he
      split at h <;> cases h
      rename_i hstate
      refine ⟨e, he, hstate, ?_, rfl⟩
      obtain ⟨hlt, hname, -⟩ := Array.findIdx?_eq_some_iff_getElem.1 hi
      rw [Array.getElem?_eq_getElem hlt] at he
      rw [← Option.some.inj he]
      exact eq_of_beq hname

theorem loading_beginLoad {name : String} {body : l} (h : r.lookup name = .load index handle body) :
    (r.beginLoad index).Loading i ↔ i = index ∨ r.Loading i := by
  obtain ⟨e, he, -⟩ := of_lookup h
  unfold beginLoad
  rw [loading_modify]
  split
  · rename_i hi
    subst hi
    exact iff_of_true ⟨e, he, rfl⟩ (.inl rfl)
  · rename_i hi
    exact ⟨.inr, fun h => h.resolve_left fun hi' => hi hi'.symm⟩

theorem loading_finishLoad : (r.finishLoad index).Loading i ↔ i ≠ index ∧ r.Loading i := by
  unfold finishLoad
  rw [loading_modify]
  split
  · rename_i hi
    refine iff_of_false (fun ⟨_, _, hloading⟩ => nomatch hloading) fun h => h.1 hi.symm
  · rename_i hi
    exact ⟨fun h => ⟨fun hi' => hi hi'.symm, h⟩, fun h => h.2⟩

/-- While no module is loading, no handle is accepted and no import is cyclic. -/
theorem accepts_eq_false (h : ∀ i, ¬ r.Loading i) (handle : ModuleHandle) :
    r.accepts handle = false := by
  unfold accepts
  split
  · rename_i e he
    have hstate : e.state.status ≠ .loading := fun hloading => h _ ⟨e, he, hloading⟩
    simp [hstate]
  · rfl

theorem lookup_ne_cyclic (h : ∀ i, ¬ r.Loading i) (name : String) : r.lookup name ≠ .cyclic := by
  unfold lookup
  split
  · exact nofun
  · split
    · exact nofun
    · rename_i e he
      split
      · exact nofun
      · rename_i hstate
        exact absurd ⟨e, he, by rw [hstate]; rfl⟩ (h _)
      · exact nofun

end Registry

/-- The loaders that were given up. -/
def History.lost (hist : History σ) : List Nat := hist.filterMap fun (_, e) => e.lost?

theorem History.lost_cons_none {p : Point σ} (h : e.lost? = none) (hist : History σ) :
    History.lost ((p, e) :: hist) = hist.lost :=
  List.filterMap_cons_none h

/-- What is loading, and which loaders are in progress or were given up, change together. -/
theorem Moves.loading {p q : Point σ} {hist : History σ} (h : Moves p e q)
    (hnodup : (p.loaders ++ hist.lost).Nodup)
    (hloading : ∀ i, p.machine.modules.Loading i ↔ i ∈ p.loaders ++ hist.lost) :
    (q.loaders ++ History.lost ((p, e) :: hist)).Nodup ∧
      ∀ i, q.machine.modules.Loading i ↔ i ∈ q.loaders ++ History.lost ((p, e) :: hist) := by
  obtain ⟨hmodules, hloaders, hlost⟩ | ⟨name, body, rfl, htasks, hmodules⟩ |
    ⟨handle, name, v, rfl, htasks, -, hmodules⟩ | ⟨name, index, handle, body, rfl, htasks,
      hlookup, hmodules⟩ |
    ⟨name, index, body, rfl, htasks, hmodules⟩ | ⟨name, index, body, rfl, htasks, hmodules⟩ :=
      h.modules_cases
  · rw [History.lost_cons_none hlost, hloaders, hmodules]
    exact ⟨hnodup, hloading⟩
  · have hloaders : q.loaders = p.loaders := congrArg (List.filterMap _) htasks
    rw [History.lost_cons_none rfl, hloaders, hmodules]
    exact ⟨hnodup, fun i => (Registry.loading_addLoader name body).trans (hloading i)⟩
  · have hloaders : q.loaders = p.loaders := congrArg (List.filterMap _) htasks
    rw [History.lost_cons_none rfl, hloaders, hmodules]
    exact ⟨hnodup, fun i => (Registry.loading_install handle name v).trans (hloading i)⟩
  · have hloaders : q.loaders = index :: p.loaders := congrArg (List.filterMap _) htasks
    rw [History.lost_cons_none rfl, hloaders, hmodules]
    -- The module was registered, so its loader is neither in progress nor given up.
    have hfresh : index ∉ p.loaders ++ hist.lost := by
      intro hmem
      obtain ⟨e, he, hstatus⟩ := (hloading index).2 hmem
      obtain ⟨e', he', hstate, -⟩ := Registry.of_lookup hlookup
      obtain rfl := Option.some.inj (he.symm.trans he')
      rw [hstate] at hstatus
      cases hstatus
    refine ⟨List.nodup_cons.2 ⟨hfresh, hnodup⟩,
      fun i => (Registry.loading_beginLoad hlookup).trans ?_⟩
    rw [hloading, List.cons_append, List.mem_cons]
  · have hloaders : p.loaders = index :: q.loaders := congrArg (List.filterMap _) htasks
    rw [History.lost_cons_none rfl, hmodules]
    rw [hloaders, List.cons_append, List.nodup_cons] at hnodup
    refine ⟨hnodup.2, fun i => Registry.loading_finishLoad.trans ?_⟩
    rw [hloading, hloaders, List.cons_append, List.mem_cons]
    constructor
    · rintro ⟨hne, hi⟩
      exact hi.resolve_left hne
    · intro hi
      exact ⟨fun heq => hnodup.1 (heq ▸ hi), .inr hi⟩
  · have hloaders : p.loaders = index :: q.loaders := congrArg (List.filterMap _) htasks
    have hlost : History.lost ((p, .abandoned (.loader name index body)) :: hist) =
      index :: hist.lost := rfl
    have hperm : (p.loaders ++ hist.lost).Perm (q.loaders ++ index :: hist.lost) := by
      rw [hloaders]
      exact List.perm_middle.symm
    rw [hlost, hmodules]
    exact ⟨hperm.nodup_iff.1 hnodup, fun i => (hloading i).trans hperm.mem_iff⟩

/-- No module is loading, no handle whatsoever lets a function be installed, and no import is
cyclic. -/
structure Machine.Sealed (m : Machine σ) : Prop where
  rests : ∀ i, ¬ m.modules.Loading i
  refuses : ∀ handle name arity body,
    m.setFunction handle name arity body = (.error .invalidModuleHandle, m)
  acyclic : ∀ name, m.modules.lookup name ≠ .cyclic

variable {options : Options} {host : σ}

namespace Machine

variable {i : Nat} {e : ModuleEntry (Loader σ)}

/-- A new machine has no modules. -/
theorem modules_new : (Machine.new options host).modules.entries[i]? ≠ some e := by
  intro he
  cases he

/-- The first module of a new machine can be loaded. -/
theorem lookup_addLoader_new (name : String) (loader : Loader σ) :
    ((Machine.new options host).addLoader name loader).modules.lookup name =
      .load 0 ⟨0, 0⟩ loader := by
  have hnone : (Machine.new options host).modules = {} := rfl
  simp [addLoader, hnone, Registry.addLoader, Registry.index?, Registry.lookup]

/-- Its first loader is the only one. -/
theorem eq_of_registered_new {name : String} {loader body : Loader σ}
    (he : ((Machine.new options host).addLoader name loader).modules.entries[i]? = some e)
    (hstate : e.state = .registered body) : i = 0 ∧ body = loader := by
  have hnone : (Machine.new options host).modules = {} := rfl
  simp only [addLoader, hnone, Registry.addLoader, Registry.index?, Array.findIdx?_empty] at he
  cases i with
  | zero =>
    cases he
    exact ⟨rfl, (ModuleState.registered.inj hstate).symm⟩
  | succ i => cases he

end Machine

namespace Path

variable {hist : History σ} {q : Point σ}

/-- **A module is loading** exactly if its loader is in progress or was given up. -/
theorem loading_iff (h : Path (.new options host) hist q) (i : Nat) :
    q.machine.modules.Loading i ↔ i ∈ q.loaders ++ hist.lost := by
  suffices hinv : (q.loaders ++ hist.lost).Nodup ∧
      ∀ i, q.machine.modules.Loading i ↔ i ∈ q.loaders ++ hist.lost from hinv.2 i
  induction h with
  | start =>
    refine ⟨List.nodup_nil, fun i => iff_of_false ?_ List.not_mem_nil⟩
    rintro ⟨e, he, -⟩
    exact Machine.modules_new he
  | move _ moves ih => exact moves.loading ih.1 ih.2

/-- **When no loader is in progress**, handles are of no use and imports are not cyclic exactly as
long as no loader was given up. -/
theorem sealed_iff (h : Path (.new options host) hist q) (hrest : q.loaders = []) :
    q.machine.Sealed ↔ hist.lost = [] := by
  have hloading := h.loading_iff
  rw [hrest, List.nil_append] at hloading
  constructor
  · intro hsealed
    exact List.eq_nil_iff_forall_not_mem.2 fun i hi => hsealed.rests i ((hloading i).2 hi)
  · intro hlost
    have hnone : ∀ i, ¬ q.machine.modules.Loading i := by
      intro i hi
      rw [hloading, hlost] at hi
      cases hi
    refine ⟨hnone, fun handle name arity body => ?_, Registry.lookup_ne_cyclic hnone⟩
    unfold Machine.setFunction
    rw [Registry.accepts_eq_false hnone handle]
    rfl

/-- A guarded evaluation imports a module whose loader gives up. -/
theorem sealed_iff_unwinding : ∃ (hist : History Unit) (q : Point Unit),
    Path (.new {} ()) hist q ∧ q.tasks = [] ∧ q.unwinding = false ∧ hist.lost = [0] ∧
    ¬ q.machine.Sealed := by
  let body : Loader Unit := fun _ => .unwind
  let m : Machine Unit := .new {} ()
  have hlookup : (m.addLoader "m" body).modules.lookup "m" = .load 0 ⟨0, 0⟩ body :=
    Machine.lookup_addLoader_new _ _
  have hregister : Path (.new {} ()) _ ⟨[], false, m.addLoader "m" body⟩ :=
    Path.start.move (.register hostTurn_nil "m" body)
  have hload := (hregister.move (.evaluate hostTurn_nil true rfl)).move (.load hlookup)
  have hgone := (hload.move (.unwind trivial)).move (.abandon _ (by simp))
  have hrecover := (hgone.move (.abandon _ (by simp))).move .recover
  refine ⟨_, _, hrecover, rfl, rfl, rfl, fun hsealed => ?_⟩
  cases (sealed_iff hrecover rfl).1 hsealed

end Path

end ScriptMachine
