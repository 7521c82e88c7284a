import ScriptMachine.Proofs.Lifecycle
import ScriptMachine.Proofs.Scoping
/-!
# Loaders that only install functions

What such loaders do to the modules depends on the names of functions only. So the modules that a
program finds are told by the order in which they were loaded.

* `Host.Furnishes`: host programs that do nothing with a machine but install functions;
* `Machine.loadModule_cases`: when a module can be loaded, and what is there afterwards.
-/

namespace ScriptMachine

/-! ## Modules -/

namespace ModuleEntry

variable {l : Type}

/-- A module without the values of its functions. -/
def outline (e : ModuleEntry l) : ModuleEntry l :=
  { e with functions := e.functions.map fun f => (f.1, .none) }

/-- What an import finds at a place. -/
def found (e : ModuleEntry l) (index : Nat) : Registry.Import l :=
  match e.state with
  | .loaded => .ready index
  | .loading => .cyclic
  | .registered loader => .load index ⟨UInt32.ofNat index, e.generation⟩ loader

end ModuleEntry

variable {index : Nat}

namespace Registry

variable {l : Type} {r : Registry l} {name : String}

theorem lookup_eq (r : Registry l) (name : String) :
    r.lookup name = ((r.index? name).bind fun i => r.entries[i]?.map (·.found i)).getD
      .unknown := by
  unfold lookup
  cases r.index? name with
  | none => rfl
  | some i =>
    dsimp only [Option.bind_some]
    cases r.entries[i]? with
    | none | some e => rfl

/-- A module of this name can be imported. -/
def Offers (r : Registry l) (name : String) : Prop := (r.status? name).any (· ≠ .loading)

theorem offers_iff : r.Offers name ↔ r.lookup name ≠ .unknown ∧ r.lookup name ≠ .cyclic := by
  rw [lookup_eq, Offers, status?_eq, state?]
  cases r.index? name with
  | none => simp
  | some i =>
    cases he : r.entries[i]? with
    | none => simp [he]
    | some e => cases hstate : e.state <;> simp [he, hstate, ModuleEntry.found, ModuleState.status]

/-! ### Changes of one module -/

section Modify

variable {f : ModuleEntry l → ModuleEntry l} {i : Nat}

theorem lookup_modify (hname : ∀ e, (f e).name = e.name) (hfound : ∀ e, (f e).found i = e.found i) :
    ({ entries := r.entries.modify i f } : Registry l).lookup name = r.lookup name := by
  rw [lookup_eq, lookup_eq, index?_modify hname]
  congr 2
  funext j
  rw [Array.getElem?_modify]
  split
  · rename_i hj
    subst hj
    cases r.entries[i]? with
    | none => rfl
    | some e => exact congrArg some (hfound e)
  · rfl

theorem lookup_modify_of_ne (hname : ∀ e, (f e).name = e.name) (hi : r.index? name ≠ some i) :
    ({ entries := r.entries.modify i f } : Registry l).lookup name = r.lookup name := by
  rw [lookup_eq, lookup_eq, index?_modify hname]
  cases hindex : r.index? name with
  | none => rfl
  | some j =>
    have hj : i ≠ j := fun hij => hi (by rw [hindex, hij])
    simp only [Option.bind_some, Array.getElem?_modify, if_neg hj]

theorem outline_modify {g : ModuleEntry l → ModuleEntry l} (h : ∀ e, (f e).outline = g e.outline) :
    ({ entries := r.entries.modify i f } : Registry l).entries.map ModuleEntry.outline =
      (r.entries.map ModuleEntry.outline).modify i g := by
  refine Array.ext_getElem? fun j => ?_
  simp only [Array.getElem?_map, Array.getElem?_modify]
  split
  · cases r.entries[j]? with
    | none => rfl
    | some e => exact congrArg some (h e)
  · rfl

end Modify

theorem index?_install (r : Registry l) (handle : ModuleHandle) (function : String) (v : Value)
    (name : String) : (r.install handle function v).index? name = r.index? name := by
  refine index?_modify ?_ _
  exact fun _ => rfl

theorem index?_beginLoad (r : Registry l) (index : Nat) (name : String) :
    (r.beginLoad index).index? name = r.index? name := by
  refine index?_modify ?_ _
  exact fun _ => rfl

theorem index?_finishLoad (r : Registry l) (index : Nat) (name : String) :
    (r.finishLoad index).index? name = r.index? name := by
  refine index?_modify ?_ _
  exact fun _ => rfl

theorem lookup_install (r : Registry l) (handle : ModuleHandle) (function : String) (v : Value)
    (name : String) : (r.install handle function v).lookup name = r.lookup name := by
  unfold install
  exact lookup_modify (fun _ => rfl) fun _ => rfl

theorem lookup_beginLoad (h : r.index? name ≠ some index) :
    (r.beginLoad index).lookup name = r.lookup name := by
  unfold beginLoad
  exact lookup_modify_of_ne (fun _ => rfl) h

theorem lookup_finishLoad_of_ne (h : r.index? name ≠ some index) :
    (r.finishLoad index).lookup name = r.lookup name := by
  unfold finishLoad
  exact lookup_modify_of_ne (fun _ => rfl) h

/-! ### Modules without values -/

/-- The modules without the values of their functions. -/
def outline (r : Registry l) : Registry l := { entries := r.entries.map ModuleEntry.outline }

variable (r : Registry l)

theorem index?_outline (name : String) : r.outline.index? name = r.index? name := by
  rw [index?_eq, index?_eq, outline, Array.map_map]
  rfl

theorem lookup_outline (name : String) : r.outline.lookup name = r.lookup name := by
  rw [lookup_eq, lookup_eq, index?_outline]
  congr 2
  funext i
  rw [outline, Array.getElem?_map, Option.map_map]
  rfl

theorem accepts_outline (handle : ModuleHandle) : r.outline.accepts handle = r.accepts handle := by
  unfold accepts outline
  rw [Array.getElem?_map]
  cases r.entries[handle.index.toNat]? <;> rfl

theorem isSome_function?_outline (index : Nat) (id : String) :
    (r.outline.function? index id).isSome = (r.function? index id).isSome := by
  unfold function? outline
  rw [Array.getElem?_map]
  cases r.entries[index]? with
  | none => rfl
  | some e => simp [ModuleEntry.outline, Function.comp_def]

theorem outline_install (handle : ModuleHandle) (name : String) (v : Value) :
    (r.install handle name v).outline = r.outline.install handle name .none := by
  refine congrArg Registry.mk (outline_modify fun e => ?_)
  simp [ModuleEntry.outline, List.filter_map, Function.comp_def]

theorem outline_beginLoad (index : Nat) : (r.beginLoad index).outline = r.outline.beginLoad index :=
  congrArg Registry.mk (outline_modify fun _ => rfl)

theorem outline_finishLoad (index : Nat) :
    (r.finishLoad index).outline = r.outline.finishLoad index :=
  congrArg Registry.mk (outline_modify fun _ => rfl)

end Registry

variable {σ : Type}

/-! ## Loaders -/

/-- A host program that does nothing with the machine but install functions. -/
inductive Host.Furnishes : Host σ → Prop
  | finish (v : Value) : Furnishes (.finish v)
  | read {next : σ → Host σ} (rest : ∀ s, Furnishes (next s)) : Furnishes (.read next)
  | write (s : σ) {next : Host σ} (rest : Furnishes next) : Furnishes (.write s next)
  | setFunction (handle : ModuleHandle) (name : String) (arity : Nat) (body : Native σ)
    {next : Except Failure Unit → Host σ} (rest : ∀ result, Furnishes (next result)) :
    Furnishes (.setFunction handle name arity body next)

namespace Machine

/-- Every loader that an import may start does nothing but install functions. -/
def LoadersFurnish (m : Machine σ) : Prop :=
  ∀ ⦃name index handle loader⦄, m.modules.lookup name = .load index handle loader →
    (loader handle).Furnishes

/-- A loader that only installs functions sees no difference between two machines. -/
structure Resembles (m n : Machine σ) : Prop where
  host : m.host = n.host
  outline : m.modules.outline = n.modules.outline

/-- Nothing has changed that loaders do not change, and imports still find the same. -/
structure Furnished (m n : Machine σ) : Prop where
  globals : n.globals = m.globals
  imports : n.imports = m.imports
  index : ∀ name, n.modules.index? name = m.modules.index? name
  lookup : ∀ name, n.modules.lookup name = m.modules.lookup name

variable {m n k : Machine σ}

theorem Furnished.refl (m : Machine σ) : m.Furnished m := ⟨rfl, rfl, fun _ => rfl, fun _ => rfl⟩

theorem Furnished.trans (h : m.Furnished n) (h' : n.Furnished k) : m.Furnished k where
  globals := h'.globals.trans h.globals
  imports := h'.imports.trans h.imports
  index name := (h'.index name).trans (h.index name)
  lookup name := (h'.lookup name).trans (h.lookup name)

theorem furnished_setFunction (m : Machine σ) (handle : ModuleHandle) (name : String) (arity : Nat)
    (body : Native σ) : m.Furnished (m.setFunction handle name arity body).2 := by
  unfold setFunction
  split
  · exact ⟨rfl, rfl, Registry.index?_install _ _ _ _, Registry.lookup_install _ _ _ _⟩
  · exact .refl m

theorem Resembles.setFunction (h : m.Resembles n) (handle : ModuleHandle) (name : String)
    (arity : Nat) (body : Native σ) :
    (m.setFunction handle name arity body).1 = (n.setFunction handle name arity body).1 ∧
      (m.setFunction handle name arity body).2.Resembles
        (n.setFunction handle name arity body).2 := by
  have haccepts : m.modules.accepts handle = n.modules.accepts handle := by
    rw [← Registry.accepts_outline, h.outline, Registry.accepts_outline]
  unfold Machine.setFunction
  rw [haccepts]
  split
  · refine ⟨rfl, h.host, ?_⟩
    show (m.modules.install handle name _).outline = (n.modules.install handle name _).outline
    rw [Registry.outline_install, Registry.outline_install, h.outline]
  · exact ⟨rfl, h⟩

end Machine

/-- Loaders that only install functions end, in the same way on machines that they cannot tell
apart. -/
theorem Host.Furnishes.interpret {h : Host σ} (hfurnishes : h.Furnishes) (call : Callback σ)
    (fuel : Nat) {m n : Machine σ} (hmn : m.Resembles n) :
    ∃ v m' n', h.interpret call fuel m = .ok v m' ∧ h.interpret call fuel n = .ok v n' ∧
      m'.Resembles n' ∧ m.Furnished m' := by
  induction hfurnishes generalizing m n with
  | finish v => exact ⟨v, m, n, rfl, rfl, hmn, .refl m⟩
  | read rest ih =>
    obtain ⟨v, m', n', hm, hn, h'⟩ := ih m.host hmn
    exact ⟨v, m', n', hm, by rwa [hmn.host] at hn, h'⟩
  | write s rest ih =>
    obtain ⟨v, m', n', hm, hn, h', hfurnished⟩ :=
      @ih { m with host := s } { n with host := s } ⟨rfl, hmn.outline⟩
    exact ⟨v, m', n', hm, hn, h', { hfurnished with }⟩
  | setFunction handle name arity body rest ih =>
    obtain ⟨hresult, hmn'⟩ := hmn.setFunction handle name arity body
    obtain ⟨v, m', n', hm, hn, h', hfurnished⟩ := ih (m.setFunction handle name arity body).1 hmn'
    rw [hresult] at hn
    exact ⟨v, m', n', hm, hn, h', (m.furnished_setFunction handle name arity body).trans hfurnished⟩

/-! ## Imports -/

namespace Machine

/-- One machine comes from another in the course of a compilation. Modules may have been loaded. -/
structure Succeeds (n m : Machine σ) : Prop where
  globals : n.globals = m.globals
  imports : n.imports = m.imports
  index : ∀ name, n.modules.index? name = m.modules.index? name
  offers : ∀ name, n.modules.Offers name ↔ m.modules.Offers name
  loads : ∀ ⦃name index handle loader⦄, n.modules.lookup name = .load index handle loader →
    m.modules.lookup name = .load index handle loader
  ready : ∀ ⦃name index⦄, m.modules.lookup name = .ready index →
    n.modules.lookup name = .ready index

variable {m n k : Machine σ} {name : String}

theorem Succeeds.refl (m : Machine σ) : m.Succeeds m :=
  ⟨rfl, rfl, fun _ => rfl, fun _ => .rfl, fun _ _ _ _ h => h, fun _ _ h => h⟩

theorem Succeeds.trans (h : n.Succeeds m) (h' : k.Succeeds n) : k.Succeeds m where
  globals := h'.globals.trans h.globals
  imports := h'.imports.trans h.imports
  index name := (h'.index name).trans (h.index name)
  offers name := (h'.offers name).trans (h.offers name)
  loads _ _ _ _ hlookup := h.loads (h'.loads hlookup)
  ready _ _ hlookup := h'.ready (h.ready hlookup)

theorem succeeds_alloc (m : Machine σ) (o : Object (Native σ)) : (m.alloc o).2.Succeeds m :=
  { Succeeds.refl m with }

theorem LoadersFurnish.of_succeeds (h : m.LoadersFurnish) (hn : n.Succeeds m) : n.LoadersFurnish :=
  fun _ _ _ _ hlookup => h (hn.loads hlookup)

theorem Resembles.alloc (h : m.Resembles n) (o : Object (Native σ)) : (m.alloc o).2.Resembles n :=
  ⟨h.host, h.outline⟩

theorem Resembles.lookup (h : m.Resembles n) (name : String) :
    m.modules.lookup name = n.modules.lookup name := by
  rw [← Registry.lookup_outline, h.outline, Registry.lookup_outline]

/-- A loader has run: its module is loaded, and the others are as they were. -/
theorem succeeds_of_load {handle : ModuleHandle} {loader : Loader σ}
    (hlookup : m.modules.lookup name = .load index handle loader)
    (hn : Furnished (m.beginLoad index) n) : (n.finishLoad index).Succeeds m := by
  obtain ⟨hindex, -⟩ := Registry.of_lookup_load hlookup
  have hindex' (other : String) : n.modules.index? other = m.modules.index? other :=
    (hn.index other).trans (Registry.index?_beginLoad _ _ _)
  have hself : (n.modules.finishLoad index).lookup name = .ready index :=
    Registry.lookup_finishLoad (by rw [Registry.index?_finishLoad, hindex', hindex])
  have hother {other : String} (hne : other ≠ name) :
      (n.modules.finishLoad index).lookup other = m.modules.lookup other := by
    have hplace : m.modules.index? other ≠ some index := fun h => hne (Registry.index?_inj hindex h)
    calc (n.modules.finishLoad index).lookup other
        = n.modules.lookup other := Registry.lookup_finishLoad_of_ne (by rwa [hindex'])
      _ = (m.modules.beginLoad index).lookup other := hn.lookup other
      _ = m.modules.lookup other := Registry.lookup_beginLoad hplace
  refine ⟨hn.globals, hn.imports,
    fun other => (Registry.index?_finishLoad _ _ _).trans (hindex' other),
    fun other => ?_, fun other i handle' loader' h => ?_, fun other i h => ?_⟩
  · by_cases hname : other = name
    · subst hname
      simp [Registry.offers_iff, hself, hlookup]
    · rw [Registry.offers_iff, Registry.offers_iff, hother hname]
  · by_cases hname : other = name
    · subst hname
      exact nomatch hself.symm.trans h
    · exact (hother hname).symm.trans h
  · by_cases hname : other = name
    · subst hname
      exact nomatch hlookup.symm.trans h
    · exact (hother hname).trans h

/-- What happens when a module is imported, on machines that loaders cannot tell apart. -/
theorem Resembles.loadModule (hm : m.LoadersFurnish) (h : m.Resembles n) (fuel : Nat)
    (name : String) : (m.loadModule (Host.run (fuel + 1)) name).Resembles
      (n.loadModule (Host.run (fuel + 1)) name) ∧
      (m.loadModule (Host.run (fuel + 1)) name).Succeeds m := by
  unfold Machine.loadModule
  rw [← h.lookup name]
  cases hlookup : m.modules.lookup name with
  | unknown | cyclic | ready index => exact ⟨h, .refl m⟩
  | load index handle loader =>
    have hbegin : Resembles (m.beginLoad index) (n.beginLoad index) :=
      ⟨h.host, by rw [Registry.outline_beginLoad, Registry.outline_beginLoad, h.outline]⟩
    obtain ⟨v, m', n', hm', hn', h', hfurnished⟩ :=
      (hm hlookup).interpret (Host.run fuel) fuel hbegin
    dsimp only [Host.run]
    rw [hm', hn']
    refine ⟨⟨h'.host, ?_⟩, succeeds_of_load hlookup hfurnished⟩
    show (m'.modules.finishLoad index).outline = (n'.modules.finishLoad index).outline
    rw [Registry.outline_finishLoad, Registry.outline_finishLoad, h'.outline]

theorem loadModule_of_ready (h : m.modules.lookup name = .ready index) (call : Callback σ) :
    m.loadModule call name = m := by
  unfold Machine.loadModule
  rw [h]

/-- A module can be imported exactly if it is registered and not in the middle of loading. -/
theorem loadModule_cases (hm : m.LoadersFurnish) (fuel : Nat) (name : String) (pos : Position)
    (b : Build) : (¬ m.modules.Offers name ∧ ∃ e,
      Compile.loadModule (Host.run (fuel + 1)) name pos b m = .failed e m) ∨
      m.modules.Offers name ∧ ∃ index, m.modules.index? name = some index ∧
        (m.loadModule (Host.run (fuel + 1)) name).modules.lookup name = .ready index ∧
        Compile.loadModule (Host.run (fuel + 1)) name pos b m =
          .ok (index, b) (m.loadModule (Host.run (fuel + 1)) name) := by
  rw [Link.loadModule_apply, Registry.offers_iff]
  unfold Machine.loadModule
  cases hlookup : m.modules.lookup name with
  | unknown | cyclic => exact .inl ⟨by simp, _, rfl⟩
  | ready index =>
    exact .inr ⟨by simp, index, (Registry.lookup_eq_ready_iff.1 hlookup).1, hlookup, rfl⟩
  | load index handle loader =>
    obtain ⟨hindex, -⟩ := Registry.of_lookup_load hlookup
    obtain ⟨v, n, -, hrun, -, -, hn⟩ := (hm hlookup).interpret (Host.run fuel) fuel
      (m := m.beginLoad index) ⟨rfl, rfl⟩
    have hready : (n.modules.finishLoad index).lookup name = .ready index := by
      refine Registry.lookup_finishLoad ?_
      rw [Registry.index?_finishLoad, hn.index, Registry.index?_beginLoad, hindex]
    dsimp only [Host.run]
    rw [hrun]
    exact .inr ⟨by simp, index, hindex, hready, rfl⟩

end Machine

end ScriptMachine
