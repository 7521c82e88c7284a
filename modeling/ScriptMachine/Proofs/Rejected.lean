import ScriptMachine.Proofs.Dangling
import ScriptMachine.Proofs.Instructions
import ScriptMachine.Proofs.Retention
/-!
# Programs that are rejected

A program that does not compile leaves a machine as it was: variables and imports are put in place
at the end of a compilation only, and what was made for it is garbage. But modules that it imports
may have been loaded on the way, and a module whose loader was given up takes functions for good.

* `Machine.Restores`: nothing has changed but modules that were loaded, or were loading already;
* `Path.restores_of_rejected`: **a rejected program leaves no other trace**.
-/

namespace ScriptMachine

variable {σ : Type}

/-! ## Loaders -/

/-- A host program that does nothing with the machine but install functions, through whichever
handles. -/
inductive Host.Installs : Host σ → Prop
  | finish (v : Value) : Installs (.finish v)
  | unwind : Installs .unwind
  | read {next : σ → Host σ} (rest : ∀ s, Installs (next s)) : Installs (.read next)
  | write (s : σ) {next : Host σ} (rest : Installs next) : Installs (.write s next)
  | setFunction (handle : ModuleHandle) (name : String) (arity : Nat) (body : Native σ)
    {next : Except Failure Unit → Host σ} (rest : ∀ result, Installs (next result)) :
    Installs (.setFunction handle name arity body next)

/-- The loaders that are still to run do nothing but install functions. -/
def Machine.LoadersInstall (m : Machine σ) : Prop :=
  ∀ (i : Nat) e body, m.modules.entries[i]? = some e → e.state = .registered body →
    (body ⟨UInt32.ofNat i, e.generation⟩).Installs

/-! ## What a compilation does -/

/-- A value is a native function. -/
def Heap.IsNative {ν : Type} (h : Heap ν) (v : Value) : Prop :=
  ∃ id f, v.asObject? = some id ∧ h.get? id = some (.native f)

namespace ModuleEntry

variable {l ν : Type} {h : Heap ν} {imports : List String} {busy : Prop} {e e' : ModuleEntry l}

/-- A module is as it was; or it was imported and is loaded by now, or about to be; or it was
loading all the time, and has got functions through a handle that was given out before, some of them
in place of others. -/
inductive Becomes (h : Heap ν) (imports : List String) (busy : Prop) (e : ModuleEntry l) :
    ModuleEntry l → Prop
  | same : Becomes h imports busy e e
  | loads {e' : ModuleEntry l} (imported : e.name ∈ imports) (before : e.state.status = .registered)
    (name : e'.name = e.name) (after : e'.state = .loaded ∨ busy ∧ e'.state = .loading)
    (functions : ∀ f ∈ e'.functions, h.IsNative f.2) : Becomes h imports busy e e'
  | gains {functions : List (String × Value)} (before : e.state.status = .loading)
    (new : ∀ f ∈ functions, f ∈ e.functions ∨ h.IsNative f.2)
    (old : ∀ f ∈ e.functions, f ∈ functions ∨ ∃ g ∈ functions, g.1 = f.1 ∧ h.IsNative g.2) :
    Becomes h imports busy e { e with functions }

theorem Becomes.mono {h' : Heap ν} {busy' : Prop} (hb : e.Becomes h imports busy e')
    (hnative : ∀ f ∈ e'.functions, h.IsNative f.2 → h'.IsNative f.2) (hbusy : busy → busy') :
    e.Becomes h' imports busy' e' := by
  cases hb with
  | same => exact .same
  | loads imported before name after functions =>
    exact .loads imported before name (after.imp_right fun h => ⟨hbusy h.1, h.2⟩) fun f hf =>
      hnative f hf (functions f hf)
  | gains before new old =>
    refine .gains before (fun f hf => (new f hf).imp_right (hnative f hf)) fun f hf =>
      (old f hf).imp_right ?_
    exact fun ⟨g, hg, hname, hn⟩ => ⟨g, hg, hname, hnative g hg hn⟩

/-- A module that is loading gets a native function. -/
theorem Becomes.install (hb : e.Becomes h imports busy e') (hstatus : e'.state.status = .loading)
    (name : String) {v : Value} (hv : h.IsNative v) :
    e.Becomes h imports busy { e' with
      functions := (name, v) :: e'.functions.filter (·.1 != name) } := by
  have hgains {functions : List (String × Value)} (before : e.state.status = .loading)
      (new : ∀ f ∈ functions, f ∈ e.functions ∨ h.IsNative f.2)
      (old : ∀ f ∈ e.functions, f ∈ functions ∨ ∃ g ∈ functions, g.1 = f.1 ∧ h.IsNative g.2) :
      e.Becomes h imports busy { e with
          functions := (name, v) :: functions.filter (·.1 != name) } := by
    refine .gains before (fun f hf => ?_) fun f hf => ?_
    · rcases List.mem_cons.1 hf with rfl | hf
      · exact .inr hv
      · exact new f (List.mem_filter.1 hf).1
    · by_cases hname : f.1 = name
      · exact .inr ⟨_, List.mem_cons_self, hname.symm, hv⟩
      · have hkept {g : String × Value} (hg : g ∈ functions) (hgf : g.1 = f.1) :
            g ∈ (name, v) :: functions.filter (·.1 != name) :=
          List.mem_cons_of_mem _ (List.mem_filter.2 ⟨hg, by simpa [hgf] using hname⟩)
        rcases old f hf with hf | ⟨g, hg, hgf, hn⟩
        · exact .inl (hkept hf rfl)
        · exact .inr ⟨g, hkept hg hgf, hgf, hn⟩
  cases hb with
  | same => exact hgains hstatus (fun f hf => .inl hf) fun f hf => .inl hf
  | gains before new old => exact hgains before new old
  | loads imported before ename after functions =>
    refine .loads imported before ename after fun f hf => ?_
    rcases List.mem_cons.1 hf with rfl | hf
    · exact hv
    · exact functions f (List.mem_filter.1 hf).1

end ModuleEntry

namespace Machine

/-- What a compilation has done to a machine so far; one of the modules that it imports may be
loading. -/
structure Pending (m : Machine σ) (names : List String) (current : Option Nat) (n : Machine σ) :
    Prop where
  globals : n.globals = m.globals
  imports : n.imports = m.imports
  stack : n.stack = m.stack
  frames : n.frames = m.frames
  tidy : n.heap.Tidy
  keeps : m.heap.Keeps n.heap
  pins : ∀ id, n.heap.pins id = m.heap.pins id
  size : n.modules.entries.size = m.modules.entries.size
  modules : ∀ (i : Nat) e, m.modules.entries[i]? = some e → ∃ e', n.modules.entries[i]? = some e' ∧
    e.Becomes n.heap names (current = some i) e'
  loading : ∀ i, current = some i →
    ∃ e, m.modules.entries[i]? = some e ∧ e.name ∈ names ∧ e.state.status = .registered

namespace Pending

variable {m n : Machine σ} {names : List String} {current : Option Nat}

theorem refl (ht : m.heap.Tidy) : m.Pending names none m where
  globals := rfl
  imports := rfl
  stack := rfl
  frames := rfl
  tidy := ht
  keeps := .refl _
  pins _ := rfl
  size := rfl
  modules _ e he := ⟨e, he, .same⟩
  loading _ h := nomatch h

/-- New objects change nothing that was there. -/
theorem alloc (h : m.Pending names current n) {o : Object (Native σ)}
    (hfits : (n.alloc o).2.heap.Fits) : m.Pending names current (n.alloc o).2 := by
  have hkeeps : n.heap.Keeps (n.alloc o).2.heap := h.tidy.keeps_alloc hfits
  refine { h with
    tidy := h.tidy.alloc o, keeps := h.keeps.trans hkeeps, pins := fun id => ?_, modules := ?_ }
  · exact (h.tidy.pins_alloc hfits id).trans (h.pins id)
  · intro i e he
    obtain ⟨e', he', hbecomes⟩ := h.modules i e he
    exact ⟨e', he', hbecomes.mono (fun _ _ ⟨id, g, hid, hg⟩ => ⟨id, g, hid, hkeeps id _ hg⟩) id⟩

/-- A change of one module. -/
theorem setModule (h : m.Pending names current n) {current' : Option Nat} {i : Nat}
    {f : ModuleEntry (Loader σ) → ModuleEntry (Loader σ)}
    (hmodule : ∀ e e', m.modules.entries[i]? = some e → n.modules.entries[i]? = some e' →
      e.Becomes n.heap names (current = some i) e' →
      e.Becomes n.heap names (current' = some i) (f e'))
    (hother : ∀ j, j ≠ i → current = some j → current' = some j)
    (hloading : ∀ i, current' = some i →
      ∃ e, m.modules.entries[i]? = some e ∧ e.name ∈ names ∧ e.state.status = .registered) :
    m.Pending names current' { n with modules := { entries := n.modules.entries.modify i f } } := by
  refine { h with size := Array.size_modify.trans h.size, modules := ?_, loading := hloading }
  intro j e he
  obtain ⟨e', he', hbecomes⟩ := h.modules j e he
  rw [Array.getElem?_modify]
  split
  · rename_i hij
    subst hij
    exact ⟨f e', by rw [he']; rfl, hmodule e e' he he' hbecomes⟩
  · rename_i hij
    exact ⟨e', he', hbecomes.mono (fun _ _ hn => hn) (hother j (Ne.symm hij))⟩

/-- Every module was there before. -/
theorem module_before (h : m.Pending names current n) {i : Nat} {e' : ModuleEntry (Loader σ)}
    (he' : n.modules.entries[i]? = some e') :
    ∃ e, m.modules.entries[i]? = some e ∧ e.Becomes n.heap names (current = some i) e' := by
  have hlt : i < m.modules.entries.size := by
    rw [← h.size]
    exact (Array.getElem?_eq_some_iff.1 he').1
  obtain ⟨e₁, he₁, hbecomes⟩ := h.modules i _ (Array.getElem?_eq_getElem hlt)
  obtain rfl := Option.some.inj (he'.symm.trans he₁)
  exact ⟨_, Array.getElem?_eq_getElem hlt, hbecomes⟩

section

variable {index : Nat} {handle : ModuleHandle}

/-- A module that the program imports is about to be loaded. -/
theorem beginLoad (h : m.Pending names none n) {name : String} {body : Loader σ}
    (hname : name ∈ names) (hvacant : m.modules.Vacant)
    (hlookup : n.modules.lookup name = .load index handle body) :
    (∃ e, m.modules.entries[index]? = some e ∧ e.state = .registered body ∧
      handle = ⟨UInt32.ofNat index, e.generation⟩) ∧
    m.Pending names (some index) (n.beginLoad index) := by
  obtain ⟨e, he, hstate, rfl, hhandle⟩ := Registry.of_lookup hlookup
  obtain ⟨e₀, he₀, hbecomes⟩ := h.module_before he
  -- a module that is registered now was not touched before
  have hm : m.modules.entries[index]? = some e := by
    cases hbecomes with
    | same => exact he₀
    | loads imported before name after functions =>
      rcases after with after | ⟨-, after⟩ <;> rw [hstate] at after <;> cases after
    | gains before new old => rw [show e₀.state = _ from hstate] at before; cases before
  have hstatus : e.state.status = .registered := by rw [hstate]; rfl
  refine ⟨⟨e, hm, hstate, hhandle⟩, h.setModule ?_ (fun _ _ h => nomatch h) ?_⟩
  · intro e₁ e₂ he₁ he₂ _
    obtain rfl := Option.some.inj (hm.symm.trans he₁)
    obtain rfl := Option.some.inj (he.symm.trans he₂)
    refine .loads hname hstatus rfl (.inr ⟨rfl, rfl⟩) fun f hf => ?_
    rw [hvacant index e hm hstatus] at hf
    cases hf
  · intro i hi
    obtain rfl := Option.some.inj hi
    exact ⟨e, hm, hname, hstatus⟩

/-- A loader installs a function, or tries to. -/
theorem setFunction (h : n.heap.Fits → m.Pending names current n) (name : String) (arity : Nat)
    (body : Native σ) (hfits : (n.setFunction handle name arity body).2.heap.Fits) :
    m.Pending names current (n.setFunction handle name arity body).2 := by
  unfold Machine.setFunction at hfits ⊢
  split at hfits <;> rename_i haccepts
  · rw [if_pos haccepts]
    have hn : m.Pending names current n :=
      h (hfits.of_le (n.heap.size_le_alloc (.native ⟨name, arity, body⟩)))
    have halloc := hn.alloc hfits
    refine halloc.setModule (fun e e' _ he' hbecomes => ?_) (fun _ _ h => h) halloc.loading
    exact hbecomes.install (Registry.status_of_accepts haccepts he') name
      ⟨_, _, Value.asObject?_ofObject _, hn.tidy.get?_alloc_self hfits⟩
  · rw [if_neg haccepts]
    exact h hfits

end

/-- The module is loaded. -/
theorem finishLoad {index : Nat} (h : m.Pending names (some index) n) (hvacant : m.modules.Vacant) :
    m.Pending names none (n.finishLoad index) := by
  obtain ⟨e₁, he₁, hname, hstatus⟩ := h.loading index rfl
  refine h.setModule ?_ (fun j hj h => absurd (Option.some.inj h).symm hj) fun _ h => nomatch h
  intro e e' he _ hbecomes
  obtain rfl := Option.some.inj (he.symm.trans he₁)
  cases hbecomes with
  | same =>
    refine .loads hname hstatus rfl (.inl rfl) fun f hf => ?_
    have hf : f ∈ e.functions := hf
    rw [hvacant index e he hstatus] at hf
    cases hf
  | loads imported before ename after functions =>
    exact .loads imported before ename (.inl rfl) functions
  | gains before new old => rw [hstatus] at before; cases before

end Pending

end Machine

/-! ## Compilations -/

/-- Loaders lead from a compilation to the same compilation. -/
theorem Host.Installs.pending {h : Host σ} (hinstalls : h.Installs) {m : Machine σ}
    {names : List String} {current : Option Nat} (call : Callback σ) (fuel : Nat) {n : Machine σ}
    (hn : n.heap.Fits → m.Pending names current n) :
    (h.interpret call fuel n).All fun n' => n'.heap.Fits → m.Pending names current n' := by
  induction hinstalls generalizing n with
  | finish v | unwind => exact hn
  | read rest ih => exact ih n.host hn
  | write s rest ih => exact ih fun hfits => { hn hfits with }
  | setFunction handle name arity body rest ih =>
    exact ih _ fun hfits => .setFunction hn name arity body hfits

/-- A machine in the middle of a compilation. -/
def Link.pending (m : Machine σ) (names : List String) : Link σ :=
  .self (fun n => n.heap.Fits → m.Pending names none n) (fun _ => True) (fun _ => True)
    (fun n _ hn hfits => (hn (hfits.of_le (n.heap.size_le_alloc _))).alloc hfits)
    (fun n _ _ _ hn hfits => (hn (hfits.of_le (n.heap.size_le_alloc _))).alloc hfits)
      fun _ _ _ => trivial

theorem Link.loads_pending {m : Machine σ} {names : List String} (hvacant : m.modules.Vacant)
    (hinstall : m.LoadersInstall) (fuel : Nat) {name : String} (hname : name ∈ names) :
    (pending m names).Loads (Host.run fuel) (Host.run fuel) name := by
  refine loads_self fun {n index handle body} hn hlookup => ?_
  have hgrows := Host.grows_run fuel (body handle) (n.beginLoad index)
  cases hrun : Host.run fuel (body handle) (n.beginLoad index) with
  | failed e _ => exact e.elim
  | unwound _ | exhausted => trivial
  | ok v n' =>
    rw [hrun] at hgrows
    refine ⟨fun hfits => ?_, hgrows.names⟩
    obtain ⟨⟨e, he, hstate, rfl⟩, hbegin⟩ :=
      (hn (hfits.of_le hgrows.heap.size)).beginLoad hname hvacant hlookup
    have hload : (Host.run fuel (body ⟨UInt32.ofNat index, e.generation⟩)
        (n.beginLoad index)).All
          fun n' => n'.heap.Fits → m.Pending names (some index) n' := by
      cases fuel with
      | zero => trivial
      | succ fuel =>
        exact (hinstall index e body he hstate).pending (Host.run fuel) fuel fun _ => hbegin
    rw [hrun] at hload
    exact (hload hfits).finishLoad hvacant

/-- A compilation that fails has done nothing but what it has done on the way. -/
theorem pending_compileSource {m n : Machine σ} {fuel : Nat} {source name : String}
    {e : SyntaxError} (h : compileSource (Host.run fuel) source name m = .failed e n)
    (hfits : n.heap.Fits)
    (hm : m.heap.Fits → m.heap.Tidy) (hvacant : m.modules.Vacant) (hinstall : m.LoadersInstall) :
    m.Pending (sourceImports source) none n := by
  have hleaves := Link.leaves_compileSource (m := m)
    (fun name (hname : name ∈ sourceImports source) =>
      Link.loads_pending hvacant hinstall fuel hname)
    (fun hfits => .refl (hm hfits)) name
  rw [h] at hleaves
  exact hleaves hfits

/-! ## Evaluations -/

namespace Machine

/-- A function of a module that was loading has given way to another one of its name. -/
def Displaced (m n : Machine σ) (id : ObjectId) : Prop :=
  ∃ (i : Nat) (e e' : ModuleEntry (Loader σ)) (f g : String × Value),
    m.modules.entries[i]? = some e ∧
    e.state.status = .loading ∧ f ∈ e.functions ∧ f.2.asObject? = some id ∧
    n.modules.entries[i]? = some e' ∧ f ∉ e'.functions ∧ g ∈ e'.functions ∧ g.1 = f.1

/-- Nothing has changed since a machine was between evaluations, but that modules of certain names
may have been loaded, and that modules that were loading already may have got functions. What it has
referred to is alive, unless it was displaced there, and nothing else is but native functions. -/
structure Restores (m : Machine σ) (names : List String) (n : Machine σ) : Prop where
  globals : n.globals = m.globals
  imports : n.imports = m.imports
  stack : n.stack = #[]
  frames : n.frames = #[]
  alive : ∀ id, m.Refers id → n.heap.contains id = true ∧ n.heap.get? id = m.heap.get? id ∧
    n.heap.pins id = m.heap.pins id ∨ m.Displaced n id
  gone : ∀ id o, n.heap.get? id = some o → (∀ f, o ≠ .native f) → m.Refers id ∧
    m.heap.get? id = some o
  size : n.modules.entries.size = m.modules.entries.size
  modules : ∀ (i : Nat) e, m.modules.entries[i]? = some e → ∃ e', n.modules.entries[i]? = some e' ∧
    e.Becomes n.heap names False e'

variable {m : Machine σ}

/-- A machine refers to what the objects that it refers to lead to. -/
theorem Refers.child {id child : ObjectId} {o : Object (Native σ)} {v : Value} (h : m.Refers id)
    (ho : m.heap.get? id = some o) (hv : v ∈ o.references) (hchild : v.asObject? = some child) :
    m.Refers child := by
  cases o with
  | list items => exact .item h ho hv hchild
  | function f => exact .constant h ho hv hchild
  | string text | native f => exact absurd hv (by simp [Object.references])

variable {id : ObjectId}

theorem Refers.of_mem_roots {v : Value} (hv : v ∈ m.roots)
    (hid : v.asObject? = some id) : m.Refers id := by
  rcases Policy.mem_roots.1 hv with hv | hv | hv | ⟨f, hf, hv⟩
  · obtain ⟨slot, hslot⟩ := Globals.get?_of_mem_values hv
    exact .global hslot hid
  · obtain ⟨e, he, hv⟩ := List.mem_flatMap.1 hv
    obtain ⟨f, hf, rfl⟩ := List.mem_map.1 hv
    exact .installed (Array.mem_toList_iff.1 he) hf hid
  · exact .stack hv hid
  · exact .code hf hv hid

/-- What holds of the roots and of what is pinned, and passes on to what objects refer to, holds of
all that the machine refers to. -/
theorem Refers.closed {K : ObjectId → Prop}
    (roots : ∀ v ∈ m.roots, ∀ id, v.asObject? = some id → K id)
    (pins : ∀ id, 0 < m.heap.pins id → K id)
    (children : ∀ id o v child, m.Refers id → K id → m.heap.get? id = some o → v ∈ o.references →
      v.asObject? = some child → K child) (hid : m.Refers id) : K id := by
  induction hid with
  | global found object =>
    exact roots _ (Policy.mem_roots.2 (.inl (Globals.mem_values_of_get? found))) _ object
  | installed entry found object =>
    refine roots _ (Policy.mem_roots.2 (.inr (.inl ?_))) _ object
    exact List.mem_flatMap.2 ⟨_, Array.mem_toList_iff.2 entry, List.mem_map.2 ⟨_, found, rfl⟩⟩
  | stack found object => exact roots _ (Policy.mem_roots.2 (.inr (.inr (.inl found)))) _ object
  | code frame found object =>
    exact roots _ (Policy.mem_roots.2 (.inr (.inr (.inr ⟨_, frame, found⟩)))) _ object
  | pinned pinned => exact pins _ pinned
  | item before list found object ih => exact children _ _ _ _ before ih list found object
  | constant before function found object ih =>
    exact children _ _ _ _ before ih function found object

/-- The same for a test that all values of the machine pass. -/
theorem Refers.all {K : ObjectId → Bool} (pins : ∀ id, 0 < m.heap.pins id → K id = true)
    (h : (m.roots.all (·.asObject?.all K) && m.heap.slots.all
      (·.object.all (·.references.all (·.asObject?.all K)))) =
      true) (hid : m.Refers id) : K id = true := by
  have hvalue {v : Value} {id : ObjectId} (hv : v.asObject?.all K = true)
      (hid : v.asObject? = some id) : K id = true := by
    rwa [hid] at hv
  obtain ⟨hroots, hobjects⟩ := Bool.and_eq_true_iff.1 h
  refine hid.closed (K := (K · = true)) (fun v hv id => hvalue (List.all_eq_true.1 hroots v hv))
    pins fun id o v child _ _ ho hv => ?_
  obtain ⟨s, hs, -, hso⟩ := Heap.get?_eq_some_iff.1 ho
  have hs := Array.all_eq_true_iff_forall_mem.1 hobjects s (Array.mem_of_getElem? hs)
  rw [hso] at hs
  exact hvalue (Array.all_eq_true_iff_forall_mem.1 hs v hv)

/-- Nothing dangles if roots and objects refer to objects that are alive. -/
theorem noDangling_of_all
    (h : (m.roots.all (·.asObject?.all m.heap.contains) &&
      m.heap.slots.all (·.object.all (·.references.all (·.asObject?.all m.heap.contains)))) =
        true) : m.NoDangling :=
  fun _ hid => hid.all (fun _ => Heap.contains_of_pins_pos) h

namespace Pending

variable {m n : Machine σ} {names : List String}

variable (h : m.Pending names none n)

include h

/-- What a machine refers to is as it was. -/
theorem get?_of_refers (hlive : m.NoDangling) (hid : m.Refers id) :
    ∃ o, m.heap.get? id = some o ∧ n.heap.get? id = some o := by
  obtain ⟨o, ho⟩ := Heap.contains_iff.1 (hlive id hid)
  exact ⟨o, ho, h.keeps id o ho⟩

/-- Functions of modules are those that were there, or new native functions. -/
theorem of_mem_functions {e' : ModuleEntry (Loader σ)} (he' : e' ∈ n.modules.entries)
    {f : String × Value} (hf : f ∈ e'.functions) :
    (∃ e ∈ m.modules.entries, f ∈ e.functions) ∨ n.heap.IsNative f.2 := by
  obtain ⟨i, he'⟩ := Array.mem_iff_getElem?.1 he'
  obtain ⟨e, he, hbecomes⟩ := h.module_before he'
  cases hbecomes with
  | same => exact .inl ⟨_, Array.mem_of_getElem? he, hf⟩
  | loads imported before name after functions => exact .inr (functions f hf)
  | gains before new old => exact (new f hf).imp_left fun hf => ⟨_, Array.mem_of_getElem? he, hf⟩

/-- What was a root is one still, or was displaced. -/
theorem mem_roots (hvacant : m.modules.Vacant) {v : Value} (hv : v ∈ m.roots)
    (hid : v.asObject? = some id) : v ∈ n.roots ∨ m.Displaced n id := by
  rcases Policy.mem_roots.1 hv with hv | hv | hv | ⟨f, hf, hv⟩
  · exact .inl (Policy.mem_roots.2 (.inl (h.globals ▸ hv)))
  · obtain ⟨e, he, hv⟩ := List.mem_flatMap.1 hv
    obtain ⟨f, hf, rfl⟩ := List.mem_map.1 hv
    obtain ⟨i, he⟩ := Array.mem_iff_getElem?.1 (Array.mem_toList_iff.1 he)
    obtain ⟨e', he', hbecomes⟩ := h.modules i e he
    have hroot (hf : f ∈ e'.functions) : f.2 ∈ n.roots := by
      refine Policy.mem_roots.2
        (.inr (.inl (List.mem_flatMap.2 ⟨e', ?_, List.mem_map.2 ⟨f, hf, rfl⟩⟩)))
      exact Array.mem_toList_iff.2 (Array.mem_of_getElem? he')
    cases hbecomes with
    | same => exact .inl (hroot hf)
    | loads imported before ename after functions =>
      rw [hvacant i e he before] at hf
      cases hf
    | @gains functions before new old =>
      by_cases hkept : f ∈ functions
      · exact .inl (hroot hkept)
      · obtain ⟨g, hg, hname, -⟩ := (old f hf).resolve_left hkept
        exact .inr ⟨i, e, _, f, g, he, before, hf, hid, he', hkept, hg, hname⟩
  · exact .inl (Policy.mem_roots.2 (.inr (.inr (.inl (h.stack ▸ hv)))))
  · exact .inl (Policy.mem_roots.2 (.inr (.inr (.inr ⟨f, h.frames ▸ hf, hv⟩))))

/-- A collection keeps what the machine has referred to, but for what was displaced. -/
theorem kept_of_refers (hlive : m.NoDangling) (hvacant : m.modules.Vacant) (hstocked : m.Stocked)
    (hid : m.Refers id) : n.heap.Kept n.roots id ∨ m.Displaced n id := by
  refine Refers.closed (K := fun id => n.heap.Kept n.roots id ∨
    m.Displaced n id) (fun v hv id hobject => ?_) (fun id hpins =>
      .inl (Heap.kept_of_pinned ((h.pins id).symm ▸ hpins)))
    (fun id o v child before hk ho hv hobject => ?_) hid
  · obtain ⟨o, -, ho⟩ := h.get?_of_refers hlive (.of_mem_roots hv hobject)
    exact (h.mem_roots hvacant hv hobject).imp_left fun hv => Heap.kept_of_mem_roots hv hobject ho
  · obtain ⟨o', -, ho'⟩ := h.get?_of_refers hlive (before.child ho hv hobject)
    rcases hk with hk | ⟨i, e, -, f, -, he, -, hf, hfid, -⟩
    · refine .inl (h.tidy.kept_of_child hk (h.keeps id o ho) ?_ ho')
      exact List.mem_filterMap.2 ⟨v, Array.mem_toList_iff.2 hv, hobject⟩
    · -- Functions of modules are native, and these refer to nothing.
      obtain ⟨g, -, hg⟩ := hstocked f.1 f.2 ⟨e, Array.mem_of_getElem? he, hf⟩
      obtain ⟨id', hid', hg⟩ := object?_eq_some_iff.1 hg
      obtain rfl := Option.some.inj (hfid.symm.trans hid')
      obtain rfl := Option.some.inj (ho.symm.trans hg)
      exact absurd hv (by simp [Object.references])

/-- It keeps nothing else but native functions. -/
theorem refers_of_kept (hlive : m.NoDangling) (hfits : n.heap.Fits)
    (hid : n.heap.Kept n.roots id) : m.Refers id ∨ ∃ f, n.heap.get? id = some (.native f) := by
  let K (id : ObjectId) : Prop := m.Refers id ∨ ∃ f, n.heap.get? id = some (.native f)
  show K id
  refine h.tidy.of_kept hfits (fun v hv id hid => ?_) (fun id hpins => ?_)
    (fun id o hK ho child hchild => ?_) hid
  · rcases Policy.mem_roots.1 hv with hv | hv | hv | ⟨f, hf, hv⟩
    · rw [h.globals] at hv
      obtain ⟨slot, hslot⟩ := Globals.get?_of_mem_values hv
      exact .inl (.global hslot hid)
    · obtain ⟨e', he', hv⟩ := List.mem_flatMap.1 hv
      obtain ⟨f, hf, rfl⟩ := List.mem_map.1 hv
      obtain ⟨e, he, hf⟩ | ⟨id', g, hid', hg⟩ := h.of_mem_functions (Array.mem_toList_iff.1 he') hf
      · exact .inl (.installed he hf hid)
      · obtain rfl := Option.some.inj (hid.symm.trans hid')
        exact .inr ⟨g, hg⟩
    · exact .inl (.stack (h.stack ▸ hv) hid)
    · exact .inl (.code (h.frames ▸ hf) hv hid)
  · exact .inl (.pinned (by rw [← h.pins]; exact hpins))
  · obtain ⟨v, hv, hv'⟩ := List.mem_filterMap.1 hchild
    have hv : v ∈ o.references := Array.mem_toList_iff.1 hv
    rcases hK with hK | ⟨f, hf⟩
    · obtain ⟨o', ho', hn⟩ := h.get?_of_refers hlive hK
      obtain rfl := Option.some.inj (ho.symm.trans hn)
      exact .inl (hK.child ho' hv hv')
    · obtain rfl := Option.some.inj (ho.symm.trans hf)
      exact absurd hv (by simp [Object.references])

/-- A collection takes away what a compilation has made in vain. -/
theorem restores (hbare : m.Bare) (hlive : m.NoDangling) (hvacant : m.modules.Vacant)
    (hstocked : m.Stocked) (hfits : n.heap.Fits) : m.Restores names n.collect.2 where
  globals := h.globals
  imports := h.imports
  stack := h.stack.trans hbare.1
  frames := h.frames.trans hbare.2
  alive id hid := by
    obtain ⟨o, hm, hn⟩ := h.get?_of_refers hlive hid
    refine (h.kept_of_refers hlive hvacant hstocked hid).imp_left fun hkept => ?_
    have hget : n.collect.2.heap.get? id = some o := Heap.get?_collect_eq_some_iff.2 ⟨hn, hkept⟩
    exact ⟨Heap.contains_iff.2 ⟨o, hget⟩, hget.trans hm.symm,
      (n.heap.pins_collect_eq n.roots id).trans (h.pins id)⟩
  gone id o ho hnative := by
    obtain ⟨ho, hkept⟩ := Heap.get?_collect_eq_some_iff.1 ho
    rcases h.refers_of_kept hlive hfits hkept with hid | ⟨f, hf⟩
    · obtain ⟨o', ho', hn⟩ := h.get?_of_refers hlive hid
      obtain rfl := Option.some.inj (ho.symm.trans hn)
      exact ⟨hid, ho'⟩
    · exact absurd (Option.some.inj (ho.symm.trans hf)) (hnative f)
  size := h.size
  modules i e he := by
    obtain ⟨e', he', hbecomes⟩ := h.modules i e he
    refine ⟨e', he', hbecomes.mono (fun f hf ⟨id, g, hid, hg⟩ => ?_) fun h => nomatch h⟩
    refine ⟨id, g, hid, Heap.get?_collect_eq_some_iff.2 ⟨hg, ?_⟩⟩
    refine Heap.kept_of_mem_roots (Policy.mem_roots.2 (.inr (.inl ?_))) hid hg
    exact List.mem_flatMap.2 ⟨e', Array.mem_toList_iff.2 (Array.mem_of_getElem? he'),
      List.mem_map.2 ⟨f, hf, rfl⟩⟩

end Pending

end Machine

/-- The error of a run that fails, with the machine that it leaves. -/
def Outcome.failure? {ε α : Type} : Outcome σ ε α → Option (ε × Machine σ)
  | .failed e m => some (e, m)
  | _ => none

section

variable {ε : Type} {call : Callback σ} {fuel : Nat} {source : String} {m n p : Machine σ}

/-- A compilation that fails ends the evaluation, and garbage is collected. -/
theorem eval_of_compileSource_failed (hin : m.inEval = false) {e : SyntaxError}
    (h : compileSource call source m.options.chunkName m.beginEval = .failed e p) :
    (eval call fuel source m : Outcome σ ε _) = .ok (.error (.ofStage e.stage))
      ({ p with
        report := staticReport m.options.chunkName source e, inEval := false }).collect.2 := by
  rw [eval_of_not_inEval hin, evalSource_apply]
  simp only [h]
  rfl

/-- An evaluation that rejects its source did so when it was compiled. -/
theorem eval_rejected {f : Failure}
    (h : (eval call fuel source m : Outcome σ ε _) = .ok (.error f) n)
    (hf : f = .token ∨ f = .parse ∨ f = .compile) :
    m.inEval = false ∧ ∃ e p, compileSource call source m.options.chunkName m.beginEval =
      .failed e p ∧ ∃ report, n = ({ p with report, inEval := false }).collect.2 := by
  cases hin : m.inEval with
  | true =>
    rw [eval_of_inEval hin] at h
    cases h
    rcases hf with hf | hf | hf <;> cases hf
  | false =>
    refine ⟨rfl, ?_⟩
    cases hc : compileSource call source m.options.chunkName m.beginEval with
    | failed e p =>
      rw [eval_of_compileSource_failed hin hc] at h
      cases h
      exact ⟨e, p, rfl, _, rfl⟩
    | ok chunk p =>
      -- instructions fail in other ways
      rw [eval_of_not_inEval hin, evalSource_apply] at h
      simp only [hc] at h
      split at h
      · cases h
      · rename_i hrun
        cases h
        rcases faulty_execute hrun with rfl | ⟨rfl, -⟩ <;> rcases hf with hf | hf | hf <;> cases hf
      · cases h
      · cases h
    | unwound p | exhausted =>
      rw [eval_of_not_inEval hin, evalSource_apply] at h
      simp only [hc] at h
      cases h

end

/-- **A rejected program leaves no trace** but in modules. If a source text is no program or does
not compile, its evaluation leaves variables and imports as they were, and no values or calls; what
the machine has referred to is alive, with its contents and pins, and no string or function that was
made for the program is. Of modules those that the program imports may have been loaded, and those
that were loading before may have got functions, also in the place of others. -/
theorem Path.restores_of_rejected {options : Options} {host : σ} {hist : History σ} {q : Point σ}
    (h : Path (.new options host) hist q) (hlive : q.machine.NoDangling)
    (hinstall : q.machine.LoadersInstall)
    {ε : Type} {fuel fuel' : Nat} {source : String} {f : Failure} {n : Machine σ}
    (hr : (eval (Host.run fuel) fuel' source q.machine : Outcome σ ε _) = .ok (.error f) n)
    (hf : f = .token ∨ f = .parse ∨ f = .compile) (hfits : n.heap.Fits) :
    q.machine.Restores (sourceImports source) n := by
  obtain ⟨hin, e, p, hcompile, report, rfl⟩ := eval_rejected hr hf
  have hfits : p.heap.Fits := hfits.of_le (Nat.le_of_eq (Heap.size_collect p.heap p.roots).symm)
  have hpending := pending_compileSource hcompile hfits h.tidy h.vacant hinstall
  have hgrows := grows_compileSource (Host.grows_run fuel) source q.machine.options.chunkName
    q.machine.beginEval
  rw [hcompile] at hgrows
  exact Machine.Pending.restores { hpending with } (h.bare hin) hlive h.vacant
    (h.stocked (hfits.of_le hgrows.heap.size)) hfits

/-- A program that imports a module and then leaves a loop that there is not. -/
theorem Path.restores_of_rejected_import :
    ∃ (hist : History Unit) (q : Point Unit) (n : Machine Unit), Path (.new {} ()) hist q ∧
      q.machine.NoDangling ∧ q.machine.LoadersInstall ∧
      (eval (Host.run 1) 0 "import a\nbreak" q.machine : Outcome Unit Empty _) =
        .ok (.error .compile) n ∧
      n.heap.Fits ∧ q.machine.Restores ["a"] n := by
  let loader : Loader Unit :=
    fun handle => .setFunction handle "f" 0 (fun _ => .finish .none) fun _ => .finish .none
  let m : Machine Unit := (Machine.new {} ()).addLoader "a" loader
  have hpath : Path (.new {} ()) _ (⟨[], false, m⟩ : Point Unit) :=
    Path.start.move (.register hostTurn_nil "a" loader)
  have hlive : m.NoDangling := Machine.noDangling_of_all (by decide +kernel)
  have hinstall : m.LoadersInstall := by
    intro i e body he hstate
    obtain ⟨rfl, rfl⟩ := Machine.eq_of_registered_new he hstate
    exact .setFunction _ "f" 0 _ fun _ => .finish .none
  obtain ⟨_, n, heval, rfl, hfits⟩ := Outcome.exists_of_value?
    (o := eval (ε := Empty) (Host.run 1) 0 "import a\nbreak" m)
      (fun r n => r = .error .compile ∧ n.heap.Fits)
    (by decide +kernel)
  have himports : sourceImports "import a\nbreak" = ["a"] := by decide +kernel
  have hrestores := hpath.restores_of_rejected hlive hinstall heval (.inr (.inr rfl)) hfits
  rw [himports] at hrestores
  exact ⟨_, _, _, hpath, hlive, hinstall, heval, hfits, hrestores⟩

/-- The loader of one module gives up, in an evaluation that is recovered from; the loader of
another one has kept the handle, and installs a function in the first one. The program that imports
the second one is rejected, and still the first one has changed. -/
theorem Path.gains_of_rejected :
    ∃ (hist : History Unit) (q : Point Unit) (n : Machine Unit) (e e' : ModuleEntry (Loader Unit)),
      Path (.new {} ()) hist q ∧ q.tasks = [] ∧ q.machine.NoDangling ∧ q.machine.LoadersInstall ∧
      (eval (Host.run 1) 0 "import a\nbreak" q.machine : Outcome Unit Empty _) =
        .ok (.error .compile) n ∧
      n.heap.Fits ∧ q.machine.modules.entries[0]? = some e ∧ n.modules.entries[0]? = some e' ∧
      e.name ∉ sourceImports "import a\nbreak" ∧ e.functions = [] ∧ e'.functions ≠ [] := by
  let gone : Loader Unit := fun _ => .unwind
  let keeps : Loader Unit :=
    fun _ => .setFunction ⟨0, 0⟩ "g" 0 (fun _ => .finish .none) fun _ => .finish .none
  let m : Machine Unit := (Machine.new {} ()).addLoader "b" gone
  let k : Machine Unit := (m.beginEval.beginLoad 0).recover.addLoader "a" keeps
  have hlookup : m.modules.lookup "b" = .load 0 ⟨0, 0⟩ gone := Machine.lookup_addLoader_new _ _
  have hregister : Path (.new {} ()) _ (⟨[], false, m⟩ : Point Unit) :=
    Path.start.move (.register hostTurn_nil "b" gone)
  have hload := (hregister.move (.evaluate hostTurn_nil true rfl)).move (.load hlookup)
  have hgone := (hload.move (.unwind trivial)).move (.abandon _ (by simp))
  have hpath : Path (.new {} ()) _ (⟨[], false, k⟩ : Point Unit) :=
    ((hgone.move (.abandon _ (by simp))).move .recover).move (.register hostTurn_nil "a" keeps)
  have hnone : (Machine.new {} () : Machine Unit).modules = {} := rfl
  have hentries : k.modules.entries =
      #[{ name := "b", state := .loading }, { name := "a", state := .registered keeps }] := by
    simp [k, m, Machine.addLoader, Machine.recover, hnone, Registry.addLoader, Registry.index?,
      Registry.beginLoad]
  have hlive : k.NoDangling := Machine.noDangling_of_all (by decide +kernel)
  have hinstall : k.LoadersInstall := by
    intro i e body he hstate
    rw [hentries] at he
    obtain _ | _ | i := i
    · cases he
      cases hstate
    · cases he
      cases hstate
      exact .setFunction _ "g" 0 _ fun _ => .finish .none
    · cases he
  obtain ⟨_, n, heval, rfl, hfits, hgains⟩ := Outcome.exists_of_value?
    (o := eval (ε := Empty) (Host.run 1) 0 "import a\nbreak" k)
    (fun r n => r = .error .compile ∧ n.heap.Fits ∧
      n.modules.entries[0]?.any (!·.functions.isEmpty) = true)
    (by decide +kernel)
  obtain ⟨e', he', hfunctions⟩ := (Option.any_eq_true _ _).1 hgains
  have he : k.modules.entries[0]? = some { name := "b", state := .loading } := by rw [hentries]; rfl
  have himports : "b" ∉ sourceImports "import a\nbreak" := by decide +kernel
  refine ⟨_, _, _, _, e', hpath, rfl, hlive, hinstall, heval, hfits, he, he', himports, rfl,
    fun hnil => ?_⟩
  rw [hnil] at hfunctions
  cases hfunctions

end ScriptMachine
