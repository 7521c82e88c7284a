import ScriptMachine.Proofs.Assignment
import ScriptMachine.Proofs.Hosting
import ScriptMachine.Proofs.Instructions
import ScriptMachine.Proofs.Slots
/-!
# Variables, modules and built-in functions

Names and slots of variables belong to each other one to one, a variable keeps its slot, no name is
both a variable and an imported module, and built-in variables keep their functions. This lasts,
whatever programs are compiled and run, if the loaders of modules neither compile nor evaluate.

* `Host.Tame`: host programs with such loaders only;
* `Host.upholds_run`: **runs of such programs keep it**.
-/

namespace ScriptMachine

variable {σ : Type}

/-! ## Loaders that do not compile -/

/-- A host program that neither compiles nor evaluates. -/
inductive Host.Abstains : Host σ → Prop
  | finish (v : Value) : Abstains (.finish v)
  | unwind : Abstains .unwind
  | ask {r : Request} {next : r.Reply → Host σ} (plain : r.Plain) (rest : ∀ a, Abstains (next a)) :
    Abstains (.ask r next)
  | read {next : σ → Host σ} (rest : ∀ s, Abstains (next s)) : Abstains (.read next)
  | write (s : σ) {next : Host σ} (rest : Abstains next) : Abstains (.write s next)
  | addLoader (name : String) (loader : Loader σ) {next : Host σ} (rest : Abstains next) :
    Abstains (.addLoader name loader next)
  | setFunction (handle : ModuleHandle) (name : String) (arity : Nat) (body : Native σ)
    {next : Except Failure Unit → Host σ} (rest : ∀ result, Abstains (next result)) :
    Abstains (.setFunction handle name arity body next)

/-- A host program whose loaders neither compile nor evaluate, and so for the functions that it
installs. It may compile and evaluate itself, and so may these functions. -/
inductive Host.Tame : Host σ → Prop
  | finish (v : Value) : Tame (.finish v)
  | unwind : Tame .unwind
  | ask (r : Request) {next : r.Reply → Host σ} (rest : ∀ a, Tame (next a)) : Tame (.ask r next)
  | read {next : σ → Host σ} (rest : ∀ s, Tame (next s)) : Tame (.read next)
  | write (s : σ) {next : Host σ} (rest : Tame next) : Tame (.write s next)
  | addLoader (name : String) {loader : Loader σ} {next : Host σ}
    (abstains : ∀ handle, (loader handle).Abstains) (tame : ∀ handle, Tame (loader handle))
    (rest : Tame next) : Tame (.addLoader name loader next)
  | setFunction (handle : ModuleHandle) (name : String) (arity : Nat) {body : Native σ}
    {next : Except Failure Unit → Host σ} (tame : ∀ args, Tame (body args))
    (rest : ∀ result, Tame (next result)) :
    Tame (.setFunction handle name arity body next)

/-- The policy that loaders neither compile nor evaluate. -/
def Policy.tame (σ : Type) : Policy σ where
  allows _ _ := True
  loader l := ∀ handle, (l handle).Abstains ∧ (l handle).Tame
  full := False
  mono _ _ := trivial
  string _ _ := trivial
  list _ _ := trivial
  function _ := trivial
  of_full h := h.elim

/-- Programs that do not compile leave all names as they are. -/
theorem Host.Abstains.sameNames {h : Host σ} (habstains : h.Abstains) (call : Callback σ)
    (fuel : Nat) (m : Machine σ) : (h.interpret call fuel m).All m.SameNames := by
  have htrans {m n : Machine σ} {o : Outcome σ Empty Value} (hm : m.SameNames n)
      (ho : o.All n.SameNames) : o.All m.SameNames :=
        ho.mono fun k hk => ⟨hk.names.trans hm.names, hk.imports.trans hm.imports⟩
  induction habstains generalizing m with
  | finish v | unwind => exact ⟨rfl, rfl⟩
  | @ask r next plain rest ih =>
    obtain ⟨a, n, hn⟩ := plain.performed call fuel m
    unfold interpret
    rw [hn]
    exact htrans (.of_standing (plain.standing hn)) (ih a n)
  | read rest ih => exact ih m.host m
  | write s rest ih =>
    have hwrite : m.SameNames { m with host := s } := ⟨rfl, rfl⟩
    exact htrans hwrite (ih _)
  | addLoader name loader rest ih =>
    have hadd : m.SameNames (m.addLoader name loader) := ⟨rfl, rfl⟩
    exact htrans hadd (ih _)
  | setFunction handle name arity body rest ih =>
    exact htrans (.setFunction m handle name arity body) (ih _ _)

/-! ## New names -/

variable {slot : Nat}

namespace Globals

variable {g : Globals}

/-- A new variable comes behind the others, and no other has its name. -/
theorem declare_cases (g : Globals) (name : String) : g.declare name = g ∨
    name ∉ g.names.map Prod.fst ∧ (g.declare name).slots = g.slots.push { name } := by
  unfold declare
  split
  · exact .inl rfl
  · rename_i hnone
    refine .inr ⟨fun hmem => ?_, rfl⟩
    have hsome := slot?_isSome_iff.2 hmem
    rw [hnone] at hsome
    cases hsome

theorem names_of_push {g' : Globals} {name : String} (h : g'.slots = g.slots.push { name }) :
    g'.names.map Prod.fst = g.names.map Prod.fst ++ [name] := by
  simp [names, h]

theorem getElem?_foldl_declare (news : List String) (hslot : slot < g.size) :
    (news.foldl declare g).slots[slot]? = g.slots[slot]? := by
  induction news generalizing g with
  | nil => rfl
  | cons name news ih =>
    rcases g.declare_cases name with hsame | ⟨-, hpush⟩
    · rw [List.foldl_cons, hsame]
      exact ih hslot
    · unfold size at hslot
      have hlt : slot < (g.declare name).size := by
        rw [size, hpush, Array.size_push]
        omega
      rw [List.foldl_cons, ih hlt, hpush, Array.getElem?_push, if_neg (by omega)]

theorem nodup_foldl_declare (h : (g.names.map Prod.fst).Nodup) (news : List String) :
    ((news.foldl declare g).names.map Prod.fst).Nodup := by
  induction news generalizing g with
  | nil => exact h
  | cons name news ih =>
    refine ih ?_
    rcases g.declare_cases name with hsame | ⟨hnew, hpush⟩
    · rwa [hsame]
    · rw [names_of_push hpush]
      refine List.nodup_append.2 ⟨h, List.nodup_singleton name, fun a ha b hb => ?_⟩
      rintro rfl
      exact hnew (List.mem_singleton.1 hb ▸ ha)

theorem mem_of_foldl_declare {news : List String} {name : String}
    (h : name ∈ (news.foldl declare g).names.map Prod.fst) :
    name ∈ g.names.map Prod.fst ∨ name ∈ news := by
  induction news generalizing g with
  | nil => exact .inl h
  | cons new news ih =>
    rcases ih h with hdeclare | hnews
    · rcases g.declare_cases new with hsame | ⟨-, hpush⟩
      · exact .inl (hsame ▸ hdeclare)
      · rw [names_of_push hpush] at hdeclare
        refine (List.mem_append.1 hdeclare).imp_right fun hnew => ?_
        exact List.mem_cons.2 (.inl (List.mem_singleton.1 hnew))
    · exact .inr (List.mem_cons_of_mem _ hnews)

end Globals

/-! ## What is kept -/

/-- Functions of scripts leave the first variables alone, and native functions are tame. -/
structure Object.Safe (n : Nat) (o : Object (Native σ)) : Prop where
  function : ∀ f, o = .function f → f.chunk.Spares n
  native : ∀ f, o = .native f → ∀ args, (f.code args).Tame

namespace Machine

/-- A machine to begin with: all variables are built in, and all objects are native functions that
these refer to. -/
structure Founded (m₀ : Machine σ) : Prop where
  builtin : ∀ slot < m₀.globals.size, m₀.globals.isBuiltin slot = true
  native : ∀ id o, m₀.heap.get? id = some o → ∃ f, o = .native f
  held : ∀ id o, m₀.heap.get? id = some o →
    ∃ slot v, slot < m₀.globals.size ∧ m₀.globals.get? slot = some v ∧ v.asObject? = some id

/-- What is kept of a machine to begin with, and of its names. -/
structure Upholds (m₀ m : Machine σ) : Prop where
  nodup : (m.globals.names.map Prod.fst).Nodup
  apart : ∀ name, (m.globals.slot? name).isSome = true → m.imports.lookup name = none
  builtins : ∀ slot < m₀.globals.size, m.globals.slots[slot]? = m₀.globals.slots[slot]?
  natives : m.heap.Fits → m.heap.Tidy ∧ ∀ id o, m₀.heap.get? id = some o → m.heap.get? id = some o
  objects : ∀ id o, m.heap.get? id = some o → o.Safe m₀.globals.size
  frames : ∀ f ∈ m.frames, f.chunk.Spares m₀.globals.size
  loaders : (Policy.tame σ).Admits m.modules

variable {m₀ m n : Machine σ}

/-- Other parts of the machine may change. -/
theorem Upholds.aside (h : m₀.Upholds m) (hheap : n.heap = m.heap)
    (hglobals : n.globals = m.globals) (himports : n.imports = m.imports)
    (hmodules : n.modules = m.modules) (hframes : n.frames = m.frames) : m₀.Upholds n where
  nodup := hglobals ▸ h.nodup
  apart := hglobals ▸ himports ▸ h.apart
  builtins := hglobals ▸ h.builtins
  natives := hheap ▸ h.natives
  objects := hheap ▸ h.objects
  frames := hframes ▸ h.frames
  loaders := hmodules ▸ h.loaders

theorem Upholds.setFrames (h : m₀.Upholds m) {frames : Array Frame}
    (hframes : ∀ f ∈ frames, f.chunk.Spares m₀.globals.size) : m₀.Upholds { m with frames } :=
  ⟨h.nodup, h.apart, h.builtins, h.natives, h.objects, hframes, h.loaders⟩

theorem Upholds.setModules (h : m₀.Upholds m) {modules : Registry (Loader σ)}
    (hmodules : (Policy.tame σ).Admits modules) : m₀.Upholds { m with modules } :=
  ⟨h.nodup, h.apart, h.builtins, h.natives, h.objects, h.frames, hmodules⟩

/-! ### The heap -/

section

variable (h : m₀.Upholds m)

include h

theorem Upholds.setHeap {heap : Heap (Native σ)} (hfits : heap.Fits → m.heap.Fits)
    (htidy : heap.Fits → m.heap.Tidy → heap.Tidy)
    (hkept : heap.Fits → m.heap.Tidy → ∀ id o, m₀.heap.get? id = some o → m.heap.get? id = some o →
      heap.get? id = some o)
    (hobjects : ∀ id o, heap.get? id = some o → o.Safe m₀.globals.size) :
    m₀.Upholds { m with heap } where
  nodup := h.nodup
  apart := h.apart
  builtins := h.builtins
  natives hf :=
    have ⟨ht, halive⟩ := h.natives (hfits hf)
    ⟨htidy hf ht, fun id o ho => hkept hf ht id o ho (halive id o ho)⟩
  objects := hobjects
  frames := h.frames
  loaders := h.loaders

theorem Upholds.alloc {o : Object (Native σ)} (ho : o.Safe m₀.globals.size) :
    m₀.Upholds (m.alloc o).2 := by
  refine h.setHeap (fun hfits => hfits.of_le (m.heap.size_le_alloc o)) (fun _ ht => ht.alloc o)
    (fun hfits ht _ _ _ halive => ht.get?_alloc_of_some hfits halive) fun id x hx => ?_
  rcases Heap.get?_alloc_cases hx with rfl | hx
  · exact ho
  · exact h.objects id x hx

theorem Upholds.pin (id : ObjectId) : m₀.Upholds { m with heap := (m.heap.pin id).2 } :=
  h.setHeap (fun hfits => hfits.of_le (Nat.le_of_eq (m.heap.size_pin id).symm))
    (fun _ ht => ht.pin id) (fun _ _ _ _ _ halive => (m.heap.get?_pin _ _).trans halive)
    fun id' o ho => h.objects id' o ((m.heap.get?_pin _ _).symm.trans ho)

theorem Upholds.unpin (id : ObjectId) : m₀.Upholds { m with heap := (m.heap.unpin id).2 } :=
  h.setHeap (fun hfits => hfits.of_le (Nat.le_of_eq (m.heap.size_unpin id).symm))
    (fun _ ht => ht.unpin id) (fun _ _ _ _ _ halive => (m.heap.get?_unpin _ _).trans halive)
    fun id' o ho => h.objects id' o ((m.heap.get?_unpin _ _).symm.trans ho)

/-- The variables that a machine began with have the values that they had then. -/
theorem Upholds.get? (hslot : slot < m₀.globals.size) :
    m.globals.get? slot = m₀.globals.get? slot := by
  unfold Globals.get?
  rw [h.builtins slot hslot]

/-- The native functions that the machine began with are the values of variables, so they are not
freed. -/
theorem Upholds.collect (hm₀ : m₀.Founded) : m₀.Upholds m.collect.2 := by
  refine h.setHeap (fun hfits => hfits.of_le (Nat.le_of_eq (Heap.size_collect _ _).symm))
    (fun _ ht => ht.collect _) (fun _ _ id o ho halive => ?_) fun id o ho => ?_
  · obtain ⟨slot, v, hslot, hv, hid⟩ := hm₀.held id o ho
    have hvalue : v ∈ m.globals.values := Globals.mem_values_of_get? ((h.get? hslot).trans hv)
    exact Heap.get?_collect_eq_some_iff.2
      ⟨halive, Heap.kept_of_mem_roots (Policy.mem_roots.2 (.inl hvalue)) hid halive⟩
  · exact h.objects id o (Heap.get?_collect_eq_some_iff.1 ho).1

theorem Upholds.setItem (hm₀ : m₀.Founded) (id : ObjectId) (i : Nat) (v : Value) :
    m₀.Upholds { m with heap := m.heap.modify id fun o => o.setItem i v } := by
  have hsafe {o : Object (Native σ)} (ho : o.Safe m₀.globals.size) :
      (o.setItem i v).Safe m₀.globals.size := by
    cases o with
    | list items => exact ⟨by simp [Object.setItem], by simp [Object.setItem]⟩
    | string s | function f | native f => exact ho
  refine h.setHeap (fun hfits => hfits.of_le (Nat.le_of_eq (Heap.size_modify _ _ _).symm))
    (fun _ ht => ht.modify _ _) (fun _ _ id' o ho halive => ?_) fun id' o ho => ?_
  · obtain ⟨f, rfl⟩ := hm₀.native id' o ho
    rw [Heap.get?_modify]
    split
    · rename_i hid
      rw [← hid, halive]
      rfl
    · exact halive
  · rw [Heap.get?_modify] at ho
    split at ho
    · obtain ⟨o', ho', rfl⟩ := Option.map_eq_some_iff.1 ho
      exact hsafe (h.objects _ _ ho')
    · exact h.objects id' o ho

end

/-! ### Names -/

/-- An assignment to a variable that came later. -/
theorem Upholds.setGlobal (h : m₀.Upholds m) (hslot : m₀.globals.size ≤ slot) {v : Value}
    {globals : Globals} (hset : m.globals.set? slot v = some globals) :
    m₀.Upholds { m with globals } where
  nodup := Globals.names_set? hset ▸ h.nodup
  apart name hname := by
    refine h.apart name ?_
    rwa [Globals.slot?_eq, ← Globals.names_set? hset, ← Globals.slot?_eq]
  builtins slot' hslot' := by
    unfold Globals.set? at hset
    split at hset
    · cases hset
      show (m.globals.slots.modify slot _)[slot']? = _
      rw [Array.getElem?_modify, if_neg (by omega)]
      exact h.builtins slot' hslot'
    · cases hset
  natives := h.natives
  objects := h.objects
  frames := h.frames
  loaders := h.loaders

/-- The names that a careful program adds. -/
theorem Upholds.commit (h : m₀.Upholds m) {b : Build} (hb : b.Careful m m₀.globals.size)
    (hsize : m₀.globals.size ≤ m.globals.size) : m₀.Upholds (Compile.commit b m) where
  nodup := Globals.nodup_foldl_declare h.nodup b.newGlobals
  apart name hname := by
    have hglobal : b.isGlobal m name = true := by
      rcases Globals.mem_of_foldl_declare (Globals.slot?_isSome_iff.1 hname) with hold | hnew
      · simp [Build.isGlobal, Globals.slot?_isSome_iff.2 hold]
      · simp [Build.isGlobal, hnew]
    obtain ⟨hnews, himports⟩ := Option.or_eq_none_iff.1 (hb.apart name hglobal)
    refine List.lookup_eq_none_iff.2 fun x hx => ?_
    rcases Draft.mem_imports_commit (d := ⟨b, m⟩) hx with hx | hx
    · exact List.lookup_eq_none_iff.1 hnews x hx
    · exact List.lookup_eq_none_iff.1 himports x hx
  builtins slot hslot :=
    (Globals.getElem?_foldl_declare b.newGlobals (Nat.lt_of_lt_of_le hslot hsize)).trans
      (h.builtins slot hslot)
  natives := h.natives
  objects := h.objects
  frames := h.frames
  loaders := h.loaders

/-! ### Instructions and requests -/

theorem safe_string (n : Nat) (s : String) : (.string s : Object (Native σ)).Safe n :=
  ⟨by simp, by simp⟩

theorem safe_list (n : Nat) (items : Array Value) : (.list items : Object (Native σ)).Safe n :=
  ⟨by simp, by simp⟩

/-- Instructions assign to no built-in variable: the code of every call leaves them alone. -/
theorem upkeep_upholds (hm₀ : m₀.Founded) : Upkeep m₀.Upholds where
  message _ h := h.aside rfl rfl rfl rfl rfl
  stack _ h := h.aside rfl rfl rfl rfl rfl
  push _ _ h := h.aside rfl rfl rfl rfl rfl
  jump {m} target h := by
    refine h.setFrames fun f hf => ?_
    obtain ⟨i, hi⟩ := Array.mem_iff_getElem?.1 hf
    rw [Array.getElem?_modify] at hi
    split at hi
    · obtain ⟨f', hf', rfl⟩ := Option.map_eq_some_iff.1 hi
      exact h.frames f' (Array.mem_of_getElem? hf')
    · exact h.frames f (Array.mem_of_getElem? hi)
  enter {m id f} base hf _ h := by
    refine h.setFrames fun frame hframe => ?_
    rcases Array.mem_push.1 hframe with hframe | rfl
    · exact h.frames frame hframe
    · exact (h.objects id _ hf).function f rfl
  leave {m} h := by
    refine h.setFrames fun f hf => ?_
    obtain ⟨i, hi⟩ := Array.mem_iff_getElem?.1 hf
    rw [Array.getElem?_pop] at hi
    split at hi
    · exact h.frames f (Array.mem_of_getElem? hi)
    · cases hi
  setGlobal hf hi hop hset h := h.setGlobal (h.frames _ hf _ hi _ hop) hset
  setItem id i v h := h.setItem hm₀ id i v
  string s h := h.alloc (safe_string _ s)
  list items h := h.alloc (safe_list _ items)
  safePoint h := safePoint_of_collect h (h.collect hm₀)

theorem service_upholds (hm₀ : m₀.Founded) : Service m₀.Upholds where
  aside h hstanding hheap :=
    h.aside hheap (congrArg (·.globals) hstanding) (congrArg (·.imports) hstanding)
      (congrArg (·.modules) hstanding) (congrArg (·.frames) hstanding)
  string s h := h.alloc (safe_string _ s)
  list items h := h.alloc (safe_list _ items)
  pin id h := h.pin id
  unpin id h := h.unpin id
  collect _ h := h.collect hm₀

/-- A program starts. -/
theorem Upholds.start (h : m₀.Upholds m) {chunk : Chunk} (hchunk : chunk.Spares m₀.globals.size) :
    m₀.Upholds (Core.start chunk m) := by
  refine h.setFrames fun f hf => ?_
  rcases Array.mem_push.1 hf with hf | rfl
  · exact h.frames f hf
  · exact hchunk

theorem Upholds.settle (h : m₀.Upholds m) (calls height : Nat) :
    m₀.Upholds (m.settle calls height) := by
  have hframes : m₀.Upholds { m with frames := m.frames.shrink calls } :=
    h.setFrames fun f hf => h.frames f (Policy.mem_of_mem_shrink hf)
  exact hframes.aside rfl rfl rfl rfl rfl

theorem Upholds.setFunction (h : m₀.Upholds m) (handle : ModuleHandle) (name : String) (arity : Nat)
    {body : Native σ} (hbody : ∀ args, (body args).Tame) :
    m₀.Upholds (m.setFunction handle name arity body).2 := by
  unfold Machine.setFunction
  split
  · have hsafe : (.native { name, arity, code := body } : Object (Native σ)).Safe m₀.globals.size :=
      ⟨by simp, fun f hf => Object.native.inj hf ▸ hbody⟩
    exact (h.alloc hsafe).setModules (h.loaders.install handle name _)
  · exact h

/-- A native function that is called is an object on the heap. -/
theorem get?_of_step_native {entry callee : Nat} {f : NativeFunction (Native σ)} {args : List Value}
    (h : m.step entry = .native f args callee n) : ∃ id, m.heap.get? id = some (.native f) := by
  have hchecked {checked : Checked σ (Machine σ)} :
      Step.ofChecked checked ≠ .native f args callee n := by
    cases checked <;> simp [Step.ofChecked]
  obtain ⟨n', hfails⟩ | ⟨g, op, hexec⟩ := m.step_cases entry
  · cases hfails.symm.trans h
  · rw [hexec] at h
    have hfollows := follows_exec (m.jump (g.pc + 1)) entry g.chunk g.base op
    rw [h] at hfollows
    cases hfollows with
    | asks calls _ =>
      rw [calls] at h
      change Machine.call _ _ = _ at h
      unfold Machine.call at h
      split at h
      · exact absurd h hchecked
      · dsimp only at h
        split at h
        · exact absurd h hchecked
        · rename_i hobject
          split at h
          · cases h
            unfold object? at hobject
            split at hobject
            · exact ⟨_, hobject⟩
            · cases hobject
          · exact absurd h hchecked
        · exact absurd h hchecked

end Machine

/-! ## Runs -/

/-- Callbacks keep the machine in order if the program is tame, and all names if it does not
compile. -/
structure Callback.Upholds (m₀ : Machine σ) (call : Callback σ) : Prop where
  upholds : ∀ {h m}, h.Tame → m₀.Upholds m → (call h m).All m₀.Upholds
  sameNames : ∀ {h m}, h.Abstains → (call h m).All m.SameNames

section Runs

variable {m₀ m n : Machine σ} {call : Callback σ} (hcall : call.Upholds m₀) (hm₀ : m₀.Founded)

include hcall hm₀

/-- Loaders leave all names as they are, so compilations are careful. -/
theorem Callback.Upholds.surety : Surety m₀.globals.size call m₀.Upholds m₀.Upholds where
  builtin {m} h slot hslot := by
    have hbuiltin := hm₀.builtin slot hslot
    unfold Globals.isBuiltin at hbuiltin ⊢
    rwa [h.builtins slot hslot]
  string s h := h.alloc (Machine.safe_string _ s)
  function hf h := h.alloc ⟨fun _ heq => Object.function.inj heq ▸ hf, by simp⟩
  loaded {m k name index handle loader v} h hlookup hload := by
    obtain ⟨e, he, hstate⟩ := Registry.mem_entries_of_lookup hlookup
    obtain ⟨habstains, htame⟩ := h.loaders e he loader hstate handle
    have hk := hcall.upholds htame (h.setModules (h.loaders.beginLoad index))
    have hnames : Outcome.All (Machine.SameNames (m.beginLoad index))
      (call (loader handle) (m.beginLoad index)) := hcall.sameNames habstains
    rw [hload] at hk hnames
    exact ⟨hk.setModules (hk.loaders.finishLoad index), hnames.names, hnames.imports⟩
  unwound {m k name index handle loader} h hlookup hload := by
    obtain ⟨e, he, hstate⟩ := Registry.mem_entries_of_lookup hlookup
    obtain ⟨-, htame⟩ := h.loaders e he loader hstate handle
    have hk := hcall.upholds htame (h.setModules (h.loaders.beginLoad index))
    rw [hload] at hk
    exact hk

/-- Compilations, with the code that comes out. -/
theorem upholds_compileSource (h : m₀.Upholds m) (source name : String) :
    (compileSource call source name m).Leaves
      (fun chunk n => chunk.Spares m₀.globals.size ∧ m₀.Upholds n) (fun _ n => m₀.Upholds n)
      m₀.Upholds := by
  have hsurety := hcall.surety hm₀
  have hcompile := hsurety.compileSource source name h h.apart
  cases hr : compileSource call source name m with
  | ok chunk n =>
    rw [hr] at hcompile
    -- The names are put in place only now, behind those that were there when the compilation came
    -- to its end.
    obtain ⟨hchunk, b, j, rfl, hj, hb⟩ := hcompile
    exact ⟨hchunk, hj.commit hb (hsurety.le_size hj)⟩
  | failed e n | unwound n => rw [hr] at hcompile; exact hcompile
  | exhausted => trivial

theorem Callback.Upholds.tenure : Tenure m₀.Upholds call (·.Spares m₀.globals.size) where
  upkeep := Machine.upkeep_upholds hm₀
  service := Machine.service_upholds hm₀
  status _ _ _ h := h.aside rfl rfl rfl rfl rfl
  start hchunk h := h.start hchunk
  settle _ _ h := h.settle _ _
  recover {m} h :=
    have hframes : m₀.Upholds { m with frames := #[] } := h.setFrames (by simp)
    hframes.aside rfl rfl rfl rfl rfl
  -- The function is an object, hence tame.
  native hs h hn :=
    have ⟨id, hid⟩ := Machine.get?_of_step_native hs
    hcall.upholds ((h.objects id _ hid).native _ rfl _) hn
  compile h source name := upholds_compileSource hcall hm₀ h source name

theorem Host.Tame.upholds_interpret {p : Host σ} (hp : p.Tame) (fuel : Nat) (h : m₀.Upholds m) :
    (p.interpret call fuel m).All m₀.Upholds := by
  induction hp generalizing m with
  | finish v | unwind => exact h
  | ask r rest ih =>
    have hperform := (hcall.tenure hm₀).perform h fuel r
    unfold interpret
    split <;> rename_i hr <;> rw [hr] at hperform
    · exact ih _ hperform
    · exact hperform
    · trivial
  | read rest ih => exact ih m.host h
  | write s rest ih => exact ih (h.aside rfl rfl rfl rfl rfl)
  | addLoader name abstains tame rest _ ih =>
    exact ih (h.setModules (h.loaders.addLoader name fun handle => ⟨abstains handle, tame handle⟩))
  | setFunction handle name arity tame rest _ ih =>
    exact ih _ (h.setFunction handle name arity tame)

end Runs

/-- **Runs of tame host programs keep names and built-in functions.** -/
theorem Host.upholds_run {m₀ : Machine σ} (hm₀ : m₀.Founded) (fuel : Nat) :
    Callback.Upholds m₀ (run fuel : Callback σ) := by
  induction fuel with
  | zero => exact ⟨fun _ _ => trivial, fun _ => trivial⟩
  | succ fuel ih =>
    exact ⟨fun htame h => htame.upholds_interpret ih hm₀ fuel h,
      fun habstains => habstains.sameNames _ fuel _⟩

end ScriptMachine
