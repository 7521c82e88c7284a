import ScriptMachine.Proofs.Growth
import ScriptMachine.Proofs.Invariant
/-!
# Known objects

The objects that a machine may come across: what variables, modules, the stack and the code in
progress refer to, and what these refer to in turn. All of them are alive.

* `Policy`: which objects may be known, and whether every live one is;
* `Policy.Known`: a machine with its known objects;
* `Policy.invariant`: **every instruction leads from known objects to known objects**.
-/

namespace ScriptMachine

variable {σ : Type}

/-- A value that is no object, or refers to one of those given. -/
def Knows (A : ObjectId → Prop) (v : Value) : Prop := ∀ id, v.asObject? = some id → A id

section Knows

variable {A A' : ObjectId → Prop} {v : Value}

theorem Knows.mono (h : Knows A v) (hA : ∀ id, A id → A' id) : Knows A' v :=
  fun id hid => hA id (h id hid)

theorem knows_of_asObject?_eq_none (h : v.asObject? = none) : Knows A v := fun id hid => by
  rw [h] at hid
  cases hid

theorem knows_ofObject {id : ObjectId} (h : A id) : Knows A (.ofObject id) := fun id' hid => by
  rw [Value.asObject?_ofObject] at hid
  exact Option.some.inj hid ▸ h

end Knows

/-! ## Variables -/

variable {v : Value}

namespace Globals

variable {slot : Nat}

variable {g : Globals}

theorem mem_values_of_get? (h : g.get? slot = some v) : v ∈ g.values := by
  unfold get? at h
  split at h
  · rename_i s hs
    exact List.mem_filterMap.2 ⟨s, Array.mem_toList_iff.2 (Array.mem_of_getElem? hs), h⟩
  · cases h

theorem get?_of_mem_values (h : v ∈ g.values) : ∃ slot, g.get? slot = some v := by
  obtain ⟨s, hs, hv⟩ := List.mem_filterMap.1 h
  obtain ⟨slot, hslot⟩ := List.mem_iff_getElem?.1 hs
  rw [Array.getElem?_toList] at hslot
  exact ⟨slot, by unfold get?; rw [hslot]; exact hv⟩

theorem size_set? {g g' : Globals} (h : g.set? slot v = some g') : g'.size = g.size := by
  rw [← length_names, ← length_names, names_set? h]

theorem mem_values_modify {f : GlobalSlot → GlobalSlot} {v u : Value}
    (hf : ∀ s, (f s).value = some v) {hname : ∀ s, (f s).name = s.name}
    (hu : u ∈ (g.modify slot f hname).values) : u = v ∨ u ∈ g.values := by
  obtain ⟨s, hs, hsu⟩ := List.mem_filterMap.1 hu
  obtain ⟨i, hi⟩ := Array.mem_iff_getElem?.1 (Array.mem_toList_iff.1 hs)
  rw [modify, Array.getElem?_modify] at hi
  split at hi
  · obtain ⟨t, -, rfl⟩ := Option.map_eq_some_iff.1 hi
    exact .inl (Option.some.inj (hsu.symm.trans (hf t)))
  · exact .inr (List.mem_filterMap.2 ⟨s, Array.mem_toList_iff.2 (Array.mem_of_getElem? hi), hsu⟩)

theorem mem_values_set? {g g' : Globals} {v u : Value} (h : g.set? slot v = some g')
    (hu : u ∈ g'.values) : u = v ∨ u ∈ g.values := by
  unfold set? at h
  split at h
  · cases h
    exact mem_values_modify (fun _ => rfl) hu
  · cases h

theorem values_declare (g : Globals) (name : String) : (g.declare name).values = g.values := by
  unfold declare
  split
  · rfl
  · simp [values, add]

theorem values_foldl_declare (news : List String) (g : Globals) :
    (news.foldl declare g).values = g.values := by
  induction news generalizing g with
  | nil => rfl
  | cons name news ih => rw [List.foldl_cons, ih, values_declare]

end Globals

/-! ## Modules -/

namespace Registry

variable {l : Type} {r : Registry l}

variable {index : Nat}

theorem mem_values_of_function? {name : String} (h : r.function? index name = some v) :
    v ∈ r.values := by
  unfold function? at h
  split at h
  · rename_i e he
    obtain ⟨p, hp, rfl⟩ := Option.map_eq_some_iff.1 h
    exact List.mem_flatMap.2 ⟨e, Array.mem_toList_iff.2 (Array.mem_of_getElem? he),
      List.mem_map.2 ⟨p, List.mem_of_find?_eq_some hp, rfl⟩⟩
  · cases h

theorem mem_entries_modify {f : ModuleEntry l → ModuleEntry l} {e : ModuleEntry l}
    (h : e ∈ r.entries.modify index f) : e ∈ r.entries ∨ ∃ e' ∈ r.entries, e = f e' := by
  obtain ⟨i, hi⟩ := Array.mem_iff_getElem?.1 h
  rw [Array.getElem?_modify] at hi
  split at hi
  · obtain ⟨e', he', rfl⟩ := Option.map_eq_some_iff.1 hi
    exact .inr ⟨e', Array.mem_of_getElem? he', rfl⟩
  · exact .inl (Array.mem_of_getElem? hi)

/-- Changes of a module bring no functions but those that they install. -/
theorem mem_values_modify {f : ModuleEntry l → ModuleEntry l}
    (h : v ∈ ({ entries := r.entries.modify index f } : Registry l).values) :
    v ∈ r.values ∨ ∃ e ∈ r.entries, v ∈ (f e).functions.map (·.2) := by
  obtain ⟨e, he, hv⟩ := List.mem_flatMap.1 h
  rcases mem_entries_modify (Array.mem_toList_iff.1 he) with he | ⟨e', he', rfl⟩
  · exact .inl (List.mem_flatMap.2 ⟨e, Array.mem_toList_iff.2 he, hv⟩)
  · exact .inr ⟨e', he', hv⟩

theorem mem_values_beginLoad (h : v ∈ (r.beginLoad index).values) : v ∈ r.values :=
  (mem_values_modify h).elim id fun ⟨e, he, hv⟩ =>
    List.mem_flatMap.2 ⟨e, Array.mem_toList_iff.2 he, hv⟩

theorem mem_values_finishLoad (h : v ∈ (r.finishLoad index).values) : v ∈ r.values :=
  (mem_values_modify h).elim id fun ⟨e, he, hv⟩ =>
    List.mem_flatMap.2 ⟨e, Array.mem_toList_iff.2 he, hv⟩

theorem mem_entries_of_lookup {name : String} {handle : ModuleHandle} {loader : l}
    (h : r.lookup name = .load index handle loader) :
    ∃ e ∈ r.entries, e.state = .registered loader := by
  unfold lookup at h
  split at h
  · cases h
  · split at h
    · cases h
    · rename_i e he
      split at h
      · cases h
      · cases h
      · rename_i hstate
        cases h
        exact ⟨e, Array.mem_of_getElem? he, hstate⟩

end Registry

/-! ## Policies -/

/-- Which objects may be known, when there are so many variables, and which loaders may be
registered. A policy may demand that every live object is known. -/
structure Policy (σ : Type) where
  allows : Nat → Object (Native σ) → Prop
  loader : Loader σ → Prop
  full : Prop
  mono : ∀ {b b' o}, b ≤ b' → allows b o → allows b' o
  string : ∀ b s, allows b (.string s)
  list : ∀ b xs, allows b (.list xs)
  function : ∀ {b} {d : Core.Func}, d.Scoped b → allows b (.function d.script)
  of_full : full → ∀ b o, allows b o

namespace Policy

/-- The loaders that wait for an import are among those allowed. -/
def Admits (P : Policy σ) (r : Registry (Loader σ)) : Prop :=
  ∀ e ∈ r.entries, ∀ l, e.state = .registered l → P.loader l

section

variable {P : Policy σ} {r : Registry (Loader σ)} (h : P.Admits r)

include h

theorem Admits.modify {index : Nat} {f : ModuleEntry (Loader σ) → ModuleEntry (Loader σ)}
    (hf : ∀ e l, (f e).state = .registered l → e.state = .registered l ∨ P.loader l) :
    P.Admits { entries := r.entries.modify index f } := by
  intro e he l hl
  rcases Registry.mem_entries_modify he with he | ⟨e', he', rfl⟩
  · exact h e he l hl
  · exact (hf e' l hl).elim (h e' he' l) id

theorem Admits.beginLoad (index : Nat) : P.Admits (r.beginLoad index) :=
  h.modify fun _ _ hl => nomatch hl

theorem Admits.finishLoad (index : Nat) : P.Admits (r.finishLoad index) :=
  h.modify fun _ _ hl => nomatch hl

end

/-- The objects that a machine may come across are alive, and so is what they refer to. -/
structure Known (P : Policy σ) (A : ObjectId → Prop) (m : Machine σ) : Prop where
  tidy : m.heap.Tidy
  roots : ∀ v ∈ m.roots, Knows A v
  loaders : P.Admits m.modules
  object : ∀ id, A id → ∃ o, m.heap.get? id = some o ∧ (∀ v ∈ o.references, Knows A v) ∧
    P.allows m.globals.size o

/-- If a policy demands it, every live object is known. -/
def Covers (P : Policy σ) (A : ObjectId → Prop) (m : Machine σ) : Prop :=
  P.full → ∀ id o, m.heap.get? id = some o → A id

/-- A machine with its known objects, as long as addresses do not run out. -/
def Holds (P : Policy σ) (A : ObjectId → Prop) (m : Machine σ) : Prop :=
  m.heap.Fits → P.Known A m ∧ P.Covers A m

variable {P : Policy σ} {A : ObjectId → Prop} {m m' : Machine σ}

theorem mem_roots : v ∈ m.roots ↔ v ∈ m.globals.values ∨ v ∈ m.modules.values ∨
    v ∈ m.stack ∨ ∃ f ∈ m.frames, v ∈ f.chunk.constants := by
  simp [Machine.roots]

/-- New variables have no values yet. -/
theorem roots_commit (m : Machine σ) (b : Build) : (Compile.commit b m).roots = m.roots := by
  have hvalues : (Compile.commit b m).globals.values = m.globals.values :=
    Globals.values_foldl_declare b.newGlobals _
  unfold Machine.roots
  rw [hvalues]
  rfl

variable {o : Object (Native σ)}

/-- A known object is allowed, and leads to known objects. -/
theorem Known.of_object? (h : P.Known A m) (hv : Knows A v)
    (ho : m.object? v = some o) : (∀ u ∈ o.references, Knows A u) ∧ P.allows m.globals.size o := by
  unfold Machine.object? at ho
  split at ho
  · rename_i id hid
    obtain ⟨x, hx, hrefs, hallows⟩ := h.object id (hv id hid)
    obtain rfl := Option.some.inj (ho.symm.trans hx)
    exact ⟨hrefs, hallows⟩
  · cases ho

/-- Changes that leave objects and variables alone, and bring nothing unknown. -/
theorem Known.of_roots (h : P.Known A m) (hheap : m'.heap = m.heap)
    (hsize : m.globals.size ≤ m'.globals.size) (hroots : ∀ v ∈ m'.roots, v ∈ m.roots ∨ Knows A v)
    (hloaders : P.Admits m'.modules) : P.Known A m' where
  tidy := hheap ▸ h.tidy
  roots v hv := (hroots v hv).elim (h.roots v) id
  loaders := hloaders
  object id hid := by
    obtain ⟨o, ho, hrefs, hallows⟩ := h.object id hid
    exact ⟨o, hheap ▸ ho, hrefs, P.mono hsize hallows⟩

/-- Changes of pins, or of parts that have nothing to do with objects. -/
theorem Known.of_get? (h : P.Known A m) (hglobals : m'.globals = m.globals)
    (hmodules : m'.modules = m.modules) (hstack : m'.stack = m.stack)
    (hframes : m'.frames = m.frames)
    (htidy : m'.heap.Tidy) (hget : ∀ id, m'.heap.get? id = m.heap.get? id) : P.Known A m' where
  tidy := htidy
  roots v hv := by
    rw [mem_roots, hglobals, hmodules, hstack, hframes, ← mem_roots] at hv
    exact h.roots v hv
  loaders := hmodules ▸ h.loaders
  object id hid := by
    rw [hget, hglobals]
    exact h.object id hid

theorem Covers.of_get? (h : P.Covers A m) (hget : ∀ id, m'.heap.get? id = m.heap.get? id) :
    P.Covers A m' := fun hfull id o ho => h hfull id o (hget id ▸ ho)

/-- A new object that need not be known. -/
theorem known_alloc_aside (h : P.Known A m) (o : Object (Native σ))
    (hfits : (m.heap.alloc o).2.Fits) : P.Known A (m.alloc o).2 where
  tidy := h.tidy.alloc o
  roots := h.roots
  loaders := h.loaders
  object id hid := by
    obtain ⟨x, hx, hxrefs, hxallows⟩ := h.object id hid
    exact ⟨x, h.tidy.get?_alloc_of_some hfits hx, hxrefs, hxallows⟩

/-- A new object whose contents are known. -/
theorem known_alloc (h : P.Known A m) (hrefs : ∀ v ∈ o.references, Knows A v)
    (hallows : P.allows m.globals.size o) (hfits : (m.heap.alloc o).2.Fits) :
    P.Known (fun id => A id ∨ id = (m.heap.alloc o).1) (m.alloc o).2 where
  tidy := h.tidy.alloc o
  roots v hv := (h.roots v hv).mono fun _ => .inl
  loaders := h.loaders
  object id hid := by
    rcases hid with hid | rfl
    · obtain ⟨x, hx, hxrefs, hxallows⟩ := (known_alloc_aside h o hfits).object id hid
      exact ⟨x, hx, fun v hv => (hxrefs v hv).mono fun _ => .inl, hxallows⟩
    · exact ⟨o, h.tidy.get?_alloc_self hfits, fun v hv => (hrefs v hv).mono fun _ => .inl, hallows⟩

theorem covers_alloc (h : P.Covers A m) (o : Object (Native σ)) (htidy : m.heap.Tidy)
    (hfits : (m.heap.alloc o).2.Fits) :
    P.Covers (fun id => A id ∨ id = (m.heap.alloc o).1) (m.alloc o).2 := by
  intro hfull id x hx
  have hx : (m.heap.alloc o).2.get? id = some x := hx
  rw [htidy.get?_alloc hfits] at hx
  split at hx
  · rename_i hid
    exact .inr hid
  · exact .inl (h hfull id x hx)

/-- A collection leaves what is kept, and everything that a machine may come across is. -/
theorem known_collect (h : P.Known A m) :
    P.Known (fun id => A id ∧ m.heap.Kept m.roots id) m.collect.2 where
  tidy := h.tidy.collect m.roots
  roots v hv id hid := by
    have hA := h.roots v hv id hid
    obtain ⟨o, ho, -⟩ := h.object id hA
    exact ⟨hA, Heap.kept_of_mem_roots hv hid ho⟩
  loaders := h.loaders
  object id hid := by
    obtain ⟨hA, hkept⟩ := hid
    obtain ⟨o, ho, hrefs, hallows⟩ := h.object id hA
    refine ⟨o, Heap.get?_collect_eq_some_iff.2 ⟨ho, hkept⟩, fun v hv c hc => ?_, hallows⟩
    have hAc := hrefs v hv c hc
    obtain ⟨o', ho', -⟩ := h.object c hAc
    have hchild : c ∈ o.children := List.mem_filterMap.2 ⟨v, Array.mem_toList_iff.2 hv, hc⟩
    exact ⟨hAc, h.tidy.kept_of_child hkept ho hchild ho'⟩

theorem covers_collect (h : P.Covers A m) :
    P.Covers (fun id => A id ∧ m.heap.Kept m.roots id) m.collect.2 := by
  intro hfull id o ho
  obtain ⟨ho, hkept⟩ := Heap.get?_collect_eq_some_iff.1 ho
  exact ⟨h hfull id o ho, hkept⟩

theorem known_setItem (h : P.Known A m) {id : ObjectId} {i : Nat} {u : Value} (hu : Knows A u) :
    P.Known A { m with heap := m.heap.modify id fun o => o.setItem i u } where
  tidy := h.tidy.modify id _
  roots := h.roots
  loaders := h.loaders
  object id' hid' := by
    obtain ⟨o, ho, hrefs, hallows⟩ := h.object id' hid'
    simp only [Heap.get?_modify]
    split
    · rename_i heq
      subst heq
      refine ⟨o.setItem i u, by rw [ho]; rfl, ?_, ?_⟩
      · cases o with
        | list items =>
          intro v hv
          rcases Array.mem_or_eq_of_mem_setIfInBounds hv with hv | rfl
          · exact hrefs v hv
          · exact hu
        | string s | function f | native f => exact hrefs
      · cases o with
        | list items => exact P.list _ _
        | string s | function f | native f => exact hallows
    · exact ⟨o, ho, hrefs, hallows⟩

theorem covers_setItem (h : P.Covers A m) (id : ObjectId) (i : Nat) (u : Value) :
    P.Covers A { m with heap := m.heap.modify id fun o => o.setItem i u } := by
  intro hfull id' o ho
  simp only [Heap.get?_modify] at ho
  split at ho
  · rename_i heq
    subst heq
    obtain ⟨o', ho', -⟩ := Option.map_eq_some_iff.1 ho
    exact h hfull id' o' ho'
  · exact h hfull id' o ho

/-! ## Instructions -/

theorem holds_alloc (h : P.Holds A m) (hrefs : ∀ v ∈ o.references, Knows A v)
    (hallows : P.allows m.globals.size o) :
    P.Holds (fun id => A id ∨ id = (m.heap.alloc o).1) (m.alloc o).2 := by
  intro hfits
  obtain ⟨hknown, hcovers⟩ := h (hfits.of_le (m.heap.size_le_alloc o))
  exact ⟨known_alloc hknown hrefs hallows hfits, covers_alloc hcovers o hknown.tidy hfits⟩

theorem holds_collect (h : P.Holds A m) :
    P.Holds (fun id => A id ∧ m.heap.Kept m.roots id) m.collect.2 := by
  intro hfits
  obtain ⟨hknown, hcovers⟩ := h (hfits.of_le (Nat.le_of_eq (Heap.size_collect m.heap m.roots).symm))
  exact ⟨known_collect hknown, covers_collect hcovers⟩

/-- Changes of pins, or of parts that have nothing to do with objects. -/
theorem Holds.of_get? (h : P.Holds A m) (hglobals : m'.globals = m.globals)
    (hmodules : m'.modules = m.modules) (hstack : m'.stack = m.stack)
    (hframes : m'.frames = m.frames) (hsize : m'.heap.slots.size = m.heap.slots.size)
    (htidy : m.heap.Tidy → m'.heap.Tidy) (hget : ∀ id, m'.heap.get? id = m.heap.get? id) :
    P.Holds A m' := by
  intro hfits
  obtain ⟨hknown, hcovers⟩ := h (hfits.of_le (Nat.le_of_eq hsize.symm))
  exact ⟨hknown.of_get? hglobals hmodules hstack hframes (htidy hknown.tidy) hget,
    hcovers.of_get? hget⟩

/-- Changes that leave the heap alone and bring nothing unknown. -/
theorem Holds.of_roots (h : P.Holds A m) (hheap : m'.heap = m.heap)
    (hsize : m.globals.size ≤ m'.globals.size) (hroots : ∀ v ∈ m'.roots, v ∈ m.roots ∨ Knows A v)
    (hloaders : P.Admits m.modules → P.Admits m'.modules) : P.Holds A m' := by
  intro hfits
  obtain ⟨hknown, hcovers⟩ := h (hheap ▸ hfits)
  exact ⟨hknown.of_roots hheap hsize hroots (hloaders hknown.loaders),
    hcovers.of_get? fun id => by rw [hheap]⟩

/-- The native functions that a policy allows. -/
def code (P : Policy σ) (c : Native σ) : Prop := ∃ b f, P.allows b (.native f) ∧ f.code = c

/-- A machine with its known objects in the middle of an evaluation. -/
def Runs (P : Policy σ) (A : ObjectId → Prop) (m : Machine σ) : Prop :=
  m.heap.Fits → m.inEval = true ∧ P.Known A m ∧ P.Covers A m

theorem Runs.holds (h : P.Runs A m) : P.Holds A m := fun hfits => (h hfits).2

theorem Holds.runs (h : P.Holds A m) (hm : m.heap.Fits → m.inEval = true) : P.Runs A m :=
  fun hfits =>
  ⟨hm hfits, h hfits⟩

/-- **Every instruction leads from known objects to known objects.** -/
def invariant (P : Policy σ) : Invariant σ where
  World := ObjectId → Prop
  knows := Knows
  holds := P.Runs
  code := P.code
  fits := Heap.Fits
  knows_of_asObject?_eq_none := knows_of_asObject?_eq_none
  stack h hf v hv := (h hf).2.1.roots v (mem_roots.2 (.inr (.inr (.inl hv))))
  constants h hf f hfr v hv := (h hf).2.1.roots v (mem_roots.2 (.inr (.inr (.inr ⟨f, hfr, hv⟩))))
  global h hf hv := (h hf).2.1.roots _ (mem_roots.2 (.inl (Globals.mem_values_of_get? hv)))
  references h hf hv ho := ((h hf).2.1.of_object? hv ho).1
  native {_ _ _ f} h hf hv ho := ⟨_, f, ((h hf).2.1.of_object? hv ho).2, rfl⟩
  setMessage h _ :=
    Holds.runs (h.holds.of_get? rfl rfl rfl rfl rfl id fun _ => rfl) fun hf => (h hf).1
  setCalls {_ m stack frames} h hstack hframes := by
    refine Holds.runs (h.holds.of_roots rfl (Nat.le_refl _) (fun v hv => ?_) id) fun hf => (h hf).1
    rcases mem_roots.1 hv with hv | hv | hv | ⟨f, hfr, hv⟩
    · exact .inl (mem_roots.2 (.inl hv))
    · exact .inl (mem_roots.2 (.inr (.inl hv)))
    · exact .inr (hstack v hv)
    · exact .inr (hframes f hfr v hv)
  setGlobal {_ m v slot globals} h hv hset := by
    have hsize := Nat.le_of_eq (Globals.size_set? hset).symm
    refine Holds.runs (h.holds.of_roots rfl hsize (fun u hu => ?_) id) fun hf => (h hf).1
    rcases mem_roots.1 hu with hu | hu
    · rcases Globals.mem_values_set? hset hu with rfl | hu
      · exact .inr hv
      · exact .inl (mem_roots.2 (.inl hu))
    · exact .inl (mem_roots.2 (.inr hu))
  setItem h _ _ _ _ _ hu hf := by
    obtain ⟨hm, hknown, hcovers⟩ := h (hf.of_le (Nat.le_of_eq (Heap.size_modify _ _ _).symm))
    exact ⟨hm, known_setItem hknown hu, covers_setItem hcovers _ _ _⟩
  newString {_ m} h s :=
    ⟨_, fun _ hv => hv.mono fun _ => .inl,
      Holds.runs (holds_alloc h.holds (fun _ hv => absurd hv (Array.not_mem_empty _))
        (P.string _ s)) fun hf => (h (hf.of_le (m.heap.size_le_alloc _))).1,
      knows_ofObject (.inr rfl)⟩
  newList {_ m _} h hxs :=
    ⟨_, fun _ hv => hv.mono fun _ => .inl,
      Holds.runs (holds_alloc h.holds hxs (P.list _ _)) fun hf =>
        (h (hf.of_le (m.heap.size_le_alloc _))).1,
      knows_ofObject (.inr rfl)⟩
  safePoint {A m} h := by
    unfold Machine.safePoint
    split
    · exact ⟨_, Holds.runs (holds_collect h.holds) fun hf =>
        (h (hf.of_le (Nat.le_of_eq (Heap.size_collect m.heap m.roots).symm))).1⟩
    · exact ⟨A, h⟩

end Policy

end ScriptMachine
