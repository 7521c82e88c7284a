import ScriptMachine.Heap.Collect
/-!
# What the operations of the heap do

Each operation is described by the objects that can be looked up afterwards. Slots and free lists
are not looked at again outside of this module.

* `Heap.Tidy`: the free list holds free slots, each once, and no mark is left over;
* `Heap.get?_collect_eq_some_iff`, `Heap.Tidy.kept_of_child`: a collection keeps roots, pinned
  objects and what they lead to, as it was.
-/

namespace ScriptMachine

theorem ObjectId.ext {id id' : ObjectId} (hi : id.index = id'.index)
    (hg : id.generation = id'.generation) : id = id' := by
  obtain ⟨index, generation⟩ := id
  obtain ⟨index', generation'⟩ := id'
  obtain rfl : index = index' := hi
  obtain rfl : generation = generation' := hg
  rfl

namespace Heap

variable {ν : Type} {h : Heap ν} {id id' : ObjectId} {o : Object ν}

/-! ## Looking up -/

variable {s : Slot ν}

theorem slot?_eq_some_iff :
    h.slot? id = some s ↔
      h.slots[id.index.toNat]? = some s ∧ s.generation = id.generation ∧
      s.object.isSome = true := by
  unfold slot?
  cases hs : h.slots[id.index.toNat]? with
  | none => simp
  | some t =>
    by_cases hg : (t.generation = id.generation && t.object.isSome) = true
    · simp only [hg, if_true, Option.some.injEq]
      simp only [Bool.and_eq_true, decide_eq_true_eq] at hg
      exact ⟨fun he => he ▸ ⟨rfl, hg⟩, fun he => he.1⟩
    · simp only [hg, Bool.false_eq_true, if_false, reduceCtorEq, false_iff, Option.some.injEq]
      simp only [Bool.and_eq_true, decide_eq_true_eq] at hg
      rintro ⟨rfl, hs⟩
      exact hg hs

theorem get?_eq_some_iff :
    h.get? id = some o ↔
      ∃ s, h.slots[id.index.toNat]? = some s ∧ s.generation = id.generation ∧
      s.object = some o := by
  unfold get?
  rw [Option.bind_eq_some_iff]
  constructor
  · rintro ⟨s, hs, ho⟩
    obtain ⟨hslot, hgen, _⟩ := slot?_eq_some_iff.1 hs
    exact ⟨s, hslot, hgen, ho⟩
  · rintro ⟨s, hslot, hgen, ho⟩
    exact ⟨s, slot?_eq_some_iff.2 ⟨hslot, hgen, by simp [ho]⟩, ho⟩

theorem contains_eq_isSome_get? (h : Heap ν) (id : ObjectId) :
    h.contains id = (h.get? id).isSome := by
  unfold contains get?
  cases hs : h.slot? id with
  | none => rfl
  | some s =>
    obtain ⟨_, _, ho⟩ := slot?_eq_some_iff.1 hs
    exact ho.symm

theorem contains_iff : h.contains id = true ↔ ∃ o, h.get? id = some o := by
  rw [contains_eq_isSome_get?, Option.isSome_iff_exists]

/-- Slots that differ in pins only hold the same objects. -/
theorem get?_congr {h' : Heap ν}
    (hs : ∀ i : Nat, h'.slots[i]?.map (fun s => (s.generation, s.object)) =
      h.slots[i]?.map fun s => (s.generation, s.object))
    (id : ObjectId) : h'.get? id = h.get? id := by
  have hs := hs id.index.toNat
  apply Option.ext
  intro o
  rw [get?_eq_some_iff, get?_eq_some_iff]
  cases hx : h.slots[id.index.toNat]? with
  | none =>
    rw [hx, Option.map_none, Option.map_eq_none_iff] at hs
    simp [hs]
  | some s =>
    rw [hx, Option.map_some, Option.map_eq_some_iff] at hs
    obtain ⟨t, ht, heq⟩ := hs
    simp only [Prod.mk.injEq] at heq
    simp [ht, heq.1, heq.2]

/-! ## Pins -/

theorem get?_modifySlot_pins (h : Heap ν) (i : Nat) (f : Slot ν → Nat) (id : ObjectId) :
    (h.modifySlot i fun s => { s with pins := f s }).get? id = h.get? id := by
  refine get?_congr (fun k => ?_) id
  simp only [modifySlot, Array.getElem?_modify]
  split
  · cases h.slots[k]? <;> rfl
  · rfl

@[simp] theorem get?_pin (h : Heap ν) (id id' : ObjectId) : (h.pin id).2.get? id' = h.get? id' := by
  unfold pin
  split
  · exact h.get?_modifySlot_pins _ _ id'
  · rfl

@[simp] theorem get?_unpin (h : Heap ν) (id id' : ObjectId) :
    (h.unpin id).2.get? id' = h.get? id' := by
  unfold unpin
  split
  · rfl
  · split
    · rfl
    · exact h.get?_modifySlot_pins _ _ id'

/-! ## Changing objects -/

theorem get?_modify (h : Heap ν) (id id' : ObjectId) (f : Object ν → Object ν) :
    (h.modify id f).get? id' = if id' = id then (h.get? id).map f else h.get? id' := by
  unfold modify
  by_cases hc : h.contains id = true
  · rw [if_pos hc]
    obtain ⟨o, ho⟩ := contains_iff.1 hc
    obtain ⟨s, hs, hg, hso⟩ := get?_eq_some_iff.1 ho
    apply Option.ext
    intro x
    rw [get?_eq_some_iff]
    simp only [modifySlot, Array.getElem?_modify]
    by_cases hid : id' = id
    · subst hid
      simp [hs, hg, hso, ho]
    · rw [if_neg hid, get?_eq_some_iff]
      by_cases hi : id.index.toNat = id'.index.toNat
      · have hindex : id.index = id'.index := UInt32.toNat_inj.1 hi
        have hgen : s.generation ≠ id'.generation := fun hgen =>
          hid (ObjectId.ext hindex.symm (hgen.symm.trans hg))
        rw [← hi, hs]
        simp [hgen]
      · rw [if_neg hi]
  · rw [if_neg hc]
    have hnone : h.get? id = none := by
      rw [contains_eq_isSome_get?] at hc
      simpa using hc
    split
    · rename_i hid
      rw [hid, hnone, Option.map_none]
    · rfl

/-! ## New objects -/

/-- What can be looked up after an allocation is new or was there before. -/
theorem get?_alloc_cases {x : Object ν} (hx : (h.alloc o).2.get? id = some x) :
    x = o ∨ h.get? id = some x := by
  rw [get?_eq_some_iff] at hx ⊢
  obtain ⟨s, hs, hg, ho⟩ := hx
  unfold alloc at hs
  split at hs
  · rename_i index rest hfree
    rw [Array.getElem?_modify] at hs
    split at hs
    · obtain ⟨t, _, rfl⟩ := Option.map_eq_some_iff.1 hs
      exact .inl (Option.some.inj ho).symm
    · exact .inr ⟨s, hs, hg, ho⟩
  · rw [Array.getElem?_push] at hs
    split at hs
    · obtain rfl := Option.some.inj hs
      exact .inl (Option.some.inj ho).symm
    · exact .inr ⟨s, hs, hg, ho⟩

/-! ## Marking -/

section Mark

variable {slots : Array (Slot ν)} {gray : List ObjectId}

/-- An object lies in a slot, at an address. -/
def Holds (slots : Array (Slot ν)) (id : ObjectId) (o : Object ν) : Prop :=
  ∃ s, slots[id.index.toNat]? = some s ∧ s.generation = id.generation ∧ s.object = some o

/-- The object at an address is marked. -/
def Marks (slots : Array (Slot ν)) (id : ObjectId) : Prop :=
  ∃ s, slots[id.index.toNat]? = some s ∧ s.generation = id.generation ∧ s.object.isSome = true ∧
    s.marked = true

/-- Marking changes nothing but marks, and takes none away. -/
structure OnlyMarks (slots slots' : Array (Slot ν)) : Prop where
  size : slots'.size = slots.size
  slot : ∀ (i : Nat) s, slots[i]? = some s →
    ∃ b, slots'[i]? = some { s with marked := b } ∧ (s.marked = true → b = true)

theorem OnlyMarks.refl (slots : Array (Slot ν)) : OnlyMarks slots slots where
  size := rfl
  slot _ s hs := ⟨s.marked, hs, id⟩

theorem OnlyMarks.trans {slots' slots'' : Array (Slot ν)} (h : OnlyMarks slots slots')
    (h' : OnlyMarks slots' slots'') : OnlyMarks slots slots'' where
  size := h'.size.trans h.size
  slot i s hs := by
    obtain ⟨b, hb, hmono⟩ := h.slot i s hs
    obtain ⟨b', hb', hmono'⟩ := h'.slot i _ hb
    exact ⟨b', hb', fun hm => hmono' (hmono hm)⟩

theorem OnlyMarks.set {i : Nat} (hi : i < slots.size) :
    OnlyMarks slots (slots.set i { slots[i] with marked := true } hi) where
  size := Array.size_set hi
  slot k s hs := by
    rw [Array.getElem?_set]
    split
    · rename_i hk
      subst hk
      obtain rfl : slots[i] = s := by
        rw [Array.getElem?_eq_getElem hi] at hs
        exact Option.some.inj hs
      exact ⟨true, rfl, fun _ => rfl⟩
    · exact ⟨s.marked, hs, id⟩

theorem OnlyMarks.holds_iff {slots' : Array (Slot ν)} (h : OnlyMarks slots slots') :
    Holds slots' id o ↔ Holds slots id o := by
  constructor
  · rintro ⟨s, hs, hg, ho⟩
    have hlt := (Array.getElem?_eq_some_iff.1 hs).1
    rw [h.size] at hlt
    obtain ⟨b, hb, _⟩ := h.slot _ _ (Array.getElem?_eq_getElem hlt)
    rw [hb] at hs
    obtain rfl := Option.some.inj hs
    exact ⟨_, Array.getElem?_eq_getElem hlt, hg, ho⟩
  · rintro ⟨s, hs, hg, ho⟩
    obtain ⟨b, hb, _⟩ := h.slot _ _ hs
    exact ⟨_, hb, hg, ho⟩

theorem OnlyMarks.marks {slots' : Array (Slot ν)} (h : OnlyMarks slots slots')
    (hm : Marks slots id) : Marks slots' id := by
  obtain ⟨s, hs, hg, ho, hmark⟩ := hm
  obtain ⟨b, hb, hmono⟩ := h.slot _ _ hs
  exact ⟨_, hb, hg, ho, hmono hmark⟩

theorem onlyMarks_markFrom (slots : Array (Slot ν)) (gray : List ObjectId) :
    OnlyMarks slots (markFrom slots gray) := by
  fun_induction markFrom slots gray with
  | case1 slots => exact .refl slots
  | case2 slots id gray h s o ho hm ih => exact (OnlyMarks.set h).trans ih
  | case3 slots id gray h s o ho hm ih | case4 slots id gray h s ho ih | case5 slots id gray h ih =>
    exact ih

/-- Everything on the worklist gets marked. -/
theorem marks_markFrom_of_mem (hmem : id ∈ gray) (ho : Holds slots id o) :
    Marks (markFrom slots gray) id := by
  fun_induction markFrom slots gray with
  | case1 slots => cases hmem
  | case2 slots top gray h s o' ho' hm ih =>
    rcases List.mem_cons.1 hmem with rfl | hmem
    · refine (onlyMarks_markFrom _ _).marks ⟨{ s with marked := true }, ?_,
        hm.2, by simp [ho'], rfl⟩
      exact Array.getElem?_set_self h
    · exact ih (List.mem_append_right _ hmem) ((OnlyMarks.set h).holds_iff.2 ho)
  | case3 slots top gray h s o' ho' hm ih =>
    rcases List.mem_cons.1 hmem with rfl | hmem
    · obtain ⟨t, ht, hg, hto⟩ := ho
      obtain rfl : s = t := by
        rw [Array.getElem?_eq_getElem h] at ht
        exact Option.some.inj ht
      refine (onlyMarks_markFrom _ _).marks ⟨s, Array.getElem?_eq_getElem h, hg, by simp [ho'], ?_⟩
      exact Bool.not_eq_false _ ▸ fun hf => hm ⟨hf, hg⟩
    · exact ih hmem ho
  | case4 slots top gray h s ho' ih =>
    rcases List.mem_cons.1 hmem with rfl | hmem
    · obtain ⟨t, ht, _, hto⟩ := ho
      rw [Array.getElem?_eq_getElem h] at ht
      obtain rfl := Option.some.inj ht
      exact absurd (ho'.symm.trans hto) (by simp)
    · exact ih hmem ho
  | case5 slots top gray h ih =>
    rcases List.mem_cons.1 hmem with rfl | hmem
    · obtain ⟨t, ht, _, _⟩ := ho
      exact absurd (Array.getElem?_eq_some_iff.1 ht).1 h
    · exact ih hmem ho

/-- What a newly marked object refers to gets marked as well. -/
theorem marks_markFrom_of_child {o' : Object ν} {child : ObjectId}
    (hm : Marks (markFrom slots gray) id) (hnew : ¬ Marks slots id) (ho : Holds slots id o)
    (hchild : child ∈ o.children) (ho' : Holds slots child o') :
    Marks (markFrom slots gray) child := by
  fun_induction markFrom slots gray with
  | case1 slots => exact absurd hm hnew
  | case2 slots top gray h s x hx hmark ih =>
    have hset : OnlyMarks slots _ := OnlyMarks.set h
    by_cases hid : id = top
    · subst hid
      obtain ⟨t, ht, _, hto⟩ := ho
      rw [Array.getElem?_eq_getElem h] at ht
      obtain rfl := Option.some.inj ht
      obtain rfl : x = o := Option.some.inj (hx.symm.trans hto)
      exact marks_markFrom_of_mem (List.mem_append_left _ hchild) (hset.holds_iff.2 ho')
    · refine ih hm (fun hmarks => hnew ?_) (hset.holds_iff.2 ho) (hset.holds_iff.2 ho')
      obtain ⟨t, ht, hg, hto, htm⟩ := hmarks
      rw [Array.getElem?_set] at ht
      split at ht
      · rename_i hi
        obtain rfl := Option.some.inj ht
        exact absurd (ObjectId.ext (UInt32.toNat_inj.1 hi.symm) (hg.symm.trans hmark.2)) hid
      · exact ⟨t, ht, hg, hto, htm⟩
  | case3 slots top gray h s x hx hmark ih | case4 slots top gray h s hx ih
  | case5 slots top gray h ih =>
    exact ih hm hnew ho ho'

/-- What gets marked is in every set that holds the worklist and is closed under references. -/
theorem of_marks_markFrom {K : ObjectId → Prop} (hgray : ∀ id ∈ gray, K id)
    (hclosed : ∀ id o, K id → Holds slots id o → ∀ child ∈ o.children, K child)
    (hm : Marks (markFrom slots gray) id) : Marks slots id ∨ K id := by
  fun_induction markFrom slots gray with
  | case1 slots => exact .inl hm
  | case2 slots top gray h s o ho hmark ih =>
    have hset : OnlyMarks slots _ := OnlyMarks.set h
    have htop : K top := hgray top List.mem_cons_self
    have hholds : Holds slots top o := ⟨s, Array.getElem?_eq_getElem h, hmark.2, ho⟩
    have hchildren : ∀ id ∈ o.children ++ gray, K id := by
      intro id hid
      rcases List.mem_append.1 hid with hid | hid
      · exact hclosed top o htop hholds id hid
      · exact hgray id (List.mem_cons_of_mem _ hid)
    rcases ih hchildren (fun id o hid hold => hclosed id o hid (hset.holds_iff.1 hold))
      hm with hmarks | hid
    · obtain ⟨t, ht, hg, hto, htm⟩ := hmarks
      rw [Array.getElem?_set] at ht
      split at ht
      · rename_i hi
        obtain rfl := Option.some.inj ht
        exact .inr (ObjectId.ext (UInt32.toNat_inj.1 hi.symm) (hg.symm.trans hmark.2) ▸ htop)
      · exact .inl ⟨t, ht, hg, hto, htm⟩
    · exact .inr hid
  | case3 slots top gray h s o ho hmark ih | case4 slots top gray h s ho ih
  | case5 slots top gray h ih =>
    exact ih (fun id hid => hgray id (List.mem_cons_of_mem _ hid)) hclosed hm

end Mark

/-! ## Collecting -/

theorem get?_eq_some_iff_holds : h.get? id = some o ↔ Holds h.slots id o := get?_eq_some_iff

/-- The object at an address is kept by a collection. -/
def Kept (h : Heap ν) (roots : List Value) (id : ObjectId) : Prop :=
  Marks (markFrom h.slots (roots.filterMap Value.asObject? ++ pinnedIds h.slots)) id

theorem object_sweep_eq_some_iff (s : Slot ν) :
    s.sweep.object = some o ↔ s.object = some o ∧ s.marked = true := by
  unfold Slot.sweep Slot.isGarbage
  cases ho : s.object <;> cases hm : s.marked <;> simp_all

theorem generation_sweep_of_marked (hm : s.marked = true) : s.sweep.generation = s.generation := by
  simp [Slot.sweep, Slot.isGarbage, hm]

/-- What a sweep leaves is what was marked. -/
theorem get?_sweep_eq_some_iff :
    h.sweep.2.get? id = some o ↔ h.get? id = some o ∧ Marks h.slots id := by
  rw [get?_eq_some_iff, get?_eq_some_iff]
  simp only [sweep, Array.getElem?_map, Option.map_eq_some_iff]
  constructor
  · rintro ⟨_, ⟨s, hs, rfl⟩, hg, ho⟩
    obtain ⟨ho, hm⟩ := (object_sweep_eq_some_iff s).1 ho
    rw [generation_sweep_of_marked hm] at hg
    exact ⟨⟨s, hs, hg, ho⟩, s, hs, hg, by simp [ho], hm⟩
  · rintro ⟨⟨s, hs, hg, ho⟩, t, ht, _, _, hm⟩
    rw [hs] at ht
    obtain rfl := Option.some.inj ht
    exact ⟨s.sweep, ⟨s, hs, rfl⟩, (generation_sweep_of_marked hm).trans hg,
      (object_sweep_eq_some_iff s).2 ⟨ho, hm⟩⟩

variable {roots : List Value}

/-- **A collection keeps objects as they are, or frees them.** -/
theorem get?_collect_eq_some_iff :
    (h.collect roots).2.get? id = some o ↔ h.get? id = some o ∧ h.Kept roots id := by
  unfold collect
  rw [get?_sweep_eq_some_iff, get?_eq_some_iff_holds, get?_eq_some_iff_holds,
    (onlyMarks_markFrom _ _).holds_iff]
  rfl

theorem kept_of_mem_roots {v : Value} (hv : v ∈ roots)
    (hid : v.asObject? = some id) (ho : h.get? id = some o) : h.Kept roots id :=
  marks_markFrom_of_mem
    (List.mem_append_left _ (List.mem_filterMap.2 ⟨v, hv, hid⟩)) (get?_eq_some_iff_holds.1 ho)

/-! ## Tidy heaps -/

/-- The free list holds free slots, each once, and no mark is left over from a collection. -/
structure Tidy (h : Heap ν) : Prop where
  free : ∀ i ∈ h.freeList, ∃ s, h.slots[i]? = some s ∧ s.object = none
  nodup : h.freeList.Nodup
  unmarked : ∀ (i : Nat) s, h.slots[i]? = some s → s.marked = false

theorem Tidy.empty : ({} : Heap ν).Tidy where
  free := by simp
  nodup := List.nodup_nil
  unmarked := by simp

/-- **What a kept object refers to is kept.** -/
theorem Tidy.kept_of_child (ht : h.Tidy) {o' : Object ν} {child : ObjectId} (hk : h.Kept roots id)
    (ho : h.get? id = some o) (hchild : child ∈ o.children) (ho' : h.get? child = some o') :
    h.Kept roots child := by
  refine marks_markFrom_of_child hk ?_ (get?_eq_some_iff_holds.1 ho) hchild
    (get?_eq_some_iff_holds.1 ho')
  rintro ⟨s, hs, _, _, hm⟩
  rw [ht.unmarked _ s hs] at hm
  cases hm

theorem pins_eq_zero_of_get?_eq_none (hn : h.get? id = none) : h.pins id = 0 := by
  unfold pins
  cases hs : h.slot? id with
  | none => rfl
  | some s =>
    obtain ⟨_, _, ho⟩ := slot?_eq_some_iff.1 hs
    obtain ⟨o, ho⟩ := Option.isSome_iff_exists.1 ho
    have : h.get? id = some o := by simp [get?, hs, ho]
    rw [this] at hn
    cases hn

theorem pins_pos_iff : 0 < h.pins id ↔
    ∃ s, h.slots[id.index.toNat]? = some s ∧ s.generation = id.generation ∧
      s.object.isSome = true ∧ 0 < s.pins := by
  unfold pins
  constructor
  · intro hp
    cases hs : h.slot? id with
    | none => rw [hs] at hp; cases hp
    | some s =>
      rw [hs] at hp
      obtain ⟨h₁, h₂, h₃⟩ := slot?_eq_some_iff.1 hs
      exact ⟨s, h₁, h₂, h₃, hp⟩
  · rintro ⟨s, h₁, h₂, h₃, hp⟩
    rw [slot?_eq_some_iff.2 ⟨h₁, h₂, h₃⟩]
    exact hp

/-- **Pinned objects are kept.** -/
theorem kept_of_pinned (hp : 0 < h.pins id) : h.Kept roots id := by
  obtain ⟨s, hs, hg, ho, hp⟩ := pins_pos_iff.1 hp
  obtain ⟨o, ho⟩ := Option.isSome_iff_exists.1 ho
  refine marks_markFrom_of_mem (o := o) (List.mem_append_right _ (List.mem_filterMap.2
    ⟨id.index.toNat, ?_, ?_⟩)) ⟨s, hs, hg, ho⟩
  · exact List.mem_range.2 (Array.getElem?_eq_some_iff.1 hs).1
  · simp [hs, ho, hp, hg]

/-- A collection keeps the pins of what it keeps. -/
theorem pins_collect (hk : h.Kept roots id) : (h.collect roots).2.pins id = h.pins id := by
  obtain ⟨s, hs, hg, ho, hm⟩ := hk
  have honly := onlyMarks_markFrom h.slots (roots.filterMap Value.asObject? ++ pinnedIds h.slots)
  have hlt := (Array.getElem?_eq_some_iff.1 hs).1
  rw [honly.size] at hlt
  obtain ⟨b, hb, _⟩ := honly.slot _ _ (Array.getElem?_eq_getElem hlt)
  rw [hb] at hs
  obtain rfl := Option.some.inj hs
  have hsweep : (Slot.sweep { h.slots[id.index.toNat] with marked := b }) =
      { h.slots[id.index.toNat] with marked := false } := by
    simp only at hm
    simp [Slot.sweep, Slot.isGarbage, hm]
  have hafter : (h.collect roots).2.slot? id = some { h.slots[id.index.toNat] with
      marked := false } := by
    refine slot?_eq_some_iff.2 ⟨?_, hg, ho⟩
    simp only [collect, sweep, Array.getElem?_map, hb, Option.map_some, hsweep]
  have hbefore : h.slot? id = some h.slots[id.index.toNat] :=
    slot?_eq_some_iff.2 ⟨Array.getElem?_eq_getElem hlt, hg, ho⟩
  simp [pins, hafter, hbefore]

theorem size_collect (h : Heap ν) (roots : List Value) :
    (h.collect roots).2.slots.size = h.slots.size := by
  simp [collect, sweep, (onlyMarks_markFrom _ _).size]

theorem mem_garbage_iff {slots : Array (Slot ν)} {i : Nat} :
    i ∈ garbage slots ↔ ∃ s, slots[i]? = some s ∧ s.isGarbage = true := by
  simp only [garbage, List.mem_filter, List.mem_range]
  constructor
  · rintro ⟨hi, hg⟩
    rw [Array.getElem?_eq_getElem hi] at hg
    exact ⟨_, Array.getElem?_eq_getElem hi, hg⟩
  · rintro ⟨s, hs, hg⟩
    exact ⟨(Array.getElem?_eq_some_iff.1 hs).1, by rw [hs]; exact hg⟩

theorem marked_sweep (s : Slot ν) : s.sweep.marked = false := by
  unfold Slot.sweep
  split <;> rfl

theorem object_sweep_of_isGarbage (hs : s.isGarbage = true) : s.sweep.object = none := by
  simp [Slot.sweep, hs]

theorem object_sweep_of_none (hs : s.object = none) : s.sweep.object = none := by
  simp [Slot.sweep, Slot.isGarbage, hs]

theorem Tidy.collect (ht : h.Tidy) (roots : List Value) : (h.collect roots).2.Tidy := by
  have honly := onlyMarks_markFrom h.slots (roots.filterMap Value.asObject? ++ pinnedIds h.slots)
  have hfree : ∀ i ∈ h.freeList, ∃ s, (markFrom h.slots (roots.filterMap Value.asObject? ++
      pinnedIds h.slots))[i]? = some s ∧ s.object = none := by
    intro i hi
    obtain ⟨s, hs, ho⟩ := ht.free i hi
    obtain ⟨b, hb, _⟩ := honly.slot i s hs
    exact ⟨_, hb, ho⟩
  refine ⟨fun i hi => ?_, ?_, fun i s hs => ?_⟩
  · simp only [Heap.collect, sweep, Array.getElem?_map, Option.map_eq_some_iff]
    simp only [Heap.collect, sweep, List.mem_append, List.mem_reverse] at hi
    rcases hi with hi | hi
    · obtain ⟨s, hs, hg⟩ := mem_garbage_iff.1 hi
      exact ⟨s.sweep, ⟨s, hs, rfl⟩, object_sweep_of_isGarbage hg⟩
    · obtain ⟨s, hs, ho⟩ := hfree i hi
      exact ⟨s.sweep, ⟨s, hs, rfl⟩, object_sweep_of_none ho⟩
  · simp only [Heap.collect, sweep]
    refine List.nodup_append.2 ⟨?_, ht.nodup, ?_⟩
    · exact (List.reverse_perm _).nodup_iff.2 (List.nodup_range.sublist List.filter_sublist)
    · rintro i hi j hj rfl
      obtain ⟨s, hs, hg⟩ := mem_garbage_iff.1 (List.mem_reverse.1 hi)
      obtain ⟨t, ht, ho⟩ := hfree i hj
      rw [hs] at ht
      obtain rfl := Option.some.inj ht
      simp [Slot.isGarbage, ho] at hg
  · simp only [Heap.collect, sweep, Array.getElem?_map, Option.map_eq_some_iff] at hs
    obtain ⟨t, _, rfl⟩ := hs
    exact marked_sweep t

/-! ## Allocating in tidy heaps -/

/-- Addresses have thirty-two bits, so no more slots than that can be told apart. -/
def Fits (h : Heap ν) : Prop := h.slots.size ≤ UInt32.size

instance (h : Heap ν) : Decidable h.Fits := Nat.decLe _ _

theorem Fits.of_le {h' : Heap ν} (hfits : h'.Fits) (hle : h.slots.size ≤ h'.slots.size) : h.Fits :=
  Nat.le_trans hle hfits

/-- **Nothing else is kept**: what is kept is in every set that holds the roots and the pinned
objects and is closed under references. -/
theorem Tidy.of_kept (ht : h.Tidy) (hfits : h.Fits) {K : ObjectId → Prop}
    (hroots : ∀ v ∈ roots, ∀ id, v.asObject? = some id → K id)
    (hpinned : ∀ id, 0 < h.pins id → K id)
    (hclosed : ∀ id o, K id → h.get? id = some o → ∀ child ∈ o.children, K child)
    (hk : h.Kept roots id) : K id := by
  refine (of_marks_markFrom (fun id hid => ?_) (fun id o hid ho => hclosed id o hid
    (get?_eq_some_iff_holds.2 ho)) hk).resolve_left ?_
  · rcases List.mem_append.1 hid with hid | hid
    · obtain ⟨v, hv, hid⟩ := List.mem_filterMap.1 hid
      exact hroots v hv id hid
    · obtain ⟨i, hi, hid⟩ := List.mem_filterMap.1 hid
      have hlt : i < h.slots.size := List.mem_range.1 hi
      rw [Array.getElem?_eq_getElem hlt] at hid
      dsimp only at hid
      split at hid
      · rename_i hpin
        rw [Bool.and_eq_true, decide_eq_true_eq] at hpin
        obtain rfl := Option.some.inj hid
        have hindex : (UInt32.ofNat i).toNat = i :=
          UInt32.toNat_ofNat_of_lt' (Nat.lt_of_lt_of_le hlt hfits)
        refine hpinned _ (pins_pos_iff.2 ⟨h.slots[i], ?_, rfl, hpin⟩)
        rw [hindex, Array.getElem?_eq_getElem hlt]
      · cases hid
  · rintro ⟨s, hs, -, -, hm⟩
    rw [ht.unmarked _ s hs] at hm
    cases hm

theorem size_le_alloc (h : Heap ν) (o : Object ν) : h.slots.size ≤ (h.alloc o).2.slots.size := by
  unfold alloc
  split <;> simp

section

variable (ht : h.Tidy) (hfits : (h.alloc o).2.Fits)

include ht hfits

/-- The slot of a new object is free before, and its address is exact. -/
theorem Tidy.alloc_slot :
    (∀ s, h.slots[(h.alloc o).1.index.toNat]? = some s → s.object = none) ∧
    (∀ i : Nat, i ≠ (h.alloc o).1.index.toNat → (h.alloc o).2.slots[i]? = h.slots[i]?) ∧
    (h.alloc o).2.slots[(h.alloc o).1.index.toNat]? =
      some { generation := (h.alloc o).1.generation, object := some o } := by
  unfold alloc Fits at *
  cases hfree : h.freeList with
  | cons index rest =>
    obtain ⟨s, hs, ho⟩ := ht.free index (by simp [hfree])
    have hlt := (Array.getElem?_eq_some_iff.1 hs).1
    simp only [hfree, Array.size_modify] at hfits
    have hindex : (UInt32.ofNat index).toNat = index :=
      UInt32.toNat_ofNat_of_lt' (by omega)
    simp only [hindex, hs, Array.getElem?_modify, if_true, Option.map_some]
    refine ⟨?_, fun i hi => by rw [if_neg (Ne.symm hi)], trivial⟩
    rintro t ⟨⟩
    exact ho
  | nil =>
    simp only [hfree, Array.size_push] at hfits
    have hindex : (UInt32.ofNat h.slots.size).toNat = h.slots.size :=
      UInt32.toNat_ofNat_of_lt' (by omega)
    simp only [hindex, Array.getElem?_push, if_true]
    refine ⟨?_, fun i hi => by rw [if_neg hi], trivial⟩
    intro t hs
    simp at hs

/-- **A new object has an address of its own.** -/
theorem Tidy.get?_alloc (id : ObjectId) :
    (h.alloc o).2.get? id = if id = (h.alloc o).1 then some o else h.get? id := by
  obtain ⟨hfree, hother, hnew⟩ := ht.alloc_slot hfits
  apply Option.ext
  intro x
  rw [get?_eq_some_iff]
  by_cases hi : id.index = (h.alloc o).1.index
  · rw [hi, hnew]
    by_cases hid : id = (h.alloc o).1
    · simp [hid]
    · have hgen : (h.alloc o).1.generation ≠ id.generation := fun hgen =>
        hid (ObjectId.ext hi hgen.symm)
      rw [if_neg hid, get?_eq_some_iff, hi]
      simp only [Option.some.injEq, exists_eq_left', hgen, false_and, false_iff,
        not_exists, not_and]
      intro s hs _ ho
      rw [hfree s hs] at ho
      cases ho
  · have hne : id ≠ (h.alloc o).1 := fun he => hi (congrArg ObjectId.index he)
    have hne' : id.index.toNat ≠ (h.alloc o).1.index.toNat := fun he => hi (UInt32.toNat_inj.1 he)
    rw [if_neg hne, get?_eq_some_iff, hother _ hne']

theorem Tidy.get?_alloc_self : (h.alloc o).2.get? (h.alloc o).1 = some o := by
  rw [ht.get?_alloc hfits, if_pos rfl]

/-- The address of a new object was not in use. -/
theorem Tidy.get?_alloc_fresh : h.get? (h.alloc o).1 = none := by
  obtain ⟨hfree, _, _⟩ := ht.alloc_slot hfits
  cases hget : h.get? (h.alloc o).1 with
  | none => rfl
  | some x =>
    obtain ⟨s, hs, _, ho⟩ := get?_eq_some_iff.1 hget
    rw [hfree s hs] at ho
    cases ho

/-- An object that was there stays where it is. -/
theorem Tidy.get?_alloc_of_some {x : Object ν} (hx : h.get? id = some x) :
    (h.alloc o).2.get? id = some x := by
  rw [ht.get?_alloc hfits, if_neg, hx]
  rintro rfl
  rw [ht.get?_alloc_fresh hfits] at hx
  cases hx

end

theorem Tidy.alloc (ht : h.Tidy) (o : Object ν) : (h.alloc o).2.Tidy := by
  unfold Heap.alloc
  cases hfree : h.freeList with
  | cons index rest =>
    have hnodup := ht.nodup
    rw [hfree] at hnodup
    obtain ⟨hnotin, hnodup⟩ := List.nodup_cons.1 hnodup
    refine ⟨fun i hi => ?_, hnodup, fun i s hs => ?_⟩
    · obtain ⟨s, hs, ho⟩ := ht.free i (by simp [hfree, hi])
      have hne : index ≠ i := fun he => hnotin (he ▸ hi)
      exact ⟨s, by rw [Array.getElem?_modify, if_neg hne]; exact hs, ho⟩
    · rw [Array.getElem?_modify] at hs
      split at hs
      · obtain ⟨t, _, rfl⟩ := Option.map_eq_some_iff.1 hs
        rfl
      · exact ht.unmarked i s hs
  | nil =>
    refine ⟨by simp, by simp, fun i s hs => ?_⟩
    simp only [Array.getElem?_push] at hs
    split at hs
    · obtain rfl := Option.some.inj hs
      rfl
    · exact ht.unmarked i s hs

/-- Changing slots without touching marks, and without filling or freeing any, keeps a heap tidy. -/
theorem Tidy.modifySlot (ht : h.Tidy) (i : Nat) {f : Slot ν → Slot ν}
    (hf : ∀ s, (f s).marked = s.marked ∧ (s.object = none → (f s).object = none)) :
    (h.modifySlot i f).Tidy := by
  refine ⟨fun k hk => ?_, ht.nodup, fun k s hs => ?_⟩
  · obtain ⟨s, hs, ho⟩ := ht.free k hk
    simp only [Heap.modifySlot, Array.getElem?_modify, hs]
    split
    · exact ⟨f s, rfl, (hf s).2 ho⟩
    · exact ⟨s, rfl, ho⟩
  · simp only [Heap.modifySlot, Array.getElem?_modify] at hs
    split at hs
    · obtain ⟨t, hts, rfl⟩ := Option.map_eq_some_iff.1 hs
      rw [(hf t).1]
      exact ht.unmarked k t hts
    · exact ht.unmarked k s hs

theorem Tidy.modify (ht : h.Tidy) (id : ObjectId) (f : Object ν → Object ν) :
    (h.modify id f).Tidy := by
  unfold Heap.modify
  split
  · exact ht.modifySlot _ fun s => ⟨rfl, fun ho => by simp [ho]⟩
  · exact ht

theorem Tidy.pin (ht : h.Tidy) (id : ObjectId) : (h.pin id).2.Tidy := by
  unfold Heap.pin
  split
  · exact ht.modifySlot _ fun s => ⟨rfl, fun ho => ho⟩
  · exact ht

theorem Tidy.unpin (ht : h.Tidy) (id : ObjectId) : (h.unpin id).2.Tidy := by
  unfold Heap.unpin
  split
  · exact ht
  · split
    · exact ht
    · exact ht.modifySlot _ fun s => ⟨rfl, fun ho => ho⟩

variable (h : Heap ν) (id : ObjectId)

@[simp] theorem size_modify (f : Object ν → Object ν) :
    (h.modify id f).slots.size = h.slots.size := by
  unfold modify
  split <;> simp [modifySlot]

@[simp] theorem size_pin : (h.pin id).2.slots.size = h.slots.size := by
  unfold pin
  split <;> simp [modifySlot]

@[simp] theorem size_unpin : (h.unpin id).2.slots.size = h.slots.size := by
  unfold unpin
  split
  · rfl
  · split <;> simp [modifySlot]

end Heap

end ScriptMachine
