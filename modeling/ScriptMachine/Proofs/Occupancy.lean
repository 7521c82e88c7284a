import ScriptMachine.Proofs.Heap
/-!
# Which slots are in use

A heap tells several times which of its slots are in use: by the slots themselves, by the free list,
by the count of live objects and by pins, and while a collection runs by marks as well.

* `Heap.Sound`: the free list, the count of live objects, pins and marks agree with the slots;
* `Heap.Serves`: what this means for allocations and collections;
* `Heap.sound_actAll`: **every run of operations leaves a heap sound**.
-/

namespace ScriptMachine

variable {ν : Type}

/-- The address of the object in a slot. -/
def Slot.address (s : Slot ν) (i : Nat) : ObjectId := ⟨UInt32.ofNat i, s.generation⟩

/-- Whether there is an object in a slot. -/
def Slot.isOccupied (s : Slot ν) : Bool := s.object.isSome

namespace Heap

/-! ## Runs of operations -/

/-- An operation of the heap. -/
inductive Action (ν : Type)
  | alloc (o : Object ν)
  | pin (id : ObjectId)
  | unpin (id : ObjectId)
  /-- Changes an object in place. -/
  | modify (id : ObjectId) (f : Object ν → Object ν)
  | collect (roots : List Value)

/-- The heap after an operation. -/
def act (h : Heap ν) : Action ν → Heap ν
  | .alloc o => (h.alloc o).2
  | .pin id => (h.pin id).2
  | .unpin id => (h.unpin id).2
  | .modify id f => h.modify id f
  | .collect roots => (h.collect roots).2

/-- The heap after operations, from the first to the last. -/
def actAll (h : Heap ν) (actions : List (Action ν)) : Heap ν := actions.foldl act h

variable {h : Heap ν} {id : ObjectId} {o : Object ν} {i : Nat} {s : Slot ν}

/-! ## Counting slots -/

theorem countP_modify (p : Slot ν → Bool) {slots : Array (Slot ν)} (hs : slots[i]? = some s)
    (f : Slot ν → Slot ν) : (slots.modify i f).countP p + (p s).toNat =
      slots.countP p + (p (f s)).toNat := by
  obtain ⟨hi, rfl⟩ := Array.getElem?_eq_some_iff.1 hs
  have hset : slots.modify i f = slots.set i (f slots[i]) hi := by
    refine Array.ext_getElem? fun k => ?_
    rw [Array.getElem?_modify, Array.getElem?_set]
    split
    · rename_i hk
      subst hk
      rw [hs, Option.map_some]
    · rfl
  have hle := Array.boole_getElem_le_countP (p := p) hi
  rw [hset, Array.countP_set]
  cases hp : p slots[i] <;> cases p (f slots[i])
    <;> simp only [hp, Bool.toNat_true, Bool.toNat_false, if_true,
    Bool.false_eq_true, if_false] at hle ⊢ <;> omega

/-- The slots to be freed, counted. -/
theorem length_garbage (slots : Array (Slot ν)) :
    (garbage slots).length = slots.countP Slot.isGarbage := by
  have hrange : (List.range slots.size).map (fun i => slots[i]?) = slots.toList.map some := by
    refine List.ext_getElem (by simp) fun k hk hk' => ?_
    have hk : k < slots.size := by simpa using hk
    simp [Array.getElem?_eq_getElem hk]
  have hcount := congrArg (List.countP fun s? : Option (Slot ν) => s?.any Slot.isGarbage) hrange
  rw [List.countP_map, List.countP_map] at hcount
  rw [garbage, ← List.countP_eq_length_filter, ← Array.countP_toList]
  refine Eq.trans (List.countP_congr fun k _ => ?_) hcount
  rw [Function.comp_apply]
  cases slots[k]? <;> rfl

/-- Marking does not change which slots are in use. -/
theorem countP_markFrom (slots : Array (Slot ν)) (gray : List ObjectId) :
    (markFrom slots gray).countP Slot.isOccupied = slots.countP Slot.isOccupied := by
  have hmap : (markFrom slots gray).map Slot.isOccupied = slots.map Slot.isOccupied := by
    have honly := onlyMarks_markFrom slots gray
    refine Array.ext (by simp [honly.size]) fun i hi hi' => ?_
    have hlt : i < slots.size := by simpa using hi'
    obtain ⟨b, hb, -⟩ := honly.slot i _ (Array.getElem?_eq_getElem hlt)
    obtain ⟨hlt', hb⟩ := Array.getElem?_eq_some_iff.1 hb
    simp [hb, Slot.isOccupied]
  have hcount := congrArg (Array.countP id) hmap
  rwa [Array.countP_map, Array.countP_map] at hcount

/-- Sweeping frees the garbage and nothing else. -/
theorem countP_sweep (slots : Array (Slot ν)) :
    (slots.map Slot.sweep).countP Slot.isOccupied + slots.countP Slot.isGarbage =
      slots.countP Slot.isOccupied := by
  rw [Array.countP_map, ← Array.countP_toList, ← Array.countP_toList, ← Array.countP_toList]
  induction slots.toList with
  | nil => rfl
  | cons s l ih =>
    have hs : (if s.sweep.isOccupied then 1 else 0) + (if s.isGarbage then 1 else 0) =
        if s.isOccupied then 1 else 0 := by
      unfold Slot.sweep Slot.isGarbage Slot.isOccupied
      cases s.object <;> cases s.marked <;> rfl
    simp only [List.countP_cons, Function.comp_apply] at ih ⊢
    omega

/-- A collection frees as many slots as it says. -/
theorem countP_collect (h : Heap ν) (roots : List Value) :
    (h.collect roots).2.slots.countP Slot.isOccupied + (h.collect roots).1 =
      h.slots.countP Slot.isOccupied := by
  have hsweep :=
    countP_sweep (markFrom h.slots (roots.filterMap Value.asObject? ++ pinnedIds h.slots))
  rw [countP_markFrom, ← length_garbage] at hsweep
  exact hsweep

/-! ## Soundness -/

theorem OnlyMarks.before {slots slots' : Array (Slot ν)} (h : OnlyMarks slots slots')
    (hs : slots'[i]? = some s) : ∃ t b, slots[i]? = some t ∧ s = { t with marked := b } := by
  have hlt : i < slots.size := h.size ▸ (Array.getElem?_eq_some_iff.1 hs).1
  obtain ⟨b, hb, -⟩ := h.slot i _ (Array.getElem?_eq_getElem hlt)
  exact ⟨_, b, Array.getElem?_eq_getElem hlt, Option.some.inj (hs.symm.trans hb)⟩

theorem alloc_of_cons {index : Nat} {rest : List Nat} (hfree : h.freeList = index :: rest) :
    (h.alloc o).2 =
      { h with
        slots :=
          h.slots.modify index fun s => { s with object := some o, pins := 0, marked := false }
        freeList := rest
        live := h.live + 1
        allocsSinceCollect := h.allocsSinceCollect + 1 } := by
  unfold alloc
  rw [hfree]

theorem alloc_of_nil (hfree : h.freeList = []) :
    (h.alloc o).2 =
      { h with
        slots := h.slots.push { object := some o }
        live := h.live + 1
        allocsSinceCollect := h.allocsSinceCollect + 1 } := by
  unfold alloc
  rw [hfree]

/-- What holds between two operations: the free list, the count of live objects, pins and marks
agree with the slots. -/
structure Sound (h : Heap ν) : Prop where
  nodup : h.freeList.Nodup
  /-- The free list holds exactly the empty slots. -/
  mem_freeList_iff : ∀ i, i ∈ h.freeList ↔ ∃ s, h.slots[i]? = some s ∧ s.object = none
  live : h.live = h.slots.countP Slot.isOccupied
  unmarked : ∀ (i : Nat) s, h.slots[i]? = some s → s.marked = false
  unpinned : ∀ (i : Nat) s, h.slots[i]? = some s → s.object = none → s.pins = 0

namespace Sound

theorem empty : ({} : Heap ν).Sound where
  nodup := List.nodup_nil
  mem_freeList_iff := by simp
  live := rfl
  unmarked := by simp
  unpinned := by simp

variable (hs : h.Sound)

include hs

theorem tidy : h.Tidy where
  free i hi := (hs.mem_freeList_iff i).1 hi
  nodup := hs.nodup
  unmarked := hs.unmarked

theorem alloc (o : Object ν) : (h.alloc o).2.Sound := by
  obtain ⟨-, hnodup, hunmarked⟩ := hs.tidy.alloc o
  cases hfree : h.freeList with
  | cons index rest =>
    obtain ⟨s, hslot, ho⟩ := (hs.mem_freeList_iff index).1 (by simp [hfree])
    have hindex : index ∉ rest := (List.nodup_cons.1 (hfree ▸ hs.nodup)).1
    rw [alloc_of_cons hfree] at hnodup hunmarked ⊢
    refine ⟨hnodup, fun i => ?_, ?_, hunmarked, fun i t ht ho' => ?_⟩
    · have hi := hs.mem_freeList_iff i
      rw [hfree, List.mem_cons] at hi
      rw [Array.getElem?_modify]
      by_cases hne : index = i
      · subst hne
        simp [hindex, hslot]
      · rw [if_neg hne, ← hi]
        exact ⟨.inr, fun h => h.resolve_left (Ne.symm hne)⟩
    · have hcount := countP_modify Slot.isOccupied hslot fun s =>
        { s with object := some o, pins := 0, marked := false }
      simp only [Slot.isOccupied, ho, Option.isSome_none, Option.isSome_some, Bool.toNat_false,
        Bool.toNat_true, Nat.add_zero] at hcount
      exact (congrArg (· + 1) hs.live).trans hcount.symm
    · rw [Array.getElem?_modify] at ht
      split at ht
      · obtain ⟨u, -, rfl⟩ := Option.map_eq_some_iff.1 ht
        cases ho'
      · exact hs.unpinned i t ht ho'
  | nil =>
    rw [alloc_of_nil hfree] at hunmarked ⊢
    refine ⟨hs.nodup, fun i => ?_, ?_, hunmarked, fun i t ht ho' => ?_⟩
    · refine (hs.mem_freeList_iff i).trans ?_
      rw [Array.getElem?_push]
      split
      · rename_i hi
        simp [hi]
      · rfl
    · exact (congrArg (· + 1) hs.live).trans (Array.countP_push_of_pos (by rfl)).symm
    · rw [Array.getElem?_push] at ht
      split at ht
      · obtain rfl := Option.some.inj ht
        rfl
      · exact hs.unpinned i t ht ho'

/-- A change of a slot that neither fills nor frees it, and that pins no empty slot. -/
theorem modifySlot (i : Nat) {f : Slot ν → Slot ν}
    (hf : ∀ s, h.slots[i]? = some s → (f s).marked = s.marked ∧ (f s).isOccupied = s.isOccupied ∧
      (s.object = none → (f s).pins = s.pins)) :
    (h.modifySlot i f).Sound := by
  have hempty {s : Slot ν} (hslot : h.slots[i]? = some s) :
      (f s).object = none ↔ s.object = none := by
    rw [← Option.not_isSome_iff_eq_none, ← Option.not_isSome_iff_eq_none]
    exact not_congr (Bool.eq_iff_iff.1 (hf s hslot).2.1)
  -- Every slot is as it was, or the one that was changed.
  have hcases {k : Nat} {t : Slot ν} (ht : (h.modifySlot i f).slots[k]? = some t) :
      h.slots[k]? = some t ∨ ∃ u, h.slots[i]? = some u ∧ t = f u := by
    simp only [Heap.modifySlot, Array.getElem?_modify] at ht
    split at ht
    · rename_i hk
      subst hk
      obtain ⟨u, hu, rfl⟩ := Option.map_eq_some_iff.1 ht
      exact .inr ⟨u, hu, rfl⟩
    · exact .inl ht
  refine ⟨hs.nodup, fun k => ?_, ?_, fun k t ht => ?_, fun k t ht ho => ?_⟩
  · refine (hs.mem_freeList_iff k).trans ?_
    simp only [Heap.modifySlot, Array.getElem?_modify]
    split
    · rename_i hk
      subst hk
      cases hslot : h.slots[i]? with
      | none => simp
      | some s => simp [hempty hslot]
    · rfl
  · show h.live = (h.slots.modify i f).countP Slot.isOccupied
    cases hslot : h.slots[i]? with
    | none =>
      have hsame : h.slots.modify i f = h.slots := by
        refine Array.ext_getElem? fun k => ?_
        rw [Array.getElem?_modify]
        split
        · rename_i hk
          rw [← hk, hslot, Option.map_none]
        · rfl
      rw [hsame, hs.live]
    | some s =>
      have hcount := countP_modify Slot.isOccupied hslot f
      rw [(hf s hslot).2.1] at hcount
      exact hs.live.trans (Nat.add_right_cancel hcount).symm
  · obtain ht | ⟨u, hu, rfl⟩ := hcases ht
    · exact hs.unmarked k t ht
    · exact (hf u hu).1.trans (hs.unmarked i u hu)
  · obtain ht | ⟨u, hu, rfl⟩ := hcases ht
    · exact hs.unpinned k t ht ho
    · have ho := (hempty hu).1 ho
      exact ((hf u hu).2.2 ho).trans (hs.unpinned i u hu ho)

theorem modify (id : ObjectId) (f : Object ν → Object ν) : (h.modify id f).Sound := by
  unfold Heap.modify
  split
  · exact hs.modifySlot _ fun s _ => ⟨rfl, by simp [Slot.isOccupied], fun _ => rfl⟩
  · exact hs

theorem pin (id : ObjectId) : (h.pin id).2.Sound := by
  unfold Heap.pin
  split
  · rename_i hcontains
    obtain ⟨o, ho⟩ := contains_iff.1 hcontains
    obtain ⟨t, ht, -, ho⟩ := get?_eq_some_iff.1 ho
    refine hs.modifySlot _ fun s hslot => ⟨rfl, rfl, fun hempty => ?_⟩
    obtain rfl := Option.some.inj (hslot.symm.trans ht)
    cases hempty.symm.trans ho
  · exact hs

theorem unpin (id : ObjectId) : (h.unpin id).2.Sound := by
  unfold Heap.unpin
  split
  · exact hs
  · split
    · exact hs
    · refine hs.modifySlot _ fun s hslot => ⟨rfl, rfl, fun hempty => ?_⟩
      rw [hs.unpinned _ s hslot hempty]

theorem collect (roots : List Value) : (h.collect roots).2.Sound := by
  let slots := markFrom h.slots (roots.filterMap Value.asObject? ++ pinnedIds h.slots)
  have honly : OnlyMarks h.slots slots := onlyMarks_markFrom _ _
  obtain ⟨-, hnodup, hunmarked⟩ := hs.tidy.collect roots
  have hslot {i : Nat} {t : Slot ν} :
      (h.collect roots).2.slots[i]? = some t ↔ ∃ s, slots[i]? = some s ∧ s.sweep = t := by
    simp only [Heap.collect, Heap.sweep, Array.getElem?_map, Option.map_eq_some_iff, slots]
  refine ⟨hnodup, fun i => ?_, ?_, hunmarked, fun i t ht ho => ?_⟩
  · have hfree : i ∈ (h.collect roots).2.freeList ↔ i ∈ garbage slots ∨ i ∈ h.freeList := by
      simp only [Heap.collect, Heap.sweep, List.mem_append, List.mem_reverse, slots]
    rw [hfree, mem_garbage_iff, hs.mem_freeList_iff]
    constructor
    · rintro (⟨s, hs, hgarbage⟩ | ⟨s, hs, ho⟩)
      · exact ⟨s.sweep, hslot.2 ⟨s, hs, rfl⟩, object_sweep_of_isGarbage hgarbage⟩
      · obtain ⟨b, hb, -⟩ := honly.slot i s hs
        exact ⟨_, hslot.2 ⟨_, hb, rfl⟩, object_sweep_of_none ho⟩
    · rintro ⟨t, ht, ho⟩
      obtain ⟨s, hs, rfl⟩ := hslot.1 ht
      by_cases hgarbage : s.isGarbage = true
      · exact .inl ⟨s, hs, hgarbage⟩
      · obtain ⟨u, b, hu, rfl⟩ := honly.before hs
        rw [Slot.sweep, if_neg hgarbage] at ho
        exact .inr ⟨u, hu, ho⟩
  · show h.live - (h.collect roots).1 = (h.collect roots).2.slots.countP Slot.isOccupied
    rw [hs.live, ← countP_collect h roots, Nat.add_sub_cancel]
  · obtain ⟨s, hs', rfl⟩ := hslot.1 ht
    by_cases hgarbage : s.isGarbage = true
    · rw [Slot.sweep, if_pos hgarbage]
    · obtain ⟨u, b, hu, rfl⟩ := honly.before hs'
      rw [Slot.sweep, if_neg hgarbage] at ho ⊢
      exact hs.unpinned i u hu ho

/-- A collection frees no more objects than there are. -/
theorem freed_le_live (roots : List Value) : (h.collect roots).1 ≤ h.live := by
  rw [hs.live, ← countP_collect h roots]
  exact Nat.le_add_left _ _

/-- Each operation leaves a sound heap sound. -/
theorem act : (a : Action ν) → (h.act a).Sound
  | .alloc o => hs.alloc o
  | .pin id => hs.pin id
  | .unpin id => hs.unpin id
  | .modify id f => hs.modify id f
  | .collect roots => hs.collect roots

theorem actAll (actions : List (Action ν)) : (h.actAll actions).Sound := by
  induction actions generalizing h with
  | nil => exact hs
  | cons a actions ih => exact ih (hs.act a)

end Sound

/-! ## What is promised -/

/-- Two live objects of a heap have different addresses. -/
theorem Fits.eq_of_address_eq (hfits : h.Fits) {i j : Nat} {s t : Slot ν}
    (hs : h.slots[i]? = some s) (ht : h.slots[j]? = some t) (heq : s.address i = t.address j) :
    i = j := by
  have hi := Nat.lt_of_lt_of_le (Array.getElem?_eq_some_iff.1 hs).1 hfits
  have hj := Nat.lt_of_lt_of_le (Array.getElem?_eq_some_iff.1 ht).1 hfits
  have hindex : UInt32.ofNat i = UInt32.ofNat j := congrArg ObjectId.index heq
  have htoNat := congrArg UInt32.toNat hindex
  rwa [UInt32.toNat_ofNat_of_lt' hi, UInt32.toNat_ofNat_of_lt' hj] at htoNat

/-- What a heap promises to those who use it, as long as there are addresses left. -/
structure Serves (h : Heap ν) : Prop where
  /-- A collection frees no more objects than there are, so the count of live objects goes down by
  their number. -/
  freed : ∀ roots, (h.collect roots).1 ≤ h.live ∧
    (h.collect roots).2.live + (h.collect roots).1 = h.live
  /-- A new object gets a slot that is not in use, -/
  vacant : ∀ o, (h.alloc o).2.Fits → ∀ s, h.slots[(h.alloc o).1.index.toNat]? = some s →
    s.object = none
  /-- it lies there without pins or marks, under the generation of its address, -/
  placed : ∀ o, (h.alloc o).2.Fits → (h.alloc o).2.slots[(h.alloc o).1.index.toNat]? =
    some { generation := (h.alloc o).1.generation, object := some o }
  /-- and every other slot stays as it is. -/
  others : ∀ o, (h.alloc o).2.Fits → ∀ i : Nat, i ≠ (h.alloc o).1.index.toNat →
    (h.alloc o).2.slots[i]? = h.slots[i]?
  /-- No live object has the address of a new one. -/
  fresh : ∀ o, (h.alloc o).2.Fits → h.contains (h.alloc o).1 = false
  /-- Live objects in different slots have different addresses. -/
  distinct : h.Fits → ∀ (i j : Nat) s t, h.slots[i]? = some s → h.slots[j]? = some t →
    s.isOccupied = true → t.isOccupied = true → s.address i = t.address j → i = j

theorem Sound.serves (hs : h.Sound) : h.Serves where
  freed roots := by
    have hle := hs.freed_le_live roots
    have hlive : (h.collect roots).2.live = h.live - (h.collect roots).1 := rfl
    omega
  vacant _ hfits := (hs.tidy.alloc_slot hfits).1
  placed _ hfits := (hs.tidy.alloc_slot hfits).2.2
  others _ hfits := (hs.tidy.alloc_slot hfits).2.1
  fresh _ hfits := by
    rw [contains_eq_isSome_get?, hs.tidy.get?_alloc_fresh hfits, Option.isSome_none]
  distinct hfits _ _ _ _ hs' ht _ _ := hfits.eq_of_address_eq hs' ht

/-- **Every run of operations leaves a heap sound**, as long as there are addresses left: the free
list holds exactly the empty slots, each once, the count of live objects is that of the slots in
use, no mark is left over, and empty slots have no pins. So allocations never get in the way of
objects that are there, and addresses tell live objects apart. -/
theorem sound_actAll (actions : List (Action ν)) :
    ((({} : Heap ν).actAll actions).Fits → (({} : Heap ν).actAll actions).Sound) ∧
      (({} : Heap ν).actAll actions).Serves :=
  ⟨fun _ => Sound.empty.actAll actions, (Sound.empty.actAll actions).serves⟩

end Heap

end ScriptMachine
