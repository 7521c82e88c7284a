import ScriptMachine.Proofs.Tracing
import ScriptMachine.Proofs.Value
import ScriptMachine.Machine
/-!
# Addresses and the generations of their slots

The generation of a slot counts how often its object was freed, with sixteen bits, and an address is
good as long as the generation in it is the one of the slot. So an address leads to the object that
it was issued for until that object is freed, then nowhere, until the count starts over.

* `Heap.Sound.generation_actAll`: **the generation of a slot counts how often it was freed**;
* `Heap.aged_of_alloc`: **what becomes of an address**, from the operation that issues it on.
-/

namespace ScriptMachine

variable {ν : Type}

/-! ## Slots -/

/-- What one operation can do to a slot. -/
inductive Slot.Turns (s t : Slot ν) : Prop
  | stays (generation : t.generation = s.generation) (occupied : t.isOccupied = s.isOccupied)
  /-- A new object is placed in it. -/
  | fills (empty : s.isOccupied = false) (generation : t.generation = s.generation)
    (occupied : t.isOccupied = true)
  /-- Its object is freed. -/
  | empties (occupied : s.isOccupied = true) (generation : t.generation = s.generation + 1)
    (empty : t.isOccupied = false)

theorem Slot.Turns.refl (s : Slot ν) : s.Turns s := .stays rfl rfl

namespace Heap

variable {h : Heap ν} {id : ObjectId} {o : Object ν} {i : Nat} {s : Slot ν}

theorem turns_modifySlot (hslot : h.slots[i]? = some s) (k : Nat) {f : Slot ν → Slot ν}
    (hf : k = i → s.Turns (f s)) : ∃ t, (h.modifySlot k f).slots[i]? = some t ∧ s.Turns t := by
  by_cases hk : k = i
  · exact ⟨f s, by simp [modifySlot, Array.getElem?_modify, hk, hslot], hf hk⟩
  · exact ⟨s, by simp [modifySlot, Array.getElem?_modify, hk, hslot], .refl s⟩

theorem Sound.turns_alloc (hs : h.Sound) (hslot : h.slots[i]? = some s) (o : Object ν) :
    ∃ t, (h.alloc o).2.slots[i]? = some t ∧ s.Turns t := by
  cases hfree : h.freeList with
  | cons index rest =>
    rw [alloc_of_cons hfree]
    refine turns_modifySlot hslot index fun hindex => .fills ?_ rfl rfl
    obtain ⟨t, ht, hempty⟩ := (hs.mem_freeList_iff index).1 (by simp [hfree])
    obtain rfl := Option.some.inj ((hindex ▸ ht).symm.trans hslot)
    rw [Slot.isOccupied, hempty, Option.isSome_none]
  | nil =>
    rw [alloc_of_nil hfree]
    refine ⟨s, ?_, .refl s⟩
    rw [Array.getElem?_push, if_neg (Nat.ne_of_lt (Array.getElem?_eq_some_iff.1 hslot).1), hslot]

/-- A collection empties a slot or leaves it as it is. -/
theorem turns_collect (hslot : h.slots[i]? = some s) (roots : List Value) :
    ∃ t, (h.collect roots).2.slots[i]? = some t ∧ s.Turns t := by
  obtain ⟨b, hb, -⟩ :=
    (onlyMarks_markFrom h.slots
      (roots.filterMap Value.asObject? ++ pinnedIds h.slots)).slot i s hslot
  refine ⟨Slot.sweep { s with marked := b }, ?_, ?_⟩
  · exact (Array.getElem?_map ..).trans (congrArg (Option.map Slot.sweep) hb)
  · unfold Slot.sweep
    split
    · rename_i hgarbage
      exact .empties (Slot.isGarbage_iff.1 hgarbage).1 rfl rfl
    · exact .stays rfl rfl

/-- **What one operation does to a slot.** -/
theorem Sound.turns (hs : h.Sound) (hslot : h.slots[i]? = some s) (a : Action ν) :
    ∃ t, (h.act a).slots[i]? = some t ∧ s.Turns t := by
  cases a with
  | alloc o => exact hs.turns_alloc hslot o
  | collect roots => exact turns_collect hslot roots
  | pin id =>
    show ∃ t, (h.pin id).2.slots[i]? = some t ∧ s.Turns t
    unfold Heap.pin
    split
    · exact turns_modifySlot hslot _ fun _ => .stays rfl rfl
    · exact ⟨s, hslot, .refl s⟩
  | unpin id =>
    show ∃ t, (h.unpin id).2.slots[i]? = some t ∧ s.Turns t
    unfold Heap.unpin
    split
    · exact ⟨s, hslot, .refl s⟩
    · split
      · exact ⟨s, hslot, .refl s⟩
      · exact turns_modifySlot hslot _ fun _ => .stays rfl rfl
  | modify id f =>
    show ∃ t, (h.modify id f).slots[i]? = some t ∧ s.Turns t
    unfold Heap.modify
    split
    · exact turns_modifySlot hslot _ fun _ => .stays rfl (by simp [Slot.isOccupied])
    · exact ⟨s, hslot, .refl s⟩

/-! ## How often a slot is freed -/

/-- Whether a slot is in use. -/
def occupies (h : Heap ν) (i : Nat) : Bool := h.slots[i]?.any Slot.isOccupied

/-- Whether an operation frees the object in a slot. -/
def frees (h : Heap ν) (a : Action ν) (i : Nat) : Bool := h.occupies i && !(h.act a).occupies i

/-- How often a slot is freed by operations in order. -/
def freed (h : Heap ν) : List (Action ν) → Nat → Nat
  | [], _ => 0
  | a :: actions, i => (h.frees a i).toNat + (h.act a).freed actions i

theorem occupies_eq (hslot : h.slots[i]? = some s) : h.occupies i = s.isOccupied := by
  rw [occupies, hslot, Option.any_some]

/-- The generation grows if the slot is freed. -/
theorem Sound.generation_act (hs : h.Sound) (hslot : h.slots[i]? = some s) (a : Action ν) :
    ∃ t, (h.act a).slots[i]? = some t ∧
      t.generation = s.generation + UInt16.ofNat (h.frees a i).toNat ∧
      (h.frees a i = false → s.isOccupied = true → t.isOccupied = true) := by
  obtain ⟨t, ht, hturns⟩ := hs.turns hslot a
  refine ⟨t, ht, ?_⟩
  rw [frees, occupies_eq hslot, occupies_eq ht]
  cases hturns with
  | stays generation occupied =>
    rw [occupied, generation, Bool.and_not_self]
    exact ⟨by simp, fun _ h => h⟩
  | fills empty generation occupied =>
    rw [occupied, empty, generation]
    exact ⟨by simp, fun _ _ => rfl⟩
  | empties occupied generation empty =>
    rw [occupied, empty, generation]
    exact ⟨rfl, fun h => by cases h⟩

/-- **The generation of a slot counts how often it was freed**, and a slot in use that is never
freed stays in use. -/
theorem Sound.generation_actAll (hs : h.Sound) (hslot : h.slots[i]? = some s)
    (actions : List (Action ν)) : ∃ t, (h.actAll actions).slots[i]? = some t ∧
      t.generation = s.generation + UInt16.ofNat (h.freed actions i) ∧
      (h.freed actions i = 0 → s.isOccupied = true → t.isOccupied = true) := by
  induction actions generalizing h s with
  | nil => exact ⟨s, hslot, by simp [freed], fun _ h => h⟩
  | cons a actions ih =>
    obtain ⟨t, ht, hgeneration, hoccupied⟩ := hs.generation_act hslot a
    obtain ⟨u, hu, hgeneration', hoccupied'⟩ := ih (hs.act a) ht
    refine ⟨u, hu, ?_, fun hfreed h => hoccupied' ?_ (hoccupied ?_ h)⟩
    · rw [hgeneration', hgeneration, freed, UInt16.ofNat_add, UInt16.add_assoc]
    · exact (Nat.add_eq_zero_iff.1 hfreed).2
    · simpa using (Nat.add_eq_zero_iff.1 hfreed).1

/-! ## Addresses -/

/-- An address leads to an object: it is found there, and can be pinned and unpinned. -/
structure Resolves (h : Heap ν) (id : ObjectId) (o : Object ν) : Prop where
  contains : h.contains id = true
  get : h.get? id = some o
  pin : (h.pin id).1 = true
  unpin : (h.unpin id).1 ≠ .error .stale

/-- An address leads to no object: nothing is found there, and attempts to pin or unpin it fail and
change nothing. -/
structure Stale (h : Heap ν) (id : ObjectId) : Prop where
  contains : h.contains id = false
  get : h.get? id = none
  pin : h.pin id = (false, h)
  unpin : h.unpin id = (.error .stale, h)

theorem resolves_iff : h.Resolves id o ↔ h.get? id = some o := by
  refine ⟨Resolves.get, fun ho => ?_⟩
  have hcontains : h.contains id = true := contains_iff.2 ⟨o, ho⟩
  refine ⟨hcontains, ho, by rw [Heap.pin, if_pos hcontains], ?_⟩
  obtain ⟨s, hs⟩ := Option.isSome_iff_exists.1 hcontains
  unfold Heap.unpin
  rw [hs]
  dsimp only
  split <;> simp

theorem stale_iff : h.Stale id ↔ h.contains id = false := by
  refine ⟨Stale.contains, fun hcontains => ⟨hcontains, ?_, ?_, ?_⟩⟩
  · rwa [contains_eq_isSome_get?, Option.isSome_eq_false_iff,
      Option.isNone_iff_eq_none] at hcontains
  · rw [Heap.pin, if_neg (by rw [hcontains]; exact Bool.false_ne_true)]
  · unfold contains at hcontains
    rw [Option.isSome_eq_false_iff, Option.isNone_iff_eq_none] at hcontains
    unfold Heap.unpin
    rw [hcontains]

/-- What an operation makes of the object at an address. -/
def Action.rewrite (id : ObjectId) : Action ν → Object ν → Object ν
  | .modify id' f, o => if id = id' then f o else o
  | .alloc _, o | .pin _, o | .unpin _, o | .collect _, o => o

/-- An object that is not freed stays at its address, and changes only in the way that is asked
for. -/
theorem Sound.get?_act (hs : h.Sound) (a : Action ν) (hfits : (h.act a).Fits)
    (ho : h.get? id = some o) (hfrees : h.frees a id.index.toNat = false) :
    (h.act a).get? id = some (a.rewrite id o) := by
  cases a with
  | alloc x => exact hs.tidy.get?_alloc_of_some hfits ho
  | pin id' => exact (h.get?_pin id' id).trans ho
  | unpin id' => exact (h.get?_unpin id' id).trans ho
  | modify id' f =>
    refine (h.get?_modify id' id f).trans ?_
    show _ = some (if id = id' then f o else o)
    split
    · rename_i hid
      rw [← hid, ho, Option.map_some]
    · exact ho
  | collect roots =>
    -- The slot is still in use, in the same generation; what is found there was there before.
    obtain ⟨s, hslot, hgeneration, hobject⟩ := get?_eq_some_iff.1 ho
    obtain ⟨t, ht, hgeneration', hoccupied⟩ := hs.generation_act hslot (.collect roots)
    obtain ⟨x, hx⟩ :=
      Option.isSome_iff_exists.1 (hoccupied hfrees (by simp [Slot.isOccupied, hobject]))
    have hget : (h.act (.collect roots)).get? id = some x := by
      refine get?_eq_some_iff.2 ⟨t, ht, ?_, hx⟩
      rw [hgeneration', hfrees, ← hgeneration]
      simp
    obtain rfl := Option.some.inj ((get?_collect_eq_some_iff.1 hget).1.symm.trans ho)
    exact hget

theorem size_le_act (h : Heap ν) (a : Action ν) : h.slots.size ≤ (h.act a).slots.size := by
  cases a with
  | alloc o => exact size_le_alloc h o
  | pin id => exact Nat.le_of_eq (size_pin h id).symm
  | unpin id => exact Nat.le_of_eq (size_unpin h id).symm
  | modify id f => exact Nat.le_of_eq (size_modify h id f).symm
  | collect roots => exact Nat.le_of_eq (size_collect h roots).symm

theorem size_le_actAll (h : Heap ν) (actions : List (Action ν)) :
    h.slots.size ≤ (h.actAll actions).slots.size := by
  induction actions generalizing h with
  | nil => exact Nat.le_refl _
  | cons a actions ih => exact Nat.le_trans (h.size_le_act a) (ih (h.act a))

theorem Sound.get?_actAll (hs : h.Sound) (actions : List (Action ν))
    (hfits : (h.actAll actions).Fits) (ho : h.get? id = some o)
    (hfreed : h.freed actions id.index.toNat = 0) :
    (h.actAll actions).get? id = some (actions.foldl (fun o a => a.rewrite id o) o) := by
  induction actions generalizing h o with
  | nil => exact ho
  | cons a actions ih =>
    obtain ⟨hfrees, hfreed⟩ := Nat.add_eq_zero_iff.1 hfreed
    have hget := hs.get?_act a (hfits.of_le (size_le_actAll _ actions)) ho (by simpa using hfrees)
    exact ih (hs.act a) hfits hget hfreed

/-- An address is good in a slot of another generation if the two differ by a multiple of all
generations. -/
theorem generation_add_eq_iff (g : UInt16) (n : Nat) : g + UInt16.ofNat n = g ↔ 65536 ∣ n := by
  have hlt : g.toNat < 65536 := g.toNat_lt
  rw [← UInt16.toNat_inj, UInt16.toNat_add, UInt16.toNat_ofNat']
  omega

/-- After operations on a heap with an object, its address leads somewhere if its slot is in use,
and was freed as often as generations are told apart, or a multiple of it. -/
theorem Sound.contains_actAll_iff (hs : h.Sound) (actions : List (Action ν))
    (ho : h.get? id = some o) : (h.actAll actions).contains id = true ↔
      (h.actAll actions).occupies id.index.toNat = true ∧
      65536 ∣ h.freed actions id.index.toNat := by
  obtain ⟨s, hslot, hgeneration, -⟩ := get?_eq_some_iff.1 ho
  obtain ⟨t, ht, hgeneration', -⟩ := hs.generation_actAll hslot actions
  rw [hgeneration] at hgeneration'
  rw [occupies_eq ht, ← generation_add_eq_iff id.generation, ← hgeneration']
  unfold contains slot?
  rw [ht]
  simp [Slot.isOccupied, and_comm]

end Heap

/-! ## What becomes of an address -/

variable {σ : Type}

/-- A release of an address that leads nowhere is reported, and nothing else happens. -/
theorem Machine.release_of_stale {m : Machine σ} {id : ObjectId} (hstale : m.heap.Stale id) :
    m.release (.ofObject id) = (.error .invalidRelease,
      { m with invalidReleases := m.invalidReleases + 1 }) := by
  unfold release
  rw [Value.asObject?_ofObject]
  simp only [hstale.unpin]

namespace Heap

/-- What has become of the address of an object after operations on the heap. -/
structure Aged (h : Heap (Native σ)) (id : ObjectId) (o : Object (Native σ))
    (actions : List (Action (Native σ))) : Prop where
  /-- As long as the object was not freed its address leads to it, with the changes that were made
  to it. -/
  same : h.freed actions id.index.toNat = 0 →
    (h.actAll actions).Resolves id (actions.foldl (fun o a => a.rewrite id o) o)
  /-- Once it was freed, the address leads somewhere if the slot is in use and was freed a multiple
  of 65536 times, -/
  resolves : 0 < h.freed actions id.index.toNat → ((∃ x, (h.actAll actions).Resolves id x) ↔
    (h.actAll actions).occupies id.index.toNat = true ∧ 65536 ∣ h.freed actions id.index.toNat)
  /-- and nowhere otherwise; -/
  stale_iff : 0 < h.freed actions id.index.toNat → ((h.actAll actions).Stale id ↔
    ¬ ((h.actAll actions).occupies id.index.toNat = true ∧ 65536 ∣ h.freed actions id.index.toNat))
  /-- so before the slot was freed 65536 times it leads to no newer object, -/
  stale : 0 < h.freed actions id.index.toNat → h.freed actions id.index.toNat < 65536 →
    (h.actAll actions).Stale id
  /-- and every release of it is reported. -/
  reported : 0 < h.freed actions id.index.toNat → h.freed actions id.index.toNat < 65536 →
    ∀ m : Machine σ, m.heap = h.actAll actions → m.release (.ofObject id) =
      (.error .invalidRelease, { m with invalidReleases := m.invalidReleases + 1 })

theorem Sound.aged {h : Heap (Native σ)} {id : ObjectId} {o : Object (Native σ)} (hs : h.Sound)
    (ho : h.get? id = some o) (actions : List (Action (Native σ)))
    (hfits : (h.actAll actions).Fits) : h.Aged id o actions := by
  have hcontains := hs.contains_actAll_iff actions ho
  have hstale : (h.actAll actions).Stale id ↔ ¬ ((h.actAll actions).occupies id.index.toNat = true ∧
      65536 ∣ h.freed actions id.index.toNat) := by
    rw [Heap.stale_iff, ← hcontains, Bool.not_eq_true]
  have hsoon (hpos : 0 < h.freed actions id.index.toNat)
      (hlt : h.freed actions id.index.toNat < 65536) : (h.actAll actions).Stale id :=
          hstale.2 fun hdvd => by
    exact absurd (Nat.le_of_dvd hpos hdvd.2) (Nat.not_le.2 hlt)
  refine ⟨fun hfreed => resolves_iff.2 (hs.get?_actAll actions hfits ho hfreed), fun _ => ?_,
    fun _ => hstale, hsoon, fun hpos hlt m hm => Machine.release_of_stale (hm ▸ hsoon hpos hlt)⟩
  rw [← hcontains, contains_iff]
  exact exists_congr fun x => resolves_iff

/-- **What becomes of an address.** In every run of operations, an address that an allocation has
issued leads to the object it was issued for until that object is freed. Afterwards it leads
nowhere, unless its slot is in use and was freed a multiple of 65536 times. -/
theorem aged_of_alloc (before after : List (Action (Native σ))) (o : Object (Native σ))
    (hfits : (((({} : Heap (Native σ)).actAll before).alloc o).2.actAll after).Fits) :
    ((({} : Heap (Native σ)).actAll before).alloc o).2.Aged
      ((({} : Heap (Native σ)).actAll before).alloc o).1 o after := by
  have hs : (({} : Heap (Native σ)).actAll before).Sound := Sound.empty.actAll before
  have hget := hs.tidy.get?_alloc_self (hfits.of_le (size_le_actAll _ after))
  exact (hs.alloc o).aged hget after hfits

/-- A string is freed, and another one takes its place. The address of the first one leads
nowhere. -/
theorem aged_of_alloc_reused : ∃ (h : Heap (Native Unit)) (id : ObjectId)
    (after : List (Action (Native Unit))),
    (({} : Heap (Native Unit)).actAll []).alloc (.string "a") = (id, h) ∧ (h.actAll after).Fits ∧
    h.Aged id (.string "a") after ∧ h.freed after id.index.toNat = 1 ∧
    (h.actAll after).occupies id.index.toNat = true ∧ (h.actAll after).Stale id := by
  let r := (({} : Heap (Native Unit)).actAll []).alloc (.string "a")
  let after : List (Action (Native Unit)) := [.collect [], .alloc (.string "b")]
  have hfits : (r.2.actAll after).Fits := by decide +kernel
  have hfreed : r.2.freed after r.1.index.toNat = 1 := by decide +kernel
  have hoccupied : (r.2.actAll after).occupies r.1.index.toNat = true := by decide +kernel
  have haged := aged_of_alloc [] after (.string "a") hfits
  have hstale := haged.stale (hfreed ▸ Nat.one_pos) (hfreed ▸ by decide)
  exact ⟨r.2, r.1, after, rfl, hfits, haged, hfreed, hoccupied, hstale⟩

end Heap

end ScriptMachine
