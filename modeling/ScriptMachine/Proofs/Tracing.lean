import ScriptMachine.Proofs.Occupancy
/-!
# What a collection keeps and what it frees

The worklist of a collection is a way to go through everything that the roots and pinned slots lead
to. Here this is said without a worklist, and the result of a collection is given slot by slot.

* `Heap.Sound.getElem?_mark`: **the marks are exactly on what can be reached**;
* `Heap.collects_of_run`: **collections are exact**, for all heaps that come about and all roots.
-/

namespace ScriptMachine

theorem Slot.isGarbage_iff {ν : Type} {s : Slot ν} :
    s.isGarbage = true ↔ s.isOccupied = true ∧ s.marked = false := by
  rw [isGarbage, Bool.and_eq_true, Bool.not_eq_true']
  rfl

namespace Heap

variable {ν : Type} {h : Heap ν} {roots roots' : List Value} {id : ObjectId} {i : Nat} {s : Slot ν}

/-! ## What can be reached -/

/-- A live object that the roots or a pinned slot lead to: from a list to its items, and from a
function to its constants, as far as these are alive. -/
inductive Reach (h : Heap ν) (roots : List Value) : ObjectId → Prop
  | root {v : Value} {id : ObjectId} (found : v ∈ roots) (object : v.asObject? = some id)
    (alive : h.contains id = true) : Reach h roots id
  | pinned {i : Nat} {s : Slot ν} (slot : h.slots[i]? = some s) (occupied : s.isOccupied = true)
    (pins : 0 < s.pins) : Reach h roots (s.address i)
  | item {id id' : ObjectId} {items : Array Value} {v : Value} (before : Reach h roots id)
    (list : h.get? id = some (.list items)) (found : v ∈ items) (object : v.asObject? = some id')
    (alive : h.contains id' = true) : Reach h roots id'
  | constant {id id' : ObjectId} {f : ScriptFunction} {v : Value} (before : Reach h roots id)
    (function : h.get? id = some (.function f)) (found : v ∈ f.chunk.constants)
    (object : v.asObject? = some id')
    (alive : h.contains id' = true) : Reach h roots id'

/-- More roots lead to more. -/
theorem Reach.mono (hsub : ∀ v ∈ roots, v ∈ roots') (hr : h.Reach roots id) :
    h.Reach roots' id := by
  induction hr with
  | root found object alive => exact .root (hsub _ found) object alive
  | pinned slot occupied pins => exact .pinned slot occupied pins
  | item _ list found object alive ih => exact .item ih list found object alive
  | constant _ function found object alive ih => exact .constant ih function found object alive

theorem Reach.child (hr : h.Reach roots id) {o : Object ν} (ho : h.get? id = some o)
    {child : ObjectId} (hchild : child ∈ o.children) (alive : h.contains child = true) :
    h.Reach roots child := by
  obtain ⟨v, hv, hobject⟩ := List.mem_filterMap.1 hchild
  have hv : v ∈ o.references := Array.mem_toList_iff.1 hv
  cases o with
  | list items => exact .item hr ho hv hobject alive
  | function f => exact .constant hr ho hv hobject alive
  | string s | native f => simp [Object.references] at hv

/-! ## Addresses of slots -/

section

variable (hfits : h.Fits) (hs : h.slots[i]? = some s)

include hfits hs

theorem Fits.toNat_address : (s.address i).index.toNat = i :=
  UInt32.toNat_ofNat_of_lt' (Nat.lt_of_lt_of_le (Array.getElem?_eq_some_iff.1 hs).1 hfits)

/-- The address of a slot in use leads to its object. -/
theorem Fits.get?_address : h.get? (s.address i) = s.object := by
  refine Option.ext fun o => ?_
  rw [get?_eq_some_iff, hfits.toNat_address hs, hs]
  simp [Slot.address]

theorem Fits.contains_address : h.contains (s.address i) = s.isOccupied := by
  rw [contains_eq_isSome_get?, hfits.get?_address hs]
  rfl

theorem Fits.pins_address (hoccupied : s.isOccupied = true) : h.pins (s.address i) = s.pins := by
  have hslot : h.slot? (s.address i) = some s :=
    slot?_eq_some_iff.2 ⟨by rw [hfits.toNat_address hs, hs], rfl, hoccupied⟩
  rw [pins, hslot]

end

/-- A live object lies in the slot that its address names. -/
theorem exists_slot_of_contains (hcontains : h.contains id = true) :
    ∃ s, h.slots[id.index.toNat]? = some s ∧ s.isOccupied = true ∧
    s.address id.index.toNat = id := by
  obtain ⟨o, ho⟩ := contains_iff.1 hcontains
  obtain ⟨s, hs, hg, ho⟩ := get?_eq_some_iff.1 ho
  exact ⟨s, hs, by simp [Slot.isOccupied, ho], ObjectId.ext (UInt32.ofNat_toNat) hg⟩

/-! ## Marks -/

/-- The slots after everything that can be reached was marked. -/
def mark (h : Heap ν) (roots : List Value) : Array (Slot ν) :=
  markFrom h.slots (roots.filterMap Value.asObject? ++ pinnedIds h.slots)

/-- Empty slots do not get marked. -/
theorem getElem?_markFrom_of_empty {slots : Array (Slot ν)} {gray : List ObjectId}
    (hs : slots[i]? = some s) (ho : s.object = none) : (markFrom slots gray)[i]? = some s := by
  fun_induction markFrom slots gray with
  | case1 slots => exact hs
  | case2 slots top gray hlt t o hto hm ih =>
    refine ih ?_
    rw [Array.getElem?_set]
    split
    · rename_i hi
      subst hi
      obtain rfl : t = s := Option.some.inj ((Array.getElem?_eq_getElem hlt).symm.trans hs)
      cases ho.symm.trans hto
    · exact hs
  | case3 slots top gray hlt t o hto hm ih | case4 slots top gray hlt t hto ih
  | case5 slots top gray hlt ih =>
    exact ih hs

/-- What is kept is what can be reached. -/
theorem Sound.kept_iff (hs : h.Sound) (hfits : h.Fits) (hcontains : h.contains id = true) :
    h.Kept roots id ↔ h.Reach roots id := by
  constructor
  · intro hk
    -- Everything alive that the worklist holds can be reached, whenever the collection looks at it.
    let K (id : ObjectId) : Prop := h.contains id = true → h.Reach roots id
    have hK : K id := by
      refine hs.tidy.of_kept hfits (fun v hv id hid alive => .root hv hid alive)
        (fun id hpins alive => ?_) (fun id o hid ho child hchild alive => ?_) hk
      · obtain ⟨s, hslot, hoccupied, hid⟩ := exists_slot_of_contains alive
        rw [← hid] at hpins ⊢
        exact .pinned hslot hoccupied (hfits.pins_address hslot hoccupied ▸ hpins)
      · exact (hid (contains_iff.2 ⟨o, ho⟩)).child ho hchild alive
    exact hK hcontains
  · intro hr
    induction hr with
    | root found object alive =>
      obtain ⟨o, ho⟩ := contains_iff.1 alive
      exact kept_of_mem_roots found object ho
    | pinned slot occupied pins =>
      exact kept_of_pinned ((hfits.pins_address slot occupied).symm ▸ pins)
    | item before list found object alive ih =>
      obtain ⟨o, ho⟩ := contains_iff.1 alive
      exact hs.tidy.kept_of_child (ih (contains_iff.2 ⟨_, list⟩)) list
        (List.mem_filterMap.2 ⟨_, Array.mem_toList_iff.2 found, object⟩) ho
    | constant before function found object alive ih =>
      obtain ⟨o, ho⟩ := contains_iff.1 alive
      exact hs.tidy.kept_of_child (ih (contains_iff.2 ⟨_, function⟩)) function
        (List.mem_filterMap.2 ⟨_, Array.mem_toList_iff.2 found, object⟩) ho

/-- **The marks are exactly on what can be reached.** -/
theorem Sound.getElem?_mark (hs : h.Sound) (hfits : h.Fits) (roots : List Value)
    (hslot : h.slots[i]? = some s) : ∃ b, (h.mark roots)[i]? = some { s with marked := b } ∧
      (b = true ↔ s.isOccupied = true ∧ h.Reach roots (s.address i)) := by
  by_cases hoccupied : s.isOccupied = true
  · obtain ⟨b, hb, -⟩ :=
      (onlyMarks_markFrom h.slots
        (roots.filterMap Value.asObject? ++ pinnedIds h.slots)).slot i s hslot
    have hkept : h.Kept roots (s.address i) ↔ b = true := by
      unfold Kept Marks
      rw [hfits.toNat_address hslot, hb]
      constructor
      · rintro ⟨t, ht, -, -, hmarked⟩
        obtain rfl := Option.some.inj ht
        exact hmarked
      · exact fun hb => ⟨_, rfl, rfl, hoccupied, hb⟩
    rw [hs.kept_iff hfits ((hfits.contains_address hslot).trans hoccupied)] at hkept
    exact ⟨b, hb, by rw [← hkept, hoccupied]; simp⟩
  · have hempty : s.object = none := by simpa [Slot.isOccupied] using hoccupied
    refine ⟨s.marked, getElem?_markFrom_of_empty hslot hempty, ?_⟩
    rw [hs.unmarked i s hslot]
    simp [hoccupied]

/-! ## Collections -/

/-- A slot in use that cannot be reached. -/
def Lost (h : Heap ν) (roots : List Value) (i : Nat) : Prop :=
  ∃ s, h.slots[i]? = some s ∧ s.isOccupied = true ∧ ¬ h.Reach roots (s.address i)

/-- The heap after a collection that has freed a number of objects, slot by slot. -/
structure Collects (h : Heap ν) (roots : List Value) (freed : Nat) (h' : Heap ν) : Prop where
  /-- The objects that are alive are those that were and can be reached. -/
  objects : ∀ id o, h'.get? id = some o ↔ h.get? id = some o ∧ h.Reach roots id
  size : h'.slots.size = h.slots.size
  /-- A slot that can be reached keeps its object, its generation and its pins. -/
  kept : ∀ (i : Nat) s, h.slots[i]? = some s → s.isOccupied = true → h.Reach roots (s.address i) →
    h'.slots[i]? = some s
  /-- Every other slot in use is emptied, and its next generation begins. -/
  emptied : ∀ (i : Nat) s, h.slots[i]? = some s → s.isOccupied = true →
    ¬ h.Reach roots (s.address i) →
    ∃ t, h'.slots[i]? = some t ∧ t.object = none ∧ t.pins = 0 ∧ t.marked = false ∧
      t.generation.toNat = (s.generation.toNat + 1) % 65536
  /-- Empty slots stay as they are. -/
  empty : ∀ (i : Nat) s, h.slots[i]? = some s → s.isOccupied = false → h'.slots[i]? = some s
  /-- The slots that were emptied are put on the free list in ascending order. -/
  freeList : ∃ indices : List Nat, indices.Pairwise (· < ·) ∧ (∀ i, i ∈ indices ↔ h.Lost roots i) ∧
    h'.freeList = indices.foldl (fun free i => i :: free) h.freeList ∧ freed = indices.length
  live : h'.live + freed = h.live

section

variable (hs : h.Sound) (hfits : h.Fits)

include hs hfits

theorem Sound.mem_garbage_mark_iff (roots : List Value) (i : Nat) :
    i ∈ garbage (h.mark roots) ↔ h.Lost roots i := by
  rw [mem_garbage_iff]
  constructor
  · rintro ⟨s, hslot, hgarbage⟩
    obtain ⟨t, b, ht, rfl⟩ := (onlyMarks_markFrom _ _).before hslot
    obtain ⟨b', hb, hreach⟩ := hs.getElem?_mark hfits roots ht
    rw [Option.some.inj (hslot.symm.trans hb), Slot.isGarbage_iff] at hgarbage
    obtain ⟨hoccupied, rfl⟩ := hgarbage
    exact ⟨t, ht, hoccupied, fun h => Bool.false_ne_true (hreach.2 ⟨hoccupied, h⟩)⟩
  · rintro ⟨s, hslot, hoccupied, hlost⟩
    obtain ⟨b, hb, hreach⟩ := hs.getElem?_mark hfits roots hslot
    exact ⟨_, hb, Slot.isGarbage_iff.2 ⟨hoccupied,
      Bool.eq_false_iff.2 fun h => hlost (hreach.1 h).2⟩⟩

/-- A slot is emptied if it is lost. -/
theorem Sound.getElem?_collect_of_lost (hslot : h.slots[i]? = some s)
    (hoccupied : s.isOccupied = true) (hlost : ¬ h.Reach roots (s.address i)) :
    (h.collect roots).2.slots[i]? = some { generation := s.generation + 1 } := by
  obtain ⟨b, hb, hreach⟩ := hs.getElem?_mark hfits roots hslot
  have hgarbage : ({ s with marked := b } : Slot ν).isGarbage = true :=
    Slot.isGarbage_iff.2 ⟨hoccupied, Bool.eq_false_iff.2 fun h => hlost (hreach.1 h).2⟩
  refine (Array.getElem?_map ..).trans ((congrArg (Option.map Slot.sweep) hb).trans ?_)
  rw [Option.map_some, Slot.sweep, if_pos hgarbage]

/-- Otherwise it stays as it is: it loses its mark, and had none before. -/
theorem Sound.getElem?_collect_of_reach (hslot : h.slots[i]? = some s)
    (hkept : s.isOccupied = true → h.Reach roots (s.address i)) :
    (h.collect roots).2.slots[i]? = some s := by
  obtain ⟨b, hb, hreach⟩ := hs.getElem?_mark hfits roots hslot
  have hgarbage : ¬ ({ s with marked := b } : Slot ν).isGarbage = true := by
    rw [Slot.isGarbage_iff]
    rintro ⟨hoccupied, rfl⟩
    exact Bool.false_ne_true (hreach.2 ⟨hoccupied, hkept hoccupied⟩)
  refine (Array.getElem?_map ..).trans ((congrArg (Option.map Slot.sweep) hb).trans ?_)
  rw [Option.map_some, Slot.sweep, if_neg hgarbage, ← hs.unmarked i s hslot]

theorem Sound.collects (roots : List Value) :
    h.Collects roots (h.collect roots).1 (h.collect roots).2 where
  objects id o := by
    refine get?_collect_eq_some_iff.trans (and_congr_right fun ho => ?_)
    exact hs.kept_iff hfits (contains_iff.2 ⟨o, ho⟩)
  size := size_collect h roots
  kept _ _ hi _ hreach := hs.getElem?_collect_of_reach hfits hi fun _ => hreach
  emptied _ s hi hoccupied hlost :=
    ⟨_, hs.getElem?_collect_of_lost hfits hi hoccupied hlost, rfl, rfl, rfl,
      UInt16.toNat_add s.generation 1⟩
  empty _ _ hi hempty :=
    hs.getElem?_collect_of_reach hfits hi fun hoccupied => by cases hempty.symm.trans hoccupied
  freeList := by
    refine ⟨garbage (h.mark roots), List.pairwise_lt_range.filter _,
      hs.mem_garbage_mark_iff hfits roots, ?_, rfl⟩
    rw [List.foldl_flip_cons_eq_append, List.map_id']
    rfl
  live := (hs.serves.freed roots).2

/-- The order of the roots does not matter, nor how often each is among them. -/
theorem Sound.collect_congr (hroots : ∀ v, v ∈ roots' ↔ v ∈ roots) :
    h.collect roots' = h.collect roots := by
  have hreach (id : ObjectId) : h.Reach roots' id ↔ h.Reach roots id :=
    ⟨Reach.mono fun v => (hroots v).1, Reach.mono fun v => (hroots v).2⟩
  have hmark : h.mark roots' = h.mark roots := by
    refine Array.ext_getElem? fun i => ?_
    cases hslot : h.slots[i]? with
    | none =>
      have hsize := Array.getElem?_eq_none_iff.1 hslot
      have hmark (roots : List Value) : (h.mark roots)[i]? = none :=
        Array.getElem?_eq_none_iff.2
          (Nat.le_trans (Nat.le_of_eq (onlyMarks_markFrom _ _).size) hsize)
      rw [hmark, hmark]
    | some s =>
      obtain ⟨b, hb, hmarked⟩ := hs.getElem?_mark hfits roots hslot
      obtain ⟨b', hb', hmarked'⟩ := hs.getElem?_mark hfits roots' hslot
      have hsame : b' = b := Bool.eq_iff_iff.2 (by rw [hmarked, hmarked', hreach])
      rw [hb, hb', hsame]
  show ({ h with slots := h.mark roots' } : Heap ν).sweep =
    ({ h with slots := h.mark roots } : Heap ν).sweep
  rw [hmark]

end

/-- **Collections are exact.** On every heap that comes about by operations, and for all roots, a
collection comes to an end and keeps exactly the slots that can be reached, as they were; it empties
all others, counts them and puts them on the free list in order. The order of the roots and
repetitions among them do not matter. -/
theorem collects_of_run (actions : List (Action ν)) (hfits : (({} : Heap ν).actAll actions).Fits)
    (roots : List Value) :
      (({} : Heap ν).actAll actions).Collects roots ((({} : Heap ν).actAll actions).collect roots).1
        ((({} : Heap ν).actAll actions).collect roots).2 ∧
    ∀ roots', (∀ v, v ∈ roots' ↔ v ∈ roots) →
      (({} : Heap ν).actAll actions).collect roots' =
        (({} : Heap ν).actAll actions).collect roots :=
  ⟨(Sound.empty.actAll actions).collects hfits roots,
    fun _ => (Sound.empty.actAll actions).collect_congr hfits⟩

/-- Two lists that hold themselves. The roots name one of them twice, and besides a number and an
address of the other one in a generation that is still to come. -/
theorem collects_of_run_cyclic : ∃ (actions : List (Action Unit)) (roots : List Value),
    (({} : Heap Unit).actAll actions).Fits ∧
    (({} : Heap Unit).actAll actions).Collects roots
      ((({} : Heap Unit).actAll actions).collect roots).1
        ((({} : Heap Unit).actAll actions).collect roots).2 ∧
    (({} : Heap Unit).actAll actions).collect roots.reverse =
      (({} : Heap Unit).actAll actions).collect roots ∧
    (({} : Heap Unit).actAll actions).Reach roots ⟨0, 0⟩ ∧
    (({} : Heap Unit).actAll actions).Lost roots 1 := by
  let list : Value := .ofObject ⟨0, 0⟩
  let actions : List (Action Unit) :=
    [.alloc (.list #[]), .alloc (.list #[]), .modify ⟨0, 0⟩ (·.pushItem list),
      .modify ⟨1, 0⟩ (·.pushItem (.ofObject ⟨1, 0⟩))]
  let roots : List Value := [list, .ofDouble (.ofNat 1), list, .ofObject ⟨1, 1⟩]
  have hfits : (({} : Heap Unit).actAll actions).Fits := by decide
  obtain ⟨hcollects, hcongr⟩ := collects_of_run actions hfits roots
  -- What the collection leaves shows what was reached.
  have hkept : ((({} : Heap Unit).actAll actions).collect roots).2.contains ⟨0, 0⟩ = true := by
    decide +kernel
  have hslot : (({} : Heap Unit).actAll actions).slots[1]?.any Slot.isOccupied = true := by
    decide +kernel
  have hgone : ((({} : Heap Unit).actAll actions).collect roots).2.slots[1]?.any Slot.isOccupied =
      false := by
    decide +kernel
  refine ⟨actions, roots, hfits, hcollects, hcongr _ fun v => List.mem_reverse, ?_, ?_⟩
  · obtain ⟨o, ho⟩ := contains_iff.1 hkept
    exact ((hcollects.objects _ o).1 ho).2
  · obtain ⟨s, hs, hoccupied⟩ := (Option.any_eq_true _ _).1 hslot
    refine ⟨s, hs, hoccupied, fun hreach => ?_⟩
    rw [hcollects.kept 1 s hs hoccupied hreach, Option.any_some, hoccupied] at hgone
    cases hgone

end Heap

end ScriptMachine
