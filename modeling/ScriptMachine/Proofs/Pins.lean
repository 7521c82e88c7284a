import ScriptMachine.Proofs.History
import ScriptMachine.Proofs.Value
/-!
# Pins in the course of events

Every pin of an object has its reason: an evaluation that returned the object, a request that made
it for the host, or a request to retain it; every pin that is gone was released. So the number of
pins can be read off a history.

* `History.returned`, `History.created`, `History.retained`, `History.released`: the reasons;
* `Path.pins_eq_tally`: **the pins of an object**, and what a release does.
-/

namespace ScriptMachine

variable {σ ν : Type}

/-! ## Pins of a heap -/

/-- The pins that a slot has for an object of a generation. -/
def Slot.pinsFor (s : Slot ν) (generation : UInt16) : Nat :=
  if s.generation = generation ∧ s.object.isSome = true then s.pins else 0

namespace Heap

variable {h : Heap ν} {id id' : ObjectId} {o : Object ν}

theorem pins_eq (h : Heap ν) (id : ObjectId) :
    h.pins id = ((h.slots[id.index.toNat]?).map (·.pinsFor id.generation)).getD 0 := by
  unfold pins slot? Slot.pinsFor
  cases h.slots[id.index.toNat]? with
  | none => rfl
  | some s =>
    simp only [Option.map_some, Option.getD_some, Bool.and_eq_true, decide_eq_true_eq]
    by_cases hs : s.generation = id.generation ∧ s.object.isSome = true
    · rw [if_pos hs, if_pos hs]
    · rw [if_neg hs, if_neg hs]

theorem Tidy.pins_alloc (ht : h.Tidy) (hfits : (h.alloc o).2.Fits) (id : ObjectId) :
    (h.alloc o).2.pins id = h.pins id := by
  obtain ⟨hfree, hother, hnew⟩ := ht.alloc_slot hfits
  rw [pins_eq, pins_eq]
  by_cases hi : id.index.toNat = (h.alloc o).1.index.toNat
  · rw [hi, hnew]
    cases hs : h.slots[(h.alloc o).1.index.toNat]? with
    | none => simp [Slot.pinsFor]
    | some s => simp [Slot.pinsFor, hfree s hs]
  · rw [hother _ hi]

theorem pins_modifySlot (h : Heap ν) (i : Nat) (f : Slot ν → Slot ν) (id : ObjectId) :
    (h.modifySlot i f).pins id = if i = id.index.toNat
      then ((h.slots[id.index.toNat]?).map fun s => (f s).pinsFor id.generation).getD 0
        else h.pins id := by
  rw [pins_eq, pins_eq]
  simp only [modifySlot, Array.getElem?_modify]
  split
  · rw [Option.map_map]
    rfl
  · rfl

theorem pins_modify (h : Heap ν) (id : ObjectId) (f : Object ν → Object ν) (id' : ObjectId) :
    (h.modify id f).pins id' = h.pins id' := by
  unfold modify
  split
  · rw [pins_modifySlot]
    split
    · rw [pins_eq]
      refine congrArg (Option.getD · 0) (congrArg (Option.map · _) (funext fun s => ?_))
      simp [Slot.pinsFor]
    · rfl
  · rfl

/-- Changing the pins of a slot changes those of the object in it. -/
theorem pins_modifySlot_pins {s : Slot ν} (hs : h.slots[id.index.toNat]? = some s)
    (hg : s.generation = id.generation) (ho : s.object.isSome = true) (f : Nat → Nat)
    (id' : ObjectId) :
    (h.modifySlot id.index.toNat fun s => { s with pins := f s.pins }).pins id' =
      if id' = id then f (h.pins id) else h.pins id' := by
  rw [pins_modifySlot, pins_eq, pins_eq]
  by_cases hi : id.index.toNat = id'.index.toNat
  · rw [if_pos hi, ← hi, hs]
    by_cases hid : id' = id
    · subst hid
      simp [Slot.pinsFor, hg, ho]
    · have hgen : s.generation ≠ id'.generation := fun hgen =>
        hid (ObjectId.ext (UInt32.toNat_inj.1 hi).symm (hgen.symm.trans hg))
      simp [Slot.pinsFor, hgen, hid]
  · have hid : id' ≠ id := fun hid => hi (by rw [hid])
    rw [if_neg hi, if_neg hid]

/-- A pin more on an object that is alive. -/
theorem pins_pin (h : Heap ν) (id id' : ObjectId) :
    (h.pin id).2.pins id' = h.pins id' + if id' = id ∧ h.contains id = true then 1 else 0 := by
  unfold pin
  cases hc : h.contains id with
  | false => simp
  | true =>
    obtain ⟨o, ho⟩ := contains_iff.1 hc
    obtain ⟨s, hs, hg, hso⟩ := get?_eq_some_iff.1 ho
    simp only [if_true, and_true]
    rw [pins_modifySlot_pins hs hg (by simp [hso]) (· + 1)]
    split <;> simp_all

/-- A pin less on an object that has some. -/
theorem pins_unpin (hp : 0 < h.pins id) : ∃ left, (h.unpin id).1 = .ok left ∧
    ∀ id', (h.unpin id).2.pins id' + (if id' = id then 1 else 0) = h.pins id' := by
  obtain ⟨s, hs, hg, ho, hpos⟩ := pins_pos_iff.1 hp
  have hslot : h.slot? id = some s := slot?_eq_some_iff.2 ⟨hs, hg, ho⟩
  unfold unpin
  rw [hslot]
  dsimp only
  rw [if_neg (Nat.ne_of_gt hpos)]
  refine ⟨_, rfl, fun id' => ?_⟩
  dsimp only
  rw [pins_modifySlot_pins hs hg ho (· - 1)]
  split
  · subst id'
    exact Nat.sub_add_cancel hp
  · rfl

/-- Without pins there is none to take off. -/
theorem unpin_of_pins_eq_zero (hp : h.pins id = 0) : ∃ fault, h.unpin id = (.error fault, h) := by
  unfold pins at hp
  unfold unpin
  cases hs : h.slot? id with
  | none => exact ⟨_, rfl⟩
  | some s =>
    rw [hs] at hp
    dsimp only at hp ⊢
    rw [if_pos hp]
    exact ⟨_, rfl⟩

/-- Collections leave pins as they are. -/
theorem pins_collect_eq (h : Heap ν) (roots : List Value) (id : ObjectId) :
    (h.collect roots).2.pins id = h.pins id := by
  by_cases hk : h.Kept roots id
  · exact pins_collect hk
  · have hzero : h.pins id = 0 := Nat.eq_zero_of_not_pos fun hp => hk (kept_of_pinned hp)
    rw [hzero]
    refine pins_eq_zero_of_get?_eq_none ?_
    cases ho : (h.collect roots).2.get? id with
    | none => rfl
    | some o => exact absurd (get?_collect_eq_some_iff.1 ho).2 hk

theorem contains_of_pins_pos (hp : 0 < h.pins id) : h.contains id = true := by
  rw [contains_iff]
  cases ho : h.get? id with
  | none => rw [pins_eq_zero_of_get?_eq_none ho] at hp; cases hp
  | some o => exact ⟨o, rfl⟩

end Heap

/-! ## Pins of a machine -/

/-- Whether a value is a reference to an object. -/
def Value.refersTo (v : Value) (id : ObjectId) : Bool := decide (v.asObject? = some id)

theorem Value.refersTo_iff {v : Value} {id : ObjectId} :
    v.refersTo id = true ↔ v.asObject? = some id :=
  decide_eq_true_iff

namespace Machine

variable {m n n' : Machine σ} {gain loss : ObjectId → Nat}

/-- Objects have got and lost so many pins, as long as addresses do not run out. -/
structure Repins (m n : Machine σ) (gain loss : ObjectId → Nat) : Prop where
  size : m.heap.slots.size ≤ n.heap.slots.size
  tidy : n.heap.Fits → m.heap.Tidy → n.heap.Tidy
  pins : n.heap.Fits → m.heap.Tidy → ∀ id, n.heap.pins id + loss id = m.heap.pins id + gain id

theorem Repins.congr {gain' loss' : ObjectId → Nat} (h : m.Repins n gain loss)
    (hgain : ∀ id, gain id = gain' id) (hloss : ∀ id, loss id = loss' id) :
    m.Repins n gain' loss' :=
  funext hgain ▸ funext hloss ▸ h

/-- Objects have the pins that they had. -/
abbrev KeepsPins (m n : Machine σ) : Prop := m.Repins n (fun _ => 0) fun _ => 0

theorem KeepsPins.of_heap (h : n.heap = m.heap) : m.KeepsPins n where
  size := Nat.le_of_eq (by rw [h])
  tidy _ ht := h ▸ ht
  pins _ _ id := by rw [h]

theorem KeepsPins.refl (m : Machine σ) : m.KeepsPins m := .of_heap rfl

theorem Repins.comp {gain' loss' : ObjectId → Nat} (h : m.Repins n gain loss)
    (h' : n.Repins n' gain' loss') :
    m.Repins n' (fun id => gain id + gain' id) fun id => loss id + loss' id where
  size := Nat.le_trans h.size h'.size
  tidy hfits ht := h'.tidy hfits (h.tidy (hfits.of_le h'.size) ht)
  pins hfits ht id := by
    have hpins := h.pins (hfits.of_le h'.size) ht id
    have hpins' := h'.pins hfits (h.tidy (hfits.of_le h'.size) ht) id
    omega

theorem Repins.trans (h : m.Repins n gain loss) (h' : n.KeepsPins n') : m.Repins n' gain loss :=
  h.comp h'

theorem KeepsPins.before (h : m.KeepsPins n) (h' : n.Repins n' gain loss) : m.Repins n' gain loss :=
  (h.comp h').congr (fun _ => Nat.zero_add _) fun _ => Nat.zero_add _

theorem keepsPins_alloc (m : Machine σ) (o : Object (Native σ)) : m.KeepsPins (m.alloc o).2 where
  size := m.heap.size_le_alloc o
  tidy _ ht := ht.alloc o
  pins hfits ht id := by
    have hpins := ht.pins_alloc hfits id
    exact congrArg (· + 0) hpins

theorem keepsPins_collect (m : Machine σ) : m.KeepsPins m.collect.2 where
  size := Nat.le_of_eq (Heap.size_collect m.heap m.roots).symm
  tidy _ ht := ht.collect m.roots
  pins _ _ id := congrArg (· + 0) (m.heap.pins_collect_eq m.roots id)

theorem keepsPins_collectGarbage (m : Machine σ) : m.KeepsPins m.collectGarbage.2 := by
  unfold collectGarbage
  split
  · exact .refl m
  · exact m.keepsPins_collect

/-- Instructions leave pins as they are. -/
theorem upkeep_keepsPins (m₀ : Machine σ) : Upkeep m₀.KeepsPins where
  message _ h := h.trans (.of_heap rfl)
  stack _ h := h.trans (.of_heap rfl)
  push _ _ h := h.trans (.of_heap rfl)
  jump _ h := h.trans (.of_heap rfl)
  enter _ _ _ h := h.trans (.of_heap rfl)
  leave h := h.trans (.of_heap rfl)
  setGlobal _ _ _ _ h := h.trans (.of_heap rfl)
  setItem {m} id _ _ h := h.trans
    ⟨Nat.le_of_eq (m.heap.size_modify id _).symm, fun _ ht => ht.modify id _,
      fun _ _ id' => congrArg (· + 0) (m.heap.pins_modify id _ id')⟩
  string _ h := h.trans (keepsPins_alloc _ _)
  list _ h := h.trans (keepsPins_alloc _ _)
  safePoint h := safePoint_of_collect h (h.trans (keepsPins_collect _))

variable {v : Value} {id : ObjectId}

theorem repins_pin (m : Machine σ) (hid : v.asObject? = some id) :
    m.Repins { m with heap := (m.heap.pin id).2 }
      (fun id' => (v.refersTo id' && m.heap.contains id').toNat) fun _ => 0 where
  size := Nat.le_of_eq (m.heap.size_pin id).symm
  tidy _ ht := ht.pin id
  pins _ _ id' := by
    rw [Nat.add_zero, m.heap.pins_pin id id', Value.refersTo, hid]
    by_cases h : id' = id
    · subst h
      by_cases halive : m.heap.contains id' = true <;> simp [halive]
    · simp [h, Ne.symm h]

/-- What the host gets is pinned, if it is an object that is alive. -/
theorem KeepsPins.pinForHost (h : m.KeepsPins n) (halive : ∀ id, v.asObject? = some id →
    (n.pinForHost v).heap.Fits → m.heap.Tidy → n.heap.contains id = true) :
    m.Repins (n.pinForHost v) (fun id => (decide (n.nativeDepth = 0) && v.refersTo id).toNat)
      fun _ => 0 := by
  unfold Machine.pinForHost at halive ⊢
  cases hv : v.asObject? with
  | none => simpa [Value.refersTo, hv] using h
  | some id =>
    rw [hv] at halive
    dsimp only at halive ⊢
    by_cases hdepth : n.nativeDepth = 0
    · rw [if_pos hdepth] at halive ⊢
      have hpin := h.before (n.repins_pin hv)
      refine ⟨hpin.size, hpin.tidy, fun hfits ht id' => ?_⟩
      rw [hpin.pins hfits ht id', Value.refersTo, hv]
      by_cases hid : id = id'
      · subst hid
        simp [hdepth, halive id rfl hfits ht]
      · simp [hid]
    · rw [if_neg hdepth]
      simpa [hdepth] using h

theorem contains_alloc {o : Object (Native σ)} (ht : m.heap.Tidy) (hfits : (m.alloc o).2.heap.Fits)
    (hid : (m.alloc o).1.asObject? = some id) : (m.alloc o).2.heap.contains id = true := by
  obtain rfl : (m.heap.alloc o).1 = id :=
    Option.some.inj ((Value.asObject?_ofObject _).symm.trans hid)
  exact Heap.contains_iff.2 ⟨o, ht.get?_alloc_self hfits⟩

theorem fits_pinForHost (h : (m.pinForHost v).heap.Fits) : m.heap.Fits := by
  refine h.of_le (Nat.le_of_eq ?_)
  unfold pinForHost
  split
  · rfl
  · split
    · exact (m.heap.size_pin _).symm
    · rfl

theorem repins_adopt (m : Machine σ) (o : Object (Native σ)) :
    m.Repins (m.adopt o).2
      (fun id => (decide (m.nativeDepth = 0) && (m.adopt o).1.refersTo id).toNat) fun _ => 0 :=
  (m.keepsPins_alloc o).pinForHost fun _ hid hfits ht =>
    contains_alloc ht (fits_pinForHost hfits) hid

theorem Builds.keepsPins (h : m.Builds n) : m.KeepsPins n := by
  induction h with
  | start => exact .refl m
  | string _ s ih | list _ items ih => exact ih.trans (keepsPins_alloc _ _)

/-- The value of a JSON value is alive, if it is an object. -/
theorem contains_buildJson {depth : Nat} {j : Json}
    (hbuild : buildJson depth j m = (.ok v, n)) (hid : v.asObject? = some id) (ht : m.heap.Tidy)
    (hfits : n.heap.Fits) : n.heap.contains id = true := by
  cases j with
  | null =>
    simp only [buildJson] at hbuild
    cases hbuild
    rw [Value.asObject?_none] at hid
    cases hid
  | bool b =>
    simp only [buildJson] at hbuild
    cases hbuild
    rw [Value.asObject?_ofBool] at hid
    cases hid
  | int i | float x =>
    simp only [buildJson] at hbuild
    cases hbuild
    rw [Value.asObject?_ofDouble] at hid
    cases hid
  | object fields =>
    simp only [buildJson] at hbuild
    cases hbuild
  | string s =>
    simp only [buildJson] at hbuild
    cases hbuild
    exact contains_alloc ht hfits hid
  | array items =>
    have hitems := (builds_buildItems (depth + 1) items m).keepsPins
    unfold buildJson at hbuild
    split at hbuild
    · cases hbuild
    · split at hbuild <;> rename_i h <;> rw [h] at hitems
      · cases hbuild
      · rename_i vs n'
        cases hbuild
        have hsize := (keepsPins_alloc n' (.list vs.toArray)).size
        exact contains_alloc (hitems.tidy (hfits.of_le hsize) ht) hfits hid

theorem repins_ofJson (m : Machine σ) (j : Json) :
    m.Repins (m.ofJson j).2 (fun id => match (m.ofJson j).1 with
      | .ok v => (decide (m.nativeDepth = 0) && v.refersTo id).toNat
      | .error _ => 0) fun _ => 0 := by
  obtain ⟨v, n, hbuild, hr, hbuilds⟩ | ⟨e, n, -, hr, hbuilds⟩ := m.ofJson_cases j
  · rw [hr]
    have hdepth : n.nativeDepth = m.nativeDepth := by rw [hbuilds.eq_with_heap]
    rw [← hdepth]
    exact hbuilds.keepsPins.pinForHost fun _ hid hfits ht =>
      contains_buildJson hbuild hid ht (fits_pinForHost hfits)
  · rw [hr]
    exact hbuilds.keepsPins

/-- What is alive can be retained. -/
theorem retain_of_contains (hid : v.asObject? = some id) (halive : m.heap.contains id = true) :
    m.retain v = (.ok (), { m with heap := (m.heap.pin id).2 }) := by
  have hpin : m.heap.pin id = (true, (m.heap.pin id).2) := by simp [Heap.pin, halive]
  unfold retain
  rw [hid]
  dsimp only
  rw [hpin]

theorem repins_retain (m : Machine σ) (v : Value) :
    m.Repins (m.retain v).2 (fun id => match (m.retain v).1 with
      | .ok _ => (v.refersTo id).toNat
      | .error _ => 0) fun _ => 0 := by
  cases hv : v.asObject? with
  | none =>
    have hretain : m.retain v = (.ok (), m) := by
      unfold retain
      rw [hv]
    rw [hretain]
    simpa [Value.refersTo, hv] using KeepsPins.refl m
  | some id =>
    cases halive : m.heap.contains id with
    | true =>
      rw [retain_of_contains hv halive]
      refine (m.repins_pin hv).congr (fun id' => ?_) fun _ => rfl
      by_cases hid : v.refersTo id' = true
      · obtain rfl : id = id' := Option.some.inj (hv.symm.trans (Value.refersTo_iff.1 hid))
        rw [halive, Bool.and_true]
      · simp [hid]
    | false =>
      have hretain : m.retain v = (.error .invalidRelease, m) := by
        unfold retain
        rw [hv]
        simp [Heap.pin, halive]
      rw [hretain]
      exact KeepsPins.refl m

section

variable {v : Value} {id : ObjectId} (hid : v.asObject? = some id)

include hid

/-- Releases of objects without pins fail, and are counted. -/
theorem release_of_pins_eq_zero (hp : m.heap.pins id = 0) :
    m.release v = (.error .invalidRelease,
      { m with invalidReleases := m.invalidReleases + 1 }) := by
  obtain ⟨fault, hunpin⟩ := Heap.unpin_of_pins_eq_zero hp
  unfold release
  rw [hid]
  dsimp only
  rw [hunpin]

/-- Other releases take a pin off, and may collect garbage. -/
theorem release_of_unpin {left : Nat} (hleft : (m.heap.unpin id).1 = .ok left) :
    m.release v = (.ok (), if left = 0 && m.options.collectOnRelease
      then { m with heap := (m.heap.unpin id).2 }.collectGarbage.2
      else { m with heap := (m.heap.unpin id).2 }) := by
  unfold release
  rw [hid]
  dsimp only
  generalize m.heap.unpin id = u at hleft ⊢
  obtain ⟨result, heap⟩ := u
  subst hleft
  dsimp only
  split <;> rfl

theorem release_of_pins_pos (hp : 0 < m.heap.pins id) :
    (m.release v).1 = .ok () ∧
      m.Repins (m.release v).2 (fun _ => 0) fun id' => (v.refersTo id').toNat := by
  obtain ⟨left, hleft, hpins⟩ := Heap.pins_unpin hp
  have hunpin : m.Repins { m with heap := (m.heap.unpin id).2 } (fun _ => 0)
      fun id' => (v.refersTo id').toNat := by
    refine ⟨Nat.le_of_eq (m.heap.size_unpin id).symm, fun _ ht => ht.unpin id, fun _ _ id' => ?_⟩
    rw [Nat.add_zero, ← hpins id', Value.refersTo, hid]
    by_cases hi : id' = id
    · simp [hi]
    · simp [hi, Ne.symm hi]
  rw [release_of_unpin hid hleft]
  refine ⟨rfl, ?_⟩
  dsimp only
  split
  · exact hunpin.trans (keepsPins_collectGarbage _)
  · exact hunpin

end

theorem repins_release (m : Machine σ) (v : Value) :
    m.Repins (m.release v).2 (fun _ => 0) fun id => match (m.release v).1 with
      | .ok _ => (v.refersTo id).toNat
      | .error _ => 0 := by
  cases hv : v.asObject? with
  | none =>
    have hrelease : m.release v = (.ok (), m) := by
      unfold release
      rw [hv]
    rw [hrelease]
    simpa [Value.refersTo, hv] using KeepsPins.refl m
  | some id =>
    rcases Nat.eq_zero_or_pos (m.heap.pins id) with hp | hp
    · rw [release_of_pins_eq_zero hv hp]
      exact KeepsPins.of_heap rfl
    · obtain ⟨hok, hpins⟩ := release_of_pins_pos hv hp
      rw [hok]
      exact hpins

/-- The result of an evaluation is pinned, if it is an object that is alive. -/
theorem repins_conclude (m : Machine σ) (result : Except Failure Value) :
    m.Repins (m.conclude result) (fun id => match result with
      | .ok v => (v.refersTo id && m.heap.contains id).toNat
      | .error _ => 0) fun _ => 0 := by
  unfold conclude
  refine Repins.trans ?_ (keepsPins_collectGarbage _)
  cases result with
  | error f => exact KeepsPins.of_heap rfl
  | ok v =>
    dsimp only
    cases hv : v.asObject? with
    | none =>
      have hnone : ∀ id, (v.refersTo id && m.heap.contains id).toNat = 0 := by
        simp [Value.refersTo, hv]
      simp only [hnone]
      exact KeepsPins.of_heap rfl
    | some id => exact (m.repins_pin hv).trans (.of_heap rfl)

end Machine

/-! ## Reasons for pins -/

namespace Event

/-- Whether an evaluation has returned an object that was alive. -/
def returns (m : Machine σ) (id : ObjectId) : Event σ → Bool
  | .evaluated (.ok v) => v.refersTo id && m.heap.contains id
  | _ => false

/-- Whether an object was made for the host, and not inside of a native function. -/
def creates (m : Machine σ) (id : ObjectId) : Event σ → Bool
  | .replied (.createString _) v | .replied (.createList _) v | .replied (.importJson _) (.ok v) =>
    decide (m.nativeDepth = 0) && v.refersTo id
  | _ => false

/-- Whether an object was retained. -/
def retains (id : ObjectId) : Event σ → Bool
  | .replied (.retain v) (.ok _) => v.refersTo id
  | _ => false

/-- Whether an object was released. -/
def releases (id : ObjectId) : Event σ → Bool
  | .replied (.release v) (.ok _) => v.refersTo id
  | _ => false

end Event

namespace History

/-- The number of evaluations that have returned an object. -/
def returned (hist : History σ) (id : ObjectId) : Nat :=
  hist.countP fun e => e.2.returns e.1.machine id

/-- The number of requests that have made an object for the host. -/
def created (hist : History σ) (id : ObjectId) : Nat :=
  hist.countP fun e => e.2.creates e.1.machine id

/-- The number of requests that have retained an object. -/
def retained (hist : History σ) (id : ObjectId) : Nat := hist.countP fun e => e.2.retains id

/-- The number of requests that have released an object. -/
def released (hist : History σ) (id : ObjectId) : Nat := hist.countP fun e => e.2.releases id

end History

theorem History.countP_cons_toNat (f : Point σ × Event σ → Bool) (e : Point σ × Event σ)
    (hist : History σ) : List.countP f (e :: hist) = List.countP f hist + (f e).toNat := by
  rw [List.countP_cons]
  cases f e <;> rfl

/-- What an event adds to the pins of an object. -/
def Event.gain (m : Machine σ) (e : Event σ) (id : ObjectId) : Nat :=
  (e.returns m id).toNat + (e.creates m id).toNat + (e.retains id).toNat

/-- What an event takes off the pins of an object. -/
def Event.loss (e : Event σ) (id : ObjectId) : Nat := (e.releases id).toNat

theorem Request.Plain.repins {r : Request} (h : r.Plain) {call : Callback σ} {fuel : Nat}
    {m n : Machine σ} {a : r.Reply} (hr : r.perform call fuel m = .ok a n) :
    m.Repins n ((.replied r a : Event σ).gain m) (.replied r a : Event σ).loss := by
  cases r with
  | eval source | evalBytes source | compile source name => exact h.elim
  | createString text | createList items =>
    cases hr
    exact (m.repins_adopt _).congr (fun _ => (Nat.zero_add _).symm) fun _ => rfl
  | importJson j =>
    obtain ⟨rfl, rfl⟩ : a = (m.ofJson j).1 ∧ n = (m.ofJson j).2 := by cases hr; exact ⟨rfl, rfl⟩
    refine (m.repins_ofJson j).congr (fun id => ?_) fun _ => rfl
    simp only [Event.gain, Event.returns, Event.retains, Event.creates]
    cases (m.ofJson j).1 <;> simp
  | retain v =>
    obtain ⟨rfl, rfl⟩ : a = (m.retain v).1 ∧ n = (m.retain v).2 := by cases hr; exact ⟨rfl, rfl⟩
    refine (m.repins_retain v).congr (fun id => ?_) fun _ => rfl
    simp only [Event.gain, Event.returns, Event.retains, Event.creates]
    cases (m.retain v).1 <;> simp
  | release v =>
    obtain ⟨rfl, rfl⟩ : a = (m.release v).1 ∧ n = (m.release v).2 := by cases hr; exact ⟨rfl, rfl⟩
    refine (m.repins_release v).congr (fun _ => rfl) fun id => ?_
    simp only [Event.loss, Event.releases]
    cases (m.release v).1 <;> simp
  | collect => cases hr; exact m.keepsPins_collectGarbage
  | _ => cases hr; exact Machine.KeepsPins.of_heap rfl

/-- Moves change the pins of objects as the events tell. -/
theorem Moves.repins {p q : Point σ} {e : Event σ} (h : Moves p e q) :
    p.machine.Repins q.machine (e.gain p.machine) e.loss := by
  cases h with
  | reply turn plain performed => exact plain.repins performed
  | @conclude _ m result =>
    refine (m.repins_conclude result).congr (fun id => ?_) fun _ => rfl
    cases result <;> simp [Event.gain, Event.returns, Event.creates, Event.retains]
  | @install _ m turn handle name arity body =>
    show m.KeepsPins (m.setFunction handle name arity body).2
    unfold Machine.setFunction
    split
    · exact (m.keepsPins_alloc _).trans (.of_heap rfl)
    · exact .refl m
  | @resume _ m _ _ _ _ resumes | @spoil _ m _ _ _ _ _ _ _ resumes =>
    exact (m.upkeep_keepsPins.of_resume resumes (.of_heap rfl)).trans (.of_heap rfl)
  | makeString s | makeFunction f => exact Machine.keepsPins_alloc _ _
  | start commits chunk =>
    subst commits
    exact Machine.KeepsPins.of_heap rfl
  | @step _ m _ _ _ steps | @call _ m _ _ _ _ _ _ steps | @finish _ m _ _ _ _ steps
  | @fail _ m _ _ _ _ steps =>
    exact (m.upkeep_keepsPins.of_step steps (.refl m)).trans (.of_heap rfl)
  | _ => exact Machine.KeepsPins.of_heap rfl

namespace Machine

theorem keepsPins_openBuiltins (m : Machine σ) (l : Library σ) :
    m.KeepsPins (m.openBuiltins l) := by
  unfold openBuiltins
  generalize l.entries = entries
  induction entries generalizing m with
  | nil => exact .refl m
  | cons e entries ih =>
    have halloc := m.keepsPins_alloc (.native ⟨e.name, e.arity, e.body⟩)
    rw [List.foldl_cons]
    refine Repins.trans ?_ (ih _)
    exact halloc.trans (.of_heap rfl)

/-- A new machine has no pins. -/
theorem pins_new {options : Options} {host : σ} (hfits : (new options host).heap.Fits) :
    (new options host).heap.Tidy ∧ ∀ id, (new options host).heap.pins id = 0 := by
  have hopen := keepsPins_openBuiltins
    ({ options, raw := { limit := options.maxRawBytes }, host } : Machine σ) Library.core
  exact ⟨hopen.tidy hfits .empty, fun id => hopen.pins hfits .empty id⟩

end Machine

namespace Path

variable {options : Options} {host : σ} {p q : Point σ} {hist : History σ}

open History in
/-- Along a path, pins change as its history tells. -/
theorem repins (h : Path p hist q) : p.machine.Repins q.machine
    (fun id => hist.returned id + hist.created id + hist.retained id) hist.released := by
  induction h with
  | start => exact Machine.KeepsPins.refl _
  | @move hist q r e before moves ih =>
    refine (ih.comp moves.repins).congr (fun id => ?_) fun id => ?_
    · simp only [returned, created, retained, countP_cons_toNat, Event.gain]
      omega
    · simp only [released, countP_cons_toNat, Event.loss]

/-- The heap stays tidy. -/
theorem tidy (h : Path (.new options host) hist q) (hfits : q.machine.heap.Fits) :
    q.machine.heap.Tidy :=
  h.repins.tidy hfits (Machine.pins_new (hfits.of_le h.repins.size)).1

/-- **The pins of an object** are the evaluations that have returned it, the requests that have made
it for the host and those that have retained it, less those that have released it. It is alive as
long as there are any, and a release fails exactly if there are none; a release that fails is
counted, and changes nothing else. -/
theorem pins_eq_tally (h : Path (.new options host) hist q) (hfits : q.machine.heap.Fits)
    (id : ObjectId) : q.machine.heap.pins id + hist.released id =
      hist.returned id + hist.created id + hist.retained id ∧
    (hist.released id < hist.returned id + hist.created id + hist.retained id →
      q.machine.heap.contains id = true) ∧
    ∀ v, v.asObject? = some id →
      ((q.machine.release v).1 = .error .invalidRelease ↔
        q.machine.heap.contains id = false ∨ q.machine.heap.pins id = 0) ∧
      ((q.machine.release v).1 = .error .invalidRelease →
        (q.machine.release v).2 =
          { q.machine with invalidReleases := q.machine.invalidReleases + 1 }) := by
  have hpath := h.repins
  obtain ⟨htidy, hzero⟩ := Machine.pins_new (hfits.of_le hpath.size)
  have hpins := hpath.pins hfits htidy id
  have hnew : (Point.new options host).machine.heap.pins id = 0 := hzero id
  rw [hnew, Nat.zero_add] at hpins
  have halive : 0 < q.machine.heap.pins id → q.machine.heap.contains id = true :=
    Heap.contains_of_pins_pos
  refine ⟨hpins, fun hlt => halive (by omega), fun v hid => ?_⟩
  rcases Nat.eq_zero_or_pos (q.machine.heap.pins id) with hp | hp
  · rw [Machine.release_of_pins_eq_zero hid hp]
    exact ⟨iff_of_true rfl (.inr hp), fun _ => rfl⟩
  · rw [(Machine.release_of_pins_pos hid hp).1, halive hp]
    refine ⟨iff_of_false nofun ?_, nofun⟩
    rintro (h | h)
    · cases h
    · exact absurd h (Nat.ne_of_gt hp)

/-- A string is made, retained and released. -/
theorem pins_eq_tally_createString : ∃ (hist : History Unit) (q : Point Unit),
    Path (.new {} ()) hist q ∧ q.machine.heap.Fits ∧ hist.created ⟨5, 0⟩ = 1 ∧
    hist.retained ⟨5, 0⟩ = 1 ∧
    hist.released ⟨5, 0⟩ = 1 ∧ q.machine.heap.pins ⟨5, 0⟩ = 1 := by
  let call : Callback Unit := fun _ _ => .exhausted
  let m : Machine Unit := (Machine.createString (.new {} ()) "a").2
  let v : Value := .ofObject ⟨5, 0⟩
  have hv : v.asObject? = some ⟨5, 0⟩ := Value.asObject?_ofObject _
  have hcreate : (Request.createString "a").perform call 0 (.new {} ()) = .ok v m := rfl
  have hretain : (Request.retain v).perform call 0 m = .ok (.ok ()) (m.retain v).2 := by
    have hok : (m.retain v).1 = .ok () := by rw [Machine.retain_of_contains hv (by decide)]
    exact hok ▸ rfl
  have hrelease : (Request.release v).perform call 0 (m.retain v).2 =
      .ok (.ok ()) ((m.retain v).2.release v).2 := by
    have hok : ((m.retain v).2.release v).1 = .ok () := by
      refine (Machine.release_of_pins_pos hv ?_).1
      rw [Machine.retain_of_contains hv (by decide)]
      decide
    exact hok ▸ rfl
  let q : Point Unit := ⟨[], false, ((m.retain v).2.release v).2⟩
  let hist : History Unit := [(⟨[], false, (m.retain v).2⟩, .replied (.release v) (.ok ())),
    (⟨[], false, m⟩, .replied (.retain v) (.ok ())), (.new {} (), .replied (.createString "a") v)]
  have hpath : Path (.new {} ()) hist q := by
    refine ((Path.start.move (.reply hostTurn_nil ?_ hcreate)).move
      (.reply hostTurn_nil ?_ hretain)).move (.reply hostTurn_nil ?_ hrelease) <;> exact trivial
  have hfits : q.machine.heap.Fits := by decide
  have htally := (hpath.pins_eq_tally hfits ⟨5, 0⟩).1
  have hreturned : hist.returned ⟨5, 0⟩ = 0 := by decide
  have hcreated : hist.created ⟨5, 0⟩ = 1 := by decide
  have hretained : hist.retained ⟨5, 0⟩ = 1 := by decide
  have hreleased : hist.released ⟨5, 0⟩ = 1 := by decide
  exact ⟨hist, q, hpath, hfits, hcreated, hretained, hreleased, by omega⟩

end Path

end ScriptMachine
