import Mathlib
import ScriptMachine.RawMemory
/-!
# The ledger of raw buffers

Whatever a host asks for and gives back, in whatever order, the ledger records the buffers that it
holds and their total size. The platform promises no more than that a buffer lies in the address
space and apart from those in use.

* `RawLedger.Runs`: the ledgers that calls lead to, on a platform that keeps its promise;
* `RawLedger.balanced_runs`: **the ledger is balanced after every sequence of calls**.
-/

namespace ScriptMachine

namespace RawLedger

/-! ## Buffers -/

/-- Two buffers, as addresses with sizes, that have no byte in common. -/
def Apart (b c : Nat × Nat) : Prop := b.1 + b.2 ≤ c.1 ∨ c.1 + c.2 ≤ b.1

instance (b c : Nat × Nat) : Decidable (Apart b c) := inferInstanceAs (Decidable (_ ∨ _))

/-- The addresses in buffers. -/
def covered : List (Nat × Nat) → Finset Nat
  | [] => ∅
  | b :: buffers => Finset.Ico b.1 (b.1 + b.2) ∪ covered buffers

variable {buffers : List (Nat × Nat)}

theorem mem_covered {x : Nat} :
    x ∈ covered buffers ↔ ∃ b ∈ buffers, b.1 ≤ x ∧ x < b.1 + b.2 := by
  induction buffers with
  | nil => simp [covered]
  | cons b buffers ih => simp [covered, ih]

theorem card_covered (h : buffers.Pairwise Apart) :
    (covered buffers).card = (buffers.map Prod.snd).sum := by
  induction h with
  | nil => rfl
  | @cons b buffers hapart _ ih =>
    have hdisjoint : Disjoint (Finset.Ico b.1 (b.1 + b.2)) (covered buffers) := by
      rw [Finset.disjoint_left]
      intro x hx hx'
      obtain ⟨c, hc, hle, hlt⟩ := mem_covered.1 hx'
      obtain ⟨hle', hlt'⟩ := Finset.mem_Ico.1 hx
      rcases hapart c hc with h | h <;> omega
    rw [covered, Finset.card_union_of_disjoint hdisjoint, Nat.card_Ico, ih, List.map_cons,
      List.sum_cons]
    omega

/-- Buffers that lie apart fill no more than the space around them. -/
theorem sum_sizes_le {first last : Nat} (h : buffers.Pairwise Apart)
    (hin : ∀ b ∈ buffers, first ≤ b.1 ∧ b.1 + b.2 ≤ last) :
    (buffers.map Prod.snd).sum ≤ last - first := by
  rw [← card_covered h, ← Nat.card_Ico]
  refine Finset.card_le_card fun x hx => ?_
  obtain ⟨b, hb, hle, hlt⟩ := mem_covered.1 hx
  obtain ⟨hfirst, hlast⟩ := hin b hb
  exact Finset.mem_Ico.2 ⟨by omega, by omega⟩

/-- A buffer of at least one byte that does not begin at the null address and ends within the
address space. -/
structure Placed (b : Nat × Nat) : Prop where
  address : 0 < b.1
  size : 0 < b.2
  space : b.1 + b.2 ≤ UInt64.size

/-- Buffers in place that lie apart. -/
structure Tiled (buffers : List (Nat × Nat)) : Prop where
  placed : ∀ b ∈ buffers, Placed b
  apart : buffers.Pairwise Apart

namespace Tiled

variable {buffers : List (Nat × Nat)} {b : Nat × Nat} {address size : Nat}

theorem nil : Tiled [] := ⟨nofun, .nil⟩

theorem cons (h : Tiled buffers) (hb : Placed b) (hapart : ∀ c ∈ buffers, Apart b c) :
    Tiled (b :: buffers) :=
  ⟨List.forall_mem_cons.2 ⟨hb, h.placed⟩, .cons hapart h.apart⟩

theorem tail (h : Tiled (b :: buffers)) : Tiled buffers :=
  ⟨fun c hc => h.placed c (List.mem_cons_of_mem _ hc), h.apart.of_cons⟩

theorem erase (h : Tiled buffers) (b : Nat × Nat) : Tiled (buffers.erase b) :=
  ⟨fun c hc => h.placed c (List.mem_of_mem_erase hc), h.apart.sublist List.erase_sublist⟩

/-- No address is that of two buffers. -/
theorem address_ne (h : Tiled (b :: buffers)) {c : Nat × Nat} (hc : c ∈ buffers) : c.1 ≠ b.1 := by
  have hapart := List.rel_of_pairwise_cons h.apart hc
  have hb := (h.placed b List.mem_cons_self).size
  have hsize := (h.placed c (List.mem_cons_of_mem _ hc)).size
  rcases hapart with hle | hle <;> omega

theorem nodup_addresses (h : Tiled buffers) : (buffers.map Prod.fst).Nodup := by
  induction buffers with
  | nil => exact List.nodup_nil
  | cons b buffers ih =>
    rw [List.map_cons, List.nodup_cons]
    refine ⟨fun hmem => ?_, ih h.tail⟩
    obtain ⟨c, hc, heq⟩ := List.mem_map.1 hmem
    exact h.address_ne hc heq

/-- The total size of buffers is a word, whatever their number. -/
theorem sum_lt (h : Tiled buffers) : (buffers.map Prod.snd).sum < UInt64.size := by
  have hsum := sum_sizes_le h.apart fun b hb => ⟨(h.placed b hb).address, (h.placed b hb).space⟩
  have hpos : 0 < UInt64.size := by decide
  omega

/-- The buffer at an address is found by it. -/
theorem find?_iff (h : Tiled buffers) :
    (buffers.find? (·.1 == address)).map (·.2) = some size ↔ (address, size) ∈ buffers := by
  induction buffers with
  | nil => simp
  | cons b buffers ih =>
    rw [List.find?_cons, List.mem_cons]
    by_cases hb : b.1 = address
    · have hnot : (address, size) ∉ buffers := fun hmem => h.address_ne hmem hb.symm
      simp only [hb, beq_self_eq_true, Option.map_some, Option.some.injEq, hnot, or_false]
      exact ⟨fun hsize => Prod.ext hb.symm hsize.symm, fun heq => (congrArg Prod.snd heq).symm⟩
    · have hne : (address, size) ≠ b := fun heq => hb (congrArg Prod.fst heq).symm
      simp only [beq_eq_false_iff_ne.2 hb, hne, false_or]
      exact ih h.tail

/-- Striking out an address strikes out the buffer there, and no other one. -/
theorem filter_eq_erase (h : Tiled buffers) (hmem : (address, size) ∈ buffers) :
    buffers.filter (·.1 != address) = buffers.erase (address, size) := by
  induction buffers with
  | nil => cases hmem
  | cons b buffers ih =>
    rcases List.mem_cons.1 hmem with rfl | hmem
    · rw [List.erase_cons_head, List.filter_cons_of_neg (by simp)]
      exact List.filter_eq_self.2 fun c hc => bne_iff_ne.2 (h.address_ne hc)
    · have hb : address ≠ b.1 := h.address_ne hmem
      have hne : b ≠ (address, size) := fun heq => hb (congrArg Prod.fst heq).symm
      rw [List.filter_cons_of_pos (by simpa using hb.symm), ih h.tail hmem,
        List.erase_cons_tail (by simpa using hne)]

theorem sum_erase (hmem : (address, size) ∈ buffers) :
    ((buffers.erase (address, size)).map Prod.snd).sum + size = (buffers.map Prod.snd).sum := by
  have hperm := ((List.perm_cons_erase hmem).map Prod.snd).sum_eq
  rw [hperm, List.map_cons, List.sum_cons, Nat.add_comm]

end Tiled

/-! ## Calls -/

/-- A call of the host with its answer. No address is the null pointer. -/
inductive Event
  | alloc (size : Nat) (answer : Option Nat)
  | free (pointer : Option Nat) (size : Nat)

/-- A buffer of some calls, the last call first, that was given out, is not empty, and was not freed
with its exact size since then. -/
def Outstanding (events : List Event) (b : Nat × Nat) : Prop :=
  ∃ after before, events = after ++ .alloc b.2 (some b.1) :: before ∧ b.2 ≠ 0 ∧
    .free (some b.1) b.2 ∉ after

theorem not_outstanding_nil (b : Nat × Nat) : ¬Outstanding [] b := by
  rintro ⟨after, before, hevents, -⟩
  exact List.append_ne_nil_of_right_ne_nil after (List.cons_ne_nil _ before) hevents.symm

theorem outstanding_cons {event : Event} {events : List Event} {b : Nat × Nat} :
    Outstanding (event :: events) b ↔
      (event = .alloc b.2 (some b.1) ∧ b.2 ≠ 0) ∨
      (event ≠ .free (some b.1) b.2 ∧ Outstanding events b) := by
  constructor
  · rintro ⟨after, before, hevents, hsize, hafter⟩
    cases after with
    | nil => exact .inl ⟨(List.cons.inj hevents).1, hsize⟩
    | cons first after =>
      obtain ⟨hfirst, hrest⟩ := List.cons.inj hevents
      obtain ⟨hne, hafter⟩ := not_or.1 (mt List.mem_cons.2 hafter)
      exact .inr ⟨fun heq => hne (heq.symm.trans hfirst), after, before, hrest, hsize, hafter⟩
  · rintro (⟨rfl, hsize⟩ | ⟨hevent, after, before, rfl, hsize, hafter⟩)
    · exact ⟨[], events, rfl, hsize, List.not_mem_nil⟩
    · exact ⟨event :: after, before, rfl, hsize,
        mt List.mem_cons.1 (not_or.2 ⟨hevent.symm, hafter⟩)⟩

/-- The answer of a platform that keeps its promise: no buffer, or one in the address space that
lies apart from those in use. -/
def Offers (events : List Event) (size : Nat) (answer : Option Nat) : Prop :=
  ∀ address, answer = some address →
    0 < address ∧ address + size ≤ UInt64.size ∧ ∀ b, Outstanding events b → Apart (address, size) b

variable {π : Type} {acquire : Nat → π → Option Nat × π} {r r' : RawLedger} {p p' : π}
    {limit size : Nat}
  {answer : Option Nat} {events : List Event}

/-- The ledgers that calls lead to, the last call first. The platform is asked for buffers that are
neither empty nor too large, and is free in its answers otherwise. -/
inductive Runs (limit : Nat) : List Event → RawLedger → Prop
  | start : Runs limit [] { limit }
  | alloc {π : Type} {acquire : Nat → π → Option Nat × π} {r r' : RawLedger} {p p' : π} {size : Nat}
    {answer : Option Nat} {events : List Event} (before : Runs limit events r)
    (offers : 0 < size → size ≤ maxSize → Offers events size (acquire size p).1)
    (allocates : r.alloc acquire p size = (answer, r', p')) :
    Runs limit (.alloc size answer :: events) r'
  | free {r : RawLedger} {events : List Event} (before : Runs limit events r) (pointer : Option Nat)
    (size : Nat) : Runs limit (.free pointer size :: events) (r.free pointer size)

/-- What a request for a buffer does: it is answered at once if the buffer is empty, and refused if
there is none; otherwise the platform's buffer is recorded. -/
theorem alloc_cases (h : r.alloc acquire p size = (answer, r', p')) :
    (size = 0 ∧ answer = some emptyAddress ∧ r' = r) ∨
    (size ≠ 0 ∧ answer = none ∧ r' = r) ∨
    ∃ address, 0 < size ∧ size ≤ maxSize ∧ min (r.bytes + size) maxWord ≤ r.limit ∧
      (acquire size p).1 = some address ∧ answer = some address ∧
      r' = { r with live := (address, size) :: r.live, bytes := r.bytes + size } := by
  unfold alloc at h
  split at h
  · cases h
    exact .inl ⟨by assumption, rfl, rfl⟩
  · rename_i hsize
    split at h
    · cases h
      exact .inr (.inl ⟨hsize, rfl, rfl⟩)
    · rename_i hlimit
      split at h
      · cases h
        exact .inr (.inl ⟨hsize, rfl, rfl⟩)
      · rename_i hmax
        split at h
        · cases h
          exact .inr (.inl ⟨hsize, rfl, rfl⟩)
        · rename_i address _ hacquire
          cases h
          exact .inr (.inr ⟨address, Nat.pos_of_ne_zero hsize, Nat.le_of_not_lt hmax,
            Nat.le_of_not_lt hlimit, by rw [hacquire], rfl, rfl⟩)

variable {address : Nat}

theorem free_of_mem (h : Tiled r.live) (hmem : (address, size) ∈ r.live) :
    r.free (some address) size =
      { r with live := r.live.erase (address, size), bytes := r.bytes - size } := by
  have hsize : size ≠ 0 := Nat.ne_of_gt (h.placed _ hmem).size
  simp only [free, if_neg hsize, size?, if_pos (h.find?_iff.2 hmem), h.filter_eq_erase hmem]

/-- Nothing else than a recorded buffer can be given back. -/
theorem free_of_not_mem (h : Tiled r.live) {pointer : Option Nat}
    (hnot : ∀ address, pointer = some address → (address, size) ∉ r.live) :
    r.free pointer size = r := by
  cases pointer with
  | none => rfl
  | some address =>
    have hsize : r.size? address ≠ some size := fun heq => hnot address rfl (h.find?_iff.1 heq)
    simp only [free, hsize, if_false, ite_self]

/-! ## The balance -/

/-- A ledger that agrees with the calls so far: it lists the buffers that are outstanding, each
once, with their total size. The total fits into a word and into the limit. -/
structure Balanced (limit : Nat) (events : List Event) (r : RawLedger) : Prop where
  live : ∀ b, b ∈ r.live ↔ Outstanding events b
  addresses : (r.live.map Prod.fst).Nodup
  bytes : r.bytes = (r.live.map Prod.snd).sum
  within : r.bytes ≤ limit
  word : r.bytes < UInt64.size

/-- What calls keep up. That the buffers lie apart and in the address space is the platform's
doing. -/
structure Tally (limit : Nat) (events : List Event) (r : RawLedger) : Prop where
  live : ∀ b, b ∈ r.live ↔ Outstanding events b
  tiled : Tiled r.live
  bytes : r.bytes = (r.live.map Prod.snd).sum
  within : r.bytes ≤ limit
  limit : r.limit = limit

namespace Tally

variable (h : Tally limit events r)

include h

theorem word : r.bytes < UInt64.size := by
  rw [h.bytes]
  exact h.tiled.sum_lt

theorem balanced : Balanced limit events r :=
  ⟨h.live, h.tiled.nodup_addresses, h.bytes, h.within, h.word⟩

/-- A buffer that is outstanding fits into the total. -/
theorem size_le (hmem : (address, size) ∈ r.live) : size ≤ r.bytes := by
  rw [h.bytes, ← Tiled.sum_erase hmem]
  exact Nat.le_add_left _ _

theorem tiled_cons (hsize : 0 < size)
    (hoffers : Offers events size (some address)) : Tiled ((address, size) :: r.live) := by
  obtain ⟨haddress, hspace, hapart⟩ := hoffers address rfl
  exact h.tiled.cons ⟨haddress, hsize, hspace⟩ fun b hb => hapart b ((h.live b).1 hb)

/-- The sum with a buffer that the platform offers is a word: the buffer lies apart from those in
use, so that all of them fit into the address space together. -/
theorem add_lt (hsize : 0 < size) (hoffers : Offers events size (some address)) :
    r.bytes + size < UInt64.size := by
  have hsum := (h.tiled_cons hsize hoffers).sum_lt
  rw [List.map_cons, List.sum_cons, ← h.bytes] at hsum
  omega

theorem alloc (hoffers : 0 < size → size ≤ maxSize → Offers events size (acquire size p).1)
    (halloc : r.alloc acquire p size = (answer, r', p')) :
    Tally limit (.alloc size answer :: events) r' := by
  obtain ⟨rfl, rfl, rfl⟩ | ⟨hsize, rfl, rfl⟩ | ⟨address, hsize, hmax, hlimit, hacquire, rfl, rfl⟩ :=
    alloc_cases halloc
  · refine { h with live := fun b => (h.live b).trans ?_ }
    rw [outstanding_cons]
    exact ⟨fun hb => .inr ⟨nofun, hb⟩,
      fun hb => hb.elim (fun hb => absurd (Event.alloc.inj hb.1).1.symm hb.2) (·.2)⟩
  · refine { h with live := fun b => (h.live b).trans ?_ }
    rw [outstanding_cons]
    exact ⟨fun hb => .inr ⟨nofun, hb⟩, fun hb => hb.elim (fun hb => nomatch hb.1) (·.2)⟩
  · have hoffers := hacquire ▸ hoffers hsize hmax
    have hword : r.bytes + size ≤ maxWord := Nat.le_sub_one_of_lt (h.add_lt hsize hoffers)
    rw [Nat.min_eq_left hword, h.limit] at hlimit
    refine ⟨fun b => ?_, h.tiled_cons hsize hoffers, ?_, hlimit, h.limit⟩
    · rw [List.mem_cons, outstanding_cons, h.live]
      constructor
      · rintro (rfl | hb)
        · exact .inl ⟨rfl, Nat.ne_of_gt hsize⟩
        · exact .inr ⟨nofun, hb⟩
      · rintro (⟨hb, -⟩ | ⟨-, hb⟩)
        · cases hb
          exact .inl rfl
        · exact .inr hb
    · rw [List.map_cons, List.sum_cons, h.bytes, Nat.add_comm]

theorem free (pointer : Option Nat) (size : Nat) :
    Tally limit (.free pointer size :: events) (r.free pointer size) := by
  by_cases hpointer : ∃ address, pointer = some address ∧ (address, size) ∈ r.live
  · obtain ⟨address, rfl, hmem⟩ := hpointer
    have hsum := Tiled.sum_erase hmem
    have hbytes := h.bytes
    rw [free_of_mem h.tiled hmem]
    have hrest : r.bytes - size = ((r.live.erase (address, size)).map Prod.snd).sum := by omega
    refine ⟨fun b => ?_, h.tiled.erase _, hrest, (Nat.sub_le _ _).trans h.within, h.limit⟩
    rw [h.tiled.nodup_addresses.of_map.mem_erase_iff, outstanding_cons, h.live]
    constructor
    · rintro ⟨hne, hb⟩
      refine .inr ⟨fun heq => hne ?_, hb⟩
      cases heq
      rfl
    · rintro (⟨hb, -⟩ | ⟨hne, hb⟩)
      · cases hb
      · exact ⟨fun heq => hne (heq ▸ rfl), hb⟩
  · have hnot : ∀ address, pointer = some address → (address, size) ∉ r.live :=
      fun address haddress hmem => hpointer ⟨address, haddress, hmem⟩
    rw [free_of_not_mem h.tiled hnot]
    refine { h with live := fun b => ?_ }
    rw [outstanding_cons, ← h.live]
    constructor
    · intro hb
      refine .inr ⟨fun heq => ?_, hb⟩
      cases heq
      exact hnot b.1 rfl hb
    · rintro (⟨hb, -⟩ | ⟨-, hb⟩)
      · cases hb
      · exact hb

end Tally

/-- Every sequence of calls keeps the tally. -/
theorem Runs.tally (h : Runs limit events r) : Tally limit events r := by
  induction h with
  | start =>
    exact ⟨fun b => ⟨nofun, fun hb => absurd hb (not_outstanding_nil b)⟩, .nil, rfl,
      Nat.zero_le _, rfl⟩
  | alloc _ offers allocates ih => exact ih.alloc offers allocates
  | free _ pointer size ih => exact ih.free pointer size

/-- **The ledger is balanced after every sequence of calls**, and the next call adds to it or takes
from it just what it says. A buffer that is outstanding is struck out when it is freed with its
size, and the total does not fall below zero. Any other `free` changes nothing: of no pointer, of no
byte, of an address that is not that of a buffer or no longer is, or with another size. A request
that is refused, or for no byte, changes nothing either; any other one is recorded, and the total
does not leave the words. -/
theorem balanced_runs (h : Runs limit events r) :
    Balanced limit events r ∧
    (∀ address size, Outstanding events (address, size) → size ≤ r.bytes ∧
      r.free (some address) size =
        { r with live := r.live.erase (address, size), bytes := r.bytes - size }) ∧
    (∀ pointer size, (pointer = none ∨ size = 0 ∨ ∀ address, pointer = some address →
      ¬Outstanding events (address, size)) → r.free pointer size = r) ∧
    ∀ (π : Type) (acquire : Nat → π → Option Nat × π) (p p' : π) (size : Nat) (answer : Option Nat)
      (r' : RawLedger), r.alloc acquire p size = (answer, r', p') →
      (answer = none ∨ size = 0 → r' = r) ∧
      ∀ address, answer = some address → size ≠ 0 → Offers events size (acquire size p).1 →
        r.bytes + size < UInt64.size ∧
        r' = { r with live := (address, size) :: r.live, bytes := r.bytes + size } := by
  have htally := h.tally
  refine ⟨htally.balanced, fun address size hb => ?_, fun pointer size hnot => ?_,
    fun π acquire p p' size answer r' halloc => ?_⟩
  · have hmem := (htally.live _).2 hb
    exact ⟨htally.size_le hmem, free_of_mem htally.tiled hmem⟩
  · refine free_of_not_mem htally.tiled fun address haddress hmem => ?_
    obtain hnone | hzero | hout := hnot
    · exact absurd (haddress.symm.trans hnone) (Option.some_ne_none _)
    · exact Nat.ne_of_gt (htally.tiled.placed _ hmem).size hzero
    · exact hout address haddress ((htally.live _).1 hmem)
  · obtain ⟨hsize, rfl, rfl⟩ | ⟨hsize, rfl, rfl⟩ |
      ⟨address, hsize, hmax, hlimit, hacquire, rfl, rfl⟩ := alloc_cases halloc
    · exact ⟨fun _ => rfl, fun _ _ hne => absurd hsize hne⟩
    · exact ⟨fun _ => rfl, nofun⟩
    · refine ⟨fun hno => ?_, fun address' haddress _ hoffers => ?_⟩
      · exact absurd hno (by simp [Nat.ne_of_gt hsize])
      · cases haddress
        exact ⟨htally.add_lt hsize (hacquire ▸ hoffers), rfl⟩

/-- A request within the limit gets the buffer that the platform has for it, wherever it lies. -/
theorem Runs.grant (h : Runs limit events r) (address size : Nat) (hmax : size ≤ maxSize)
    (hfits : r.bytes + size ≤ r.limit) (hplaced : Placed (address, size))
    (hapart : ∀ b ∈ r.live, Apart (address, size) b) :
    Runs limit (.alloc size (some address) :: events)
      { r with live := (address, size) :: r.live, bytes := r.bytes + size } := by
  refine @Runs.alloc _ Unit (fun _ _ => (some address, ())) _ _ () () _ _ _ h (fun _ _ => ?_) ?_
  · intro address' haddress
    cases haddress
    exact ⟨hplaced.address, hplaced.space, fun b hb => hapart b ((h.tally.live b).2 hb)⟩
  · have hlimit : ¬r.limit < min (r.bytes + size) maxWord := by omega
    simp only [RawLedger.alloc, Nat.ne_of_gt hplaced.size, hlimit, Nat.not_lt.2 hmax, if_false]

/-- An address is given out again after the buffer there was freed, and the new size counts. A wrong
size before that, and a second `free` of the old size after it, do nothing. -/
theorem runs_reuse :
    Runs 64 [.free (some 64) 8, .alloc 24 (some 64), .free (some 64) 8, .free (some 64) 4,
      .alloc 16 (some 128),
      .alloc 8 (some 64)] { live := [(64, 24), (128, 16)], bytes := 40, limit := 64 } := by
  have hstart : Runs 64 [] { limit := 64 } := .start
  have hfirst :=
    hstart.grant 64 8 (by decide) (by decide) ⟨by decide, by decide, by decide⟩ (by decide)
  have hsecond :=
    hfirst.grant 128 16 (by decide) (by decide) ⟨by decide, by decide, by decide⟩ (by decide)
  have hfreed := (hsecond.free (some 64) 4).free (some 64) 8
  have hthird :=
    hfreed.grant 64 24 (by decide) (by decide) ⟨by decide, by decide, by decide⟩ (by decide)
  exact hthird.free (some 64) 8

theorem balanced_reuse :
    Balanced 64 [.free (some 64) 8, .alloc 24 (some 64), .free (some 64) 8, .free (some 64) 4,
      .alloc 16 (some 128),
      .alloc 8 (some 64)] { live := [(64, 24), (128, 16)], bytes := 40, limit := 64 } :=
  (balanced_runs runs_reuse).1

end RawLedger

end ScriptMachine
