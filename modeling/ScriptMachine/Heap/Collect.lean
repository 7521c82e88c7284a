import ScriptMachine.Heap
/-!
# Garbage collection

Marks everything that can be reached from the roots and from pinned objects, then frees every object
that is not marked. A worklist holds the addresses still to be looked at; each address either sets a
new mark or drops off the list, so the marking ends.
-/

namespace ScriptMachine

namespace Slot

variable {ν : Type}

/-- A slot whose object is alive and was not reached. -/
def isGarbage (s : Slot ν) : Bool := s.object.isSome && !s.marked

/-- Clears the mark of a slot, or frees its object and opens the next generation. -/
def sweep (s : Slot ν) : Slot ν :=
  if s.isGarbage then { generation := s.generation + 1 }
  else { s with marked := false }

end Slot

namespace Heap

variable {ν : Type}

/-! ## Marking -/

/-- What a slot may still add to the marking: its object and the addresses in it, until it is
marked. -/
def load (s : Slot ν) : Nat :=
  if s.marked then 0 else s.object.elim 0 fun o => o.children.length + 1

/-- What all slots may still add to the marking. -/
def unmarkedLoad (slots : Array (Slot ν)) : Nat := slots.toList.foldr (load · + ·) 0

theorem foldr_load_set (l : List (Slot ν)) {i : Nat} (h : i < l.length) (s : Slot ν) :
    (l.set i s).foldr (load · + ·) 0 + load l[i] = l.foldr (load · + ·) 0 + load s := by
  induction l generalizing i with
  | nil => cases h
  | cons t l ih =>
    cases i with
    | zero =>
      simp only [List.set_cons_zero, List.foldr_cons, List.getElem_cons_zero]
      omega
    | succ i =>
      have hl := ih (Nat.lt_of_succ_lt_succ h)
      simp only [List.set_cons_succ, List.foldr_cons, List.getElem_cons_succ]
      omega

/-- Setting a mark takes away what the slot may add. -/
theorem unmarkedLoad_set {slots : Array (Slot ν)} {i : Nat} {s : Slot ν} {o : Object ν}
    (h : i < slots.size) (hs : slots[i] = s) (ho : s.object = some o) (hm : s.marked = false) :
    unmarkedLoad (slots.set i { s with marked := true } h) + (o.children.length + 1) =
      unmarkedLoad slots := by
  have hsum := foldr_load_set slots.toList (Array.length_toList ▸ h) { s with marked := true }
  simpa [unmarkedLoad, load, hs, ho, hm] using hsum

/-- Marks what the worklist leads to. -/
def markFrom (slots : Array (Slot ν)) : List ObjectId → Array (Slot ν)
  | [] => slots
  | id :: gray =>
    if h : id.index.toNat < slots.size then
      let s := slots[id.index.toNat]
      match ho : s.object with
      | some o =>
        if hm : s.marked = false ∧ s.generation = id.generation then
          markFrom (slots.set id.index.toNat { s with marked := true } h) (o.children ++ gray)
        else markFrom slots gray
      | none => markFrom slots gray
    else markFrom slots gray
termination_by gray => unmarkedLoad slots + gray.length
decreasing_by
  · have hload := unmarkedLoad_set h rfl ho hm.1
    rw [List.length_append, List.length_cons]
    omega
  all_goals simp

/-- The addresses of pinned objects. -/
def pinnedIds (slots : Array (Slot ν)) : List ObjectId :=
  (List.range slots.size).filterMap fun i =>
    match slots[i]? with
    | some s =>
      if s.object.isSome && 0 < s.pins then some ⟨UInt32.ofNat i, s.generation⟩ else none
    | none => none

/-! ## Sweeping -/

/-- The slots to be freed, in ascending order. -/
def garbage (slots : Array (Slot ν)) : List Nat :=
  (List.range slots.size).filter fun i =>
    match slots[i]? with
    | some s => s.isGarbage
    | none => false

/-- Frees what is not marked; the slot with the highest index is the first to be used again. -/
def sweep (h : Heap ν) : Nat × Heap ν :=
  let freed := garbage h.slots
  (freed.length,
    { slots := h.slots.map Slot.sweep
      freeList := freed.reverse ++ h.freeList
      live := h.live - freed.length
      allocsSinceCollect := 0
      collections := h.collections + 1 })

/-- Frees everything that neither the roots nor a pinned object lead to, and gives the number of
objects freed. -/
def collect (h : Heap ν) (roots : List Value) : Nat × Heap ν :=
  let gray := roots.filterMap Value.asObject? ++ pinnedIds h.slots
  ({ h with slots := markFrom h.slots gray }).sweep

end Heap

end ScriptMachine
