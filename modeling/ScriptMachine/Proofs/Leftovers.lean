import ScriptMachine.Proofs.RoundTrip
/-!
# What a failed import leaves behind

When a value cannot be made from JSON, some of its strings and lists may be on the heap already. A
collection frees them all, and leaves just what it would have left without the import.

* `Machine.Enlarges.kept_iff`: **collections keep the same objects on both**;
* `Path.ofJson_error_litters`: a failed import, on every machine.
-/

namespace ScriptMachine

namespace Machine

variable {σ : Type} {m n : Machine σ} {id : ObjectId}

/-! ## More objects on the heap -/

/-- A machine with more objects on its heap, none of them pinned, and otherwise the same. -/
structure Enlarges (m n : Machine σ) : Prop where
  same : n = { m with heap := n.heap }
  tidy : n.heap.Tidy
  fits : n.heap.Fits
  keeps : m.heap.Keeps n.heap
  pins : ∀ id, n.heap.pins id = m.heap.pins id

theorem Builds.enlarges (h : m.Builds n) (ht : m.heap.Tidy) (hfits : n.heap.Fits) :
    m.Enlarges n where
  same := h.eq_with_heap
  tidy := h.keepsPins.tidy hfits ht
  fits := hfits
  keeps := h.keeps ht hfits
  pins := h.keepsPins.pins hfits ht

theorem Enlarges.refl (ht : m.heap.Tidy) (hfits : m.heap.Fits) : m.Enlarges m :=
  Builds.start.enlarges ht hfits

theorem Enlarges.roots_eq (h : m.Enlarges n) : n.roots = m.roots := by
  rw [h.same]
  rfl

/-- What the machine refers to is alive, so it is the same with more objects around. -/
theorem Enlarges.get?_of_refers (h : m.Enlarges n) (hsafe : m.NoDangling) (hid : m.Refers id) :
    ∃ o, m.heap.get? id = some o ∧ n.heap.get? id = some o := by
  obtain ⟨o, ho⟩ := Heap.contains_iff.1 (hsafe id hid)
  exact ⟨o, ho, h.keeps id o ho⟩

/-- A collection keeps what is referred to, and nothing else: references never lead to the new
objects. -/
theorem Enlarges.kept_iff (h : m.Enlarges n) (hsafe : m.NoDangling) :
    n.heap.Kept n.roots id ↔ m.Refers id := by
  constructor
  · intro hk
    refine h.tidy.of_kept h.fits ?_ ?_ ?_ hk
    · intro v hv id hid
      rw [h.roots_eq] at hv
      exact .of_mem_roots hv hid
    · intro id hpins
      rw [h.pins] at hpins
      exact .pinned hpins
    · intro id o hid ho child hchild
      obtain ⟨v, hv, hobject⟩ := List.mem_filterMap.1 hchild
      obtain ⟨o', ho', hsame⟩ := h.get?_of_refers hsafe hid
      obtain rfl := Option.some.inj (ho.symm.trans hsame)
      exact hid.child ho' (Array.mem_toList_iff.1 hv) hobject
  · refine Refers.closed (fun v hv id hobject => ?_)
      (fun id hpins => Heap.kept_of_pinned ((h.pins id).symm ▸ hpins))
        (fun id o v child before hk ho hv hobject => ?_)
    · obtain ⟨o, -, ho⟩ := h.get?_of_refers hsafe (.of_mem_roots hv hobject)
      exact Heap.kept_of_mem_roots (h.roots_eq ▸ hv) hobject ho
    · obtain ⟨o', -, ho'⟩ := h.get?_of_refers hsafe (before.child ho hv hobject)
      refine h.tidy.kept_of_child hk (h.keeps id o ho) ?_ ho'
      exact List.mem_filterMap.2 ⟨v, Array.mem_toList_iff.2 hv, hobject⟩

/-- Collections leave the same objects on both. -/
theorem Enlarges.get?_collect (h : m.Enlarges n) (ht : m.heap.Tidy) (hfits : m.heap.Fits)
    (hsafe : m.NoDangling) (id : ObjectId) :
    n.collect.2.heap.get? id = m.collect.2.heap.get? id := by
  have hboth : ∀ {k : Machine σ}, m.Enlarges k →
      ∀ o, k.collect.2.heap.get? id = some o ↔ m.heap.get? id = some o ∧ m.Refers id := by
    intro k hk o
    refine Heap.get?_collect_eq_some_iff.trans ?_
    rw [hk.kept_iff hsafe]
    refine and_congr_left fun hid => ?_
    obtain ⟨o', ho, ho'⟩ := hk.get?_of_refers hsafe hid
    rw [ho, ho']
  apply Option.ext
  intro o
  rw [hboth h, hboth (.refl ht hfits)]

/-! ## Failed imports -/

/-- What an import has left behind that failed. -/
structure Litters (m n : Machine σ) : Prop where
  /-- Only the heap is another one. -/
  same : n = { m with heap := n.heap }
  /-- Objects that were alive are what they were, at the same addresses, with the same pins; no
  other is pinned. -/
  keeps : ∀ id o, m.heap.get? id = some o → n.heap.get? id = some o
  pins : ∀ id, n.heap.pins id = m.heap.pins id
  /-- When no evaluation is in progress and nothing dangles, the next collection leaves what it
  would have left without the import. -/
  collected : m.inEval = false → m.NoDangling →
    ∀ id, n.collectGarbage.2.heap.get? id = m.collectGarbage.2.heap.get? id
  /-- It frees every object that the import has made. -/
  freed : m.inEval = false → m.NoDangling → ∀ id, n.heap.contains id = true →
    m.heap.contains id = false → n.collectGarbage.2.heap.contains id = false

theorem Enlarges.litters (h : m.Enlarges n) (ht : m.heap.Tidy) (hfits : m.heap.Fits) :
    m.Litters n := by
  have hcollect : ∀ {k : Machine σ}, k.inEval = false → k.collectGarbage = k.collect := by
    intro k hk
    exact if_neg (by rw [hk]; decide)
  have hget (hin : m.inEval = false) (hsafe : m.NoDangling) (id : ObjectId) :
      n.collectGarbage.2.heap.get? id = m.collectGarbage.2.heap.get? id := by
    have hin' : n.inEval = false := by
      rw [h.same]
      exact hin
    rw [hcollect hin, hcollect hin']
    exact h.get?_collect ht hfits hsafe id
  refine ⟨h.same, h.keeps, h.pins, hget, ?_⟩
  intro hin hsafe id _ hnew
  rw [Bool.eq_false_iff]
  intro halive
  obtain ⟨o, ho⟩ := Heap.contains_iff.1 halive
  rw [hget hin hsafe, hcollect hin] at ho
  have hold := Heap.contains_iff.2 ⟨o, (Heap.get?_collect_eq_some_iff.1 ho).1⟩
  rw [hnew] at hold
  cases hold

end Machine

/-- **A failed import leaves nothing but garbage.** An import that fails changes nothing but the
heap, where the objects that were alive stay as they are. When no evaluation is in progress and all
that the machine refers to is alive, the next collection frees whatever the import has made, and
otherwise what it would have freed without it. -/
theorem Path.ofJson_error_litters {σ : Type} {options : Options} {host : σ} {hist : History σ}
    {q : Point σ} (h : Path (.new options host) hist q) {j : Json} {e : JsonFault} {n : Machine σ}
    (hfails : q.machine.ofJson j = (.error e, n)) (hfits : n.heap.Fits) : q.machine.Litters n := by
  obtain ⟨v, k, -, hr, -⟩ | ⟨e', k, -, hr, hbuilds⟩ := q.machine.ofJson_cases j
  · cases hr.symm.trans hfails
  · cases hr.symm.trans hfails
    have hfits' : q.machine.heap.Fits := hfits.of_le hbuilds.keepsPins.size
    have ht : q.machine.heap.Tidy := h.tidy hfits'
    exact (hbuilds.enlarges ht hfits).litters ht hfits'

/-- A list in a list and its text are made before the import fails at an object; the host has a text
of its own. -/
theorem Path.ofJson_error_litters_object :
    ∃ (hist : History Unit) (q : Point Unit) (j : Json) (n : Machine Unit),
    Path (.new {} ()) hist q ∧ q.machine.inEval = false ∧ q.machine.NoDangling ∧
      q.machine.ofJson j = (.error .object, n) ∧ n.heap.Fits ∧ q.machine.Litters n ∧
      q.machine.heap.pins ⟨5, 0⟩ = 1 ∧ q.machine.heap.contains ⟨7, 0⟩ = false ∧
      n.heap.contains ⟨7, 0⟩ = true := by
  let m : Machine Unit := ((Machine.new {} ()).createString "a").2
  let call : Callback Unit := fun _ _ => .exhausted
  have hperformed : (Request.createString "a").perform call 0 (.new {} ()) =
    .ok ((Machine.new {} ()).createString "a").1 m := rfl
  have hplain : (Request.createString "a").Plain := trivial
  have hpath : Path (.new {} ()) _ (⟨[], false, m⟩ : Point Unit) :=
    .move .start (.reply trivial hplain hperformed)
  have hsafe : m.NoDangling := Machine.noDangling_of_all (by decide +kernel)
  let j : Json := .array [.array [.string "b"], .object []]
  have hfails : m.ofJson j = (.error .object, (m.ofJson j).2) := rfl
  have hfits : (m.ofJson j).2.heap.Fits := by decide +kernel
  exact ⟨_, _, j, _, hpath, rfl, hsafe, hfails, hfits, Path.ofJson_error_litters hpath hfails hfits,
    by decide +kernel, by decide +kernel, by decide +kernel⟩

end ScriptMachine
