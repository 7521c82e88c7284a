/-!
# Arrays side by side

Two arrays of one size whose entries correspond, and the operations on arrays that keep them so.
-/

namespace ScriptMachine

variable {α β : Type}

theorem rel_cases {r : α → β → Prop} {x : Option α} {y : Option β} (h : Option.Rel r x y) :
    (x = none ∧ y = none) ∨ ∃ a b, x = some a ∧ y = some b ∧ r a b := by
  cases h with
  | none => exact .inl ⟨rfl, rfl⟩
  | some h => exact .inr ⟨_, _, rfl, rfl, h⟩

theorem rel_mono {r r' : α → β → Prop} {x : Option α} {y : Option β} (h : Option.Rel r x y)
    (hr : ∀ a b, x = some a → y = some b → r a b → r' a b) : Option.Rel r' x y := by
  cases h with
  | none => exact .none
  | some h => exact .some (hr _ _ rfl rfl h)

theorem rel_symm {r : α → β → Prop} {r' : β → α → Prop} {x : Option α} {y : Option β}
    (h : Option.Rel r x y) (hr : ∀ a b, r a b → r' b a) : Option.Rel r' y x := by
  cases h with
  | none => exact .none
  | some h => exact .some (hr _ _ h)

/-- Arrays of one size whose entries correspond. -/
def Pointwise (r : α → β → Prop) (xs : Array α) (ys : Array β) : Prop :=
  ∀ i : Nat, Option.Rel r xs[i]? ys[i]?

namespace Pointwise

variable {r r' : α → β → Prop} {xs : Array α} {ys : Array β}

theorem empty : Pointwise r #[] #[] := fun _ => .none

theorem refl {r : α → α → Prop} {xs : Array α} (h : ∀ a ∈ xs, r a a) : Pointwise r xs xs := by
  intro i
  cases hi : xs[i]? with
  | none => exact .none
  | some a => exact .some (h a (Array.mem_of_getElem? hi))

variable (h : Pointwise r xs ys)

include h

theorem mono_mem (hr : ∀ a b, a ∈ xs → b ∈ ys → r a b → r' a b) : Pointwise r' xs ys := by
  intro i
  exact rel_mono (h i) fun a b ha hb => hr a b (Array.mem_of_getElem? ha) (Array.mem_of_getElem? hb)

theorem mono (hr : ∀ a b, r a b → r' a b) : Pointwise r' xs ys :=
  h.mono_mem fun a b _ _ => hr a b

theorem symm {r' : β → α → Prop} (hr : ∀ a b, r a b → r' b a) : Pointwise r' ys xs :=
  fun i => rel_symm (h i) hr

theorem exists_of_mem {a : α} (ha : a ∈ xs) : ∃ b ∈ ys, r a b := by
  obtain ⟨i, hi⟩ := Array.mem_iff_getElem?.1 ha
  obtain ⟨hnone, -⟩ | ⟨a', b, ha', hb, hab⟩ := rel_cases (h i)
  · rw [hnone] at hi
    cases hi
  · obtain rfl := Option.some.inj (ha'.symm.trans hi)
    exact ⟨b, Array.mem_of_getElem? hb, hab⟩

theorem size_eq : xs.size = ys.size := by
  have hiff : ∀ i : Nat, xs.size ≤ i ↔ ys.size ≤ i := by
    intro i
    rw [← Array.getElem?_eq_none_iff, ← Array.getElem?_eq_none_iff]
    obtain ⟨hx, hy⟩ | ⟨a, b, hx, hy, -⟩ := rel_cases (h i) <;> simp [hx, hy]
  have hle := (hiff xs.size).1 (Nat.le_refl _)
  have hge := (hiff ys.size).2 (Nat.le_refl _)
  omega

theorem map_toList_eq {γ : Type} {f : α → γ} {g : β → γ} (hfg : ∀ a b, r a b → f a = g b) :
    xs.toList.map f = ys.toList.map g := by
  refine List.ext_getElem? fun i => ?_
  rw [List.getElem?_map, List.getElem?_map, Array.getElem?_toList, Array.getElem?_toList]
  obtain ⟨hx, hy⟩ | ⟨a, b, hx, hy, hab⟩ := rel_cases (h i)
  · rw [hx, hy]
    rfl
  · rw [hx, hy, Option.map_some, Option.map_some, hfg a b hab]

theorem push {a : α} {b : β} (hab : r a b) : Pointwise r (xs.push a) (ys.push b) := by
  intro i
  rw [Array.getElem?_push, Array.getElem?_push, h.size_eq]
  split
  · exact .some hab
  · exact h i

theorem pop : Pointwise r xs.pop ys.pop := by
  intro i
  rw [Array.getElem?_pop, Array.getElem?_pop, h.size_eq]
  split
  · exact h i
  · exact .none

theorem back? : Option.Rel r xs.back? ys.back? := by
  rw [Array.back?_eq_getElem?, Array.back?_eq_getElem?, h.size_eq]
  exact h _

theorem extract (i j : Nat) : Pointwise r (xs.extract i j) (ys.extract i j) := by
  intro k
  rw [Array.getElem?_extract, Array.getElem?_extract, h.size_eq]
  split
  · exact h _
  · exact .none

variable (n : Nat)

theorem shrink : Pointwise r (xs.shrink n) (ys.shrink n) := by
  rw [Array.shrink_eq_take, Array.shrink_eq_take]
  exact h.extract 0 n

theorem set {a : α} {b : β} (hab : r a b) :
    Pointwise r (xs.setIfInBounds n a) (ys.setIfInBounds n b) := by
  intro i
  rw [Array.getElem?_setIfInBounds, Array.getElem?_setIfInBounds, h.size_eq]
  split
  · split
    · exact .some hab
    · exact .none
  · exact h i

theorem modify {f : α → α} {g : β → β}
    (hfg : ∀ a b, r a b → r (f a) (g b)) : Pointwise r (xs.modify n f) (ys.modify n g) := by
  intro i
  rw [Array.getElem?_modify, Array.getElem?_modify]
  split
  · obtain ⟨hx, hy⟩ | ⟨a, b, hx, hy, hab⟩ := rel_cases (h i)
    · rw [hx, hy]
      exact .none
    · rw [hx, hy]
      exact .some (hfg a b hab)
  · exact h i

theorem getD {a : α} {b : β} (hab : r a b) : r (xs.getD n a) (ys.getD n b) := by
  rw [Array.getD_eq_getD_getElem?, Array.getD_eq_getD_getElem?]
  obtain ⟨hx, hy⟩ | ⟨a', b', hx, hy, hab'⟩ := rel_cases (h n)
  · rw [hx, hy]
    exact hab
  · rw [hx, hy]
    exact hab'

end Pointwise

end ScriptMachine
