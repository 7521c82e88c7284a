import ScriptMachine.Machine.Json
/-!
# Making values from JSON

A value is made from JSON by placing strings and lists on the heap, one after the other. Whether
this comes to its end or to a fault, nothing else happens on the machine.

* `Machine.Builds`: machines that come about in this way;
* `Machine.builds_buildJson`: **making a value from JSON is no more than that**.
-/

namespace ScriptMachine

namespace Machine

variable {σ : Type} {m n k : Machine σ}

/-- Machines that come about when strings and lists are made. -/
inductive Builds (m : Machine σ) : Machine σ → Prop
  | start : Builds m m
  | string {n : Machine σ} (before : Builds m n) (s : String) : Builds m (n.alloc (.string s)).2
  | list {n : Machine σ} (before : Builds m n) (items : Array Value) :
    Builds m (n.alloc (.list items)).2

theorem Builds.trans (h : m.Builds n) (h' : n.Builds k) : m.Builds k := by
  induction h' with
  | start => exact h
  | string _ s ih => exact ih.string s
  | list _ items ih => exact ih.list items

/-- Only the heap is another one. -/
theorem Builds.eq_with_heap (h : m.Builds n) : n = { m with heap := n.heap } := by
  induction h with
  | start => rfl
  | string _ s ih | list _ items ih =>
    rw [ih]
    rfl

mutual

theorem builds_buildJson (depth : Nat) :
    (j : Json) → (m : Machine σ) → m.Builds (buildJson depth j m).2
  | .null, m | .bool _, m | .int _, m | .float _, m | .object _, m => by
    simp only [buildJson]
    exact .start
  | .string s, m => by
    simp only [buildJson]
    exact .string .start s
  | .array items, m => by
    have hitems := builds_buildItems (depth + 1) items m
    unfold buildJson
    split
    · exact .start
    · split <;> rename_i h <;> rw [h] at hitems
      · exact hitems
      · exact hitems.list _

theorem builds_buildItems (depth : Nat) : (items : List Json) → (m : Machine σ) →
    m.Builds (buildItems depth items m).2
  | [], m => .start
  | item :: items, m => by
    have hitem := builds_buildJson depth item m
    unfold buildItems
    split <;> rename_i h <;> rw [h] at hitem
    · exact hitem
    · rename_i v n
      have hitems := builds_buildItems depth items n
      split <;> rename_i h' <;> rw [h'] at hitems <;> exact hitem.trans hitems

end

/-- A value is pinned when it is ready. -/
theorem ofJson_cases (m : Machine σ) (j : Json) :
    (∃ v n, buildJson 0 j m = (.ok v, n) ∧ m.ofJson j = (.ok v, n.pinForHost v) ∧ m.Builds n) ∨
      ∃ e n, buildJson 0 j m = (.error e, n) ∧ m.ofJson j = (.error e, n) ∧ m.Builds n := by
  have hbuilds := builds_buildJson 0 j m
  unfold ofJson
  split <;> rename_i h <;> rw [h] at hbuilds
  · exact .inr ⟨_, _, h, rfl, hbuilds⟩
  · exact .inl ⟨_, _, h, rfl, hbuilds⟩

end Machine

end ScriptMachine
