import ScriptMachine.Proofs.Reclaim
import ScriptMachine.Proofs.Unfolding
/-!
# From JSON to a value and back

A JSON value without objects, and with arrays nested no deeper than `128`, is made into a script
value; no other is. What is made unfolds into the JSON value that it was made from, but for numbers,
which are doubles in between.

* `Machine.buildJson_ok_iff`: **which JSON values are made into script values**;
* `Machine.unfolds_buildJson`: **what they unfold into**;
* `Path.toJson_ofJson`: both, on every machine.
-/

namespace ScriptMachine

namespace Json

/-! ## Parts of a document -/

mutual

/-- Whether all parts of a document have a property. -/
def all (p : Json → Bool) : Json → Bool
  | .array items => p (.array items) && allItems p items
  | .object fields => p (.object fields) && allFields p fields
  | j => p j

/-- Whether all parts of the items of an array have a property. -/
def allItems (p : Json → Bool) : List Json → Bool
  | [] => true
  | item :: items => item.all p && allItems p items

/-- Whether all parts of the fields of an object have a property. -/
def allFields (p : Json → Bool) : List (String × Json) → Bool
  | [] => true
  | (_, value) :: fields => value.all p && allFields p fields

end

def isObject : Json → Bool
  | .object _ => true
  | _ => false

/-- The double that a number is read as. -/
def double? : Json → Option Double
  | .int n => some (.ofInt n)
  | .float x => some x
  | _ => none

/-- A document without objects. -/
def ObjectFree (j : Json) : Prop := j.all (!·.isObject) = true

/-- A document in which all numbers are read as finite doubles. -/
def Finite (j : Json) : Prop := j.all (·.double?.all Double.isFinite) = true

instance (j : Json) : Decidable j.ObjectFree := inferInstanceAs (Decidable (_ = true))

instance (j : Json) : Decidable j.Finite := inferInstanceAs (Decidable (_ = true))

theorem objectFree_array {items : List Json} :
    (array items).ObjectFree ↔ allItems (!·.isObject) items = true := by
  simp [ObjectFree, all, isObject]

theorem finite_array {items : List Json} :
    (array items).Finite ↔ allItems (·.double?.all Double.isFinite) items = true := by
  simp [Finite, all, double?]

/-- What comes back for a JSON value. A number is replaced by the one that stands for its double. -/
inductive Returns : Json → Json → Prop
  | null : Returns .null .null
  | bool (b : Bool) : Returns (.bool b) (.bool b)
  | number {j j' : Json} {x : Double} (number : j.double? = some x) (form : x.Exports j') :
    Returns j j'
  | string (s : String) : Returns (.string s) (.string s)
  | array {items items' : List Json} (length : items.length = items'.length)
    (each : ∀ (i : Nat) item item', items[i]? = some item → items'[i]? = some item' →
      Returns item item') :
    Returns (.array items) (.array items')

theorem Returns.nesting_le {j j' : Json} (h : j.Returns j') : j'.nesting ≤ j.nesting := by
  induction h with
  | null | bool | string => exact Nat.le_refl _
  | number _ form =>
    rw [form.nesting_eq]
    exact Nat.zero_le _
  | array length _ ih =>
    rw [nesting, nesting, Nat.add_le_add_iff_right, itemsNesting_le_iff]
    intro i item' hitem'
    obtain ⟨hi, -⟩ := List.getElem?_eq_some_iff.1 hitem'
    have hitem := List.getElem?_eq_getElem (length ▸ hi)
    exact Nat.le_trans (ih i _ item' hitem hitem') (itemsNesting_le_iff.1 (Nat.le_refl _) i _ hitem)

end Json

namespace Machine

variable {σ : Type} {m n : Machine σ}

/-! ## What is made into a value -/

mutual

/-- A JSON value inside of `depth` arrays is made into a script value if it has no objects and its
arrays fit in. -/
theorem buildJson_ok_iff {depth : Nat} (hdepth : depth ≤ maxJsonDepth) :
    (j : Json) → (m : Machine σ) →
    ((∃ v, (buildJson depth j m).1 = .ok v) ↔ j.ObjectFree ∧ depth + j.nesting ≤ maxJsonDepth)
  | .null, m | .bool _, m | .int _, m | .float _, m | .string _, m => by
    simp [buildJson, Json.ObjectFree, Json.all, Json.isObject, Json.nesting, hdepth]
  | .object fields, m => by
    simp [buildJson, Json.ObjectFree, Json.all, Json.isObject]
  | .array items, m => by
    rw [Json.objectFree_array, Json.nesting]
    unfold buildJson
    split
    · rename_i hfull
      refine iff_of_false (by simp) ?_
      omega
    · rename_i hfull
      have hitems := buildItems_ok_iff (show depth + 1 ≤ maxJsonDepth by omega) items m
      rw [← Nat.add_assoc, Nat.add_right_comm, ← hitems]
      split <;> rename_i h <;> simp [h]

theorem buildItems_ok_iff {depth : Nat} (hdepth : depth ≤ maxJsonDepth) :
    (items : List Json) → (m : Machine σ) → ((∃ vs, (buildItems depth items m).1 = .ok vs) ↔
      Json.allItems (!·.isObject) items = true ∧ depth + Json.itemsNesting items ≤ maxJsonDepth)
  | [], m => by simp [buildItems, Json.allItems, Json.itemsNesting, hdepth]
  | item :: items, m => by
    have hitem := buildJson_ok_iff hdepth item m
    rw [Json.allItems, Json.itemsNesting, Bool.and_eq_true]
    unfold buildItems
    split <;> rename_i h <;> rw [h] at hitem
    · refine iff_of_false (by simp) ?_
      rintro ⟨⟨hfree, -⟩, hroom⟩
      obtain ⟨v, hv⟩ := hitem.2 ⟨hfree, by omega⟩
      cases hv
    · rename_i v n
      have hitems := buildItems_ok_iff hdepth items n
      obtain ⟨hfree, hroom⟩ := hitem.1 ⟨v, rfl⟩
      split <;> rename_i h' <;> rw [h'] at hitems
      · refine iff_of_false (by simp) ?_
        rintro ⟨⟨-, hfree'⟩, hroom'⟩
        obtain ⟨vs, hvs⟩ := hitems.2 ⟨hfree', by omega⟩
        cases hvs
      · obtain ⟨hfree', hroom'⟩ := hitems.1 ⟨_, rfl⟩
        exact iff_of_true ⟨_, rfl⟩ ⟨⟨hfree, hfree'⟩, by omega⟩

end

/-! ## What the value unfolds into -/

theorem Unfolds.mono {v : Value} {j : Json} (h : m.Unfolds v j) (hkeeps : m.heap.Keeps n.heap) :
    n.Unfolds v j := by
  induction h with
  | none kind => exact .none kind
  | bool kind => exact .bool kind
  | number kind form => exact .number kind form
  | string kind live => exact .string kind (hkeeps _ _ live)
  | list kind live length _ ih => exact .list kind (hkeeps _ _ live) length ih

theorem Builds.keeps (h : m.Builds n) (ht : m.heap.Tidy) (hfits : n.heap.Fits) :
    m.heap.Keeps n.heap := by
  induction h with
  | start => exact .refl _
  | @string n before s ih | @list n before items ih =>
    have hfits' : n.heap.Fits := hfits.of_le (n.heap.size_le_alloc _)
    exact (ih hfits').trans ((before.keepsPins.tidy hfits' ht).keeps_alloc hfits)

theorem keeps_pinForHost (m : Machine σ) (v : Value) : m.heap.Keeps (m.pinForHost v).heap := by
  unfold pinForHost
  split
  · exact .refl _
  · split
    · intro id o ho
      rwa [Heap.get?_pin]
    · exact .refl _

/-- A number unfolds into the one that stands for it. -/
theorem unfolds_ofDouble {j : Json} {x : Double} (hx : j.double? = some x)
    (hfinite : x.isFinite = true) : ∃ j', j.Returns j' ∧ m.Unfolds (.ofDouble x) j' := by
  obtain ⟨j', form⟩ := Double.exists_exports hfinite
  exact ⟨j', .number hx form, .number (Value.kind_ofDouble hfinite) form⟩

/-- A new list unfolds into an array, if its items have trees. -/
theorem unfolds_alloc_list {vs : List Value} {js : List Json} (ht : m.heap.Tidy)
    (hfits : (m.alloc (.list vs.toArray)).2.heap.Fits) (h : List.Forall₂ m.Unfolds vs js) :
    (m.alloc (.list vs.toArray)).2.Unfolds (m.alloc (.list vs.toArray)).1 (.array js) := by
  obtain ⟨hlength, heach⟩ := forall₂_iff_getElem?.1 h
  refine .list (Value.kind_of_asObject? (Value.asObject?_ofObject _)) (ht.get?_alloc_self hfits)
    (by simpa using hlength) ?_
  intro i w j hw hj
  exact (heach i w j (by simpa using hw) hj).mono (ht.keeps_alloc hfits)

mutual

/-- The value of a JSON value with finite numbers unfolds into what is to come back for it. -/
theorem unfolds_buildJson {depth : Nat} : (j : Json) → {m n : Machine σ} → {v : Value} →
    buildJson depth j m = (.ok v, n) → m.heap.Tidy → n.heap.Fits → j.Finite →
    ∃ j', j.Returns j' ∧ n.Unfolds v j'
  | .null, m, n, v, h, _, _, _ => by
    cases h
    exact ⟨.null, .null, .none Value.kind_none⟩
  | .bool b, m, n, v, h, _, _, _ => by
    cases h
    exact ⟨.bool b, .bool b, .bool (Value.kind_ofBool b)⟩
  | .int _, m, n, v, h, _, _, hfinite | .float _, m, n, v, h, _, _, hfinite => by
    cases h
    exact unfolds_ofDouble rfl hfinite
  | .string s, m, n, v, h, ht, hfits, _ => by
    cases h
    exact ⟨.string s, .string s,
      .string (Value.kind_of_asObject? (Value.asObject?_ofObject _)) (ht.get?_alloc_self hfits)⟩
  | .object fields, m, n, v, h, _, _, _ => by
    simp [buildJson] at h
  | .array items, m, n, v, h, ht, hfits, hfinite => by
    have hbuilds := builds_buildItems (depth + 1) items m
    unfold buildJson at h
    split at h
    · simp at h
    · split at h
      · simp at h
      · rename_i vs k hitems
        cases h
        rw [hitems] at hbuilds
        have hfits' : k.heap.Fits := hfits.of_le (k.heap.size_le_alloc _)
        obtain ⟨items', hreturns, hunfolds⟩ :=
          unfolds_buildItems items hitems ht hfits' (Json.finite_array.1 hfinite)
        obtain ⟨hlength, heach⟩ := forall₂_iff_getElem?.1 hreturns
        exact ⟨.array items', .array hlength heach,
          unfolds_alloc_list (hbuilds.keepsPins.tidy hfits' ht) hfits hunfolds⟩

/-- So do the items of an array, one by one. -/
theorem unfolds_buildItems {depth : Nat} :
    (items : List Json) → {m n : Machine σ} → {vs : List Value} →
    buildItems depth items m = (.ok vs, n) → m.heap.Tidy → n.heap.Fits →
    Json.allItems (·.double?.all Double.isFinite) items = true →
    ∃ items', List.Forall₂ Json.Returns items items' ∧ List.Forall₂ n.Unfolds vs items'
  | [], m, n, vs, h, _, _, _ => by
    cases h
    exact ⟨[], .nil, .nil⟩
  | item :: items, m, n, vs, h, ht, hfits, hfinite => by
    have hbuilds := builds_buildJson depth item m
    rw [Json.allItems, Bool.and_eq_true] at hfinite
    unfold buildItems at h
    split at h
    · simp at h
    · rename_i v k hitem
      rw [hitem] at hbuilds
      have hbuilds' := builds_buildItems depth items k
      split at h
      · simp at h
      · rename_i vs' n' hitems
        cases h
        rw [hitems] at hbuilds'
        have hfits' : k.heap.Fits := hfits.of_le hbuilds'.keepsPins.size
        have ht' : k.heap.Tidy := hbuilds.keepsPins.tidy hfits' ht
        obtain ⟨item', hreturns, hunfolds⟩ := unfolds_buildJson item hitem ht hfits' hfinite.1
        obtain ⟨items', hreturns', hunfolds'⟩ := unfolds_buildItems items hitems ht' hfits hfinite.2
        -- What was made for the first item is still there when the others are made.
        exact ⟨item' :: items', .cons hreturns hreturns',
          .cons (hunfolds.mono (hbuilds'.keeps ht' hfits)) hunfolds'⟩

end

end Machine

/-- **From JSON to a value and back.** On every machine, a JSON value is made into a script value
exactly if it has no objects and its arrays are nested at most `128` deep. If all its numbers are
finite doubles, the value is exported as the same JSON value, with each number replaced by the one
that stands for its double. -/
theorem Path.toJson_ofJson {σ : Type} {options : Options} {host : σ} {hist : History σ}
    {q : Point σ} (h : Path (.new options host) hist q) (j : Json) :
    ((∃ v, (q.machine.ofJson j).1 = .ok v) ↔ j.ObjectFree ∧ j.nesting ≤ 128) ∧
      ∀ v n, q.machine.ofJson j = (.ok v, n) → j.Finite → n.heap.Fits → ∃ j', n.toJson v = .ok j' ∧
      j.Returns j' := by
  have haccepts := Machine.buildJson_ok_iff (Nat.zero_le _) j q.machine
  rw [Nat.zero_add] at haccepts
  obtain ⟨v, n, hbuild, hr, hbuilds⟩ | ⟨e, n, hbuild, hr, hbuilds⟩ := q.machine.ofJson_cases j
  · rw [hbuild] at haccepts
    obtain ⟨hfree, hnesting⟩ := haccepts.1 ⟨v, rfl⟩
    rw [hr]
    refine ⟨iff_of_true ⟨v, rfl⟩ ⟨hfree, hnesting⟩, ?_⟩
    intro v' n' hok hfinite hfits
    cases hok
    have hfits' : n.heap.Fits := Machine.fits_pinForHost hfits
    have ht : q.machine.heap.Tidy := h.tidy (hfits'.of_le hbuilds.keepsPins.size)
    obtain ⟨j', hreturns, hunfolds⟩ := Machine.unfolds_buildJson j hbuild ht hfits' hfinite
    exact ⟨j', Machine.toJson_eq_ok_iff.2 ⟨hunfolds.mono (n.keeps_pinForHost v),
      Nat.le_trans hreturns.nesting_le hnesting⟩, hreturns⟩
  · rw [hbuild] at haccepts
    rw [hr]
    refine ⟨iff_of_false (by simp) fun hfree => ?_, by simp⟩
    obtain ⟨v, hv⟩ := haccepts.2 hfree
    cases hv

/-- A document with texts, lists in lists, a fraction, a zero with a sign and an integer too large
to be told apart. -/
theorem Path.toJson_ofJson_nested : Path (.new {} ()) [] (.new {} () : Point Unit) ∧
    ∃ (j : Json) (v : Value) (n : Machine Unit), Machine.ofJson (.new {} ()) j = (.ok v, n) ∧
      j.Finite ∧ n.heap.Fits ∧
      j.at? [1, 1] = some (.string "b") ∧ j.at? [4] = some (.int 9007199254740993) ∧
      ∃ j', n.toJson v = .ok j' ∧ j.Returns j' := by
  have hpath : Path (.new {} ()) [] (.new {} () : Point Unit) := .start
  -- For any document, so that nothing is computed here.
  have hreturns (j : Json) (haccepts : j.ObjectFree ∧ j.nesting ≤ 128) (hfinite : j.Finite)
      (hfits : (Machine.ofJson (.new {} () : Machine Unit) j).2.heap.Fits) :
      ∃ (v : Value) (n : Machine Unit), Machine.ofJson (.new {} ()) j = (.ok v, n) ∧ n.heap.Fits ∧
        ∃ j', n.toJson v = .ok j' ∧ j.Returns j' := by
    obtain ⟨hmade, hreturns⟩ := Path.toJson_ofJson hpath j
    obtain ⟨v, hv⟩ := hmade.2 haccepts
    have hok : Machine.ofJson (.new {} ()) j = (.ok v,
        (Machine.ofJson (.new {} () : Machine Unit) j).2) :=
      Prod.ext hv rfl
    exact ⟨v, _, hok, hfits, hreturns v _ hok hfinite hfits⟩
  obtain ⟨v, n, hok, hfits, hback⟩ :=
    hreturns (.array [.string "a", .array [.null, .string "b", .array []],
    .float ⟨0x3fe0000000000000⟩, .float ⟨0x8000000000000000⟩, .int 9007199254740993])
    (by decide +kernel) (by decide +kernel) (by decide +kernel)
  exact ⟨hpath, _, v, n, hok, by decide +kernel, hfits, rfl, rfl, hback⟩

end ScriptMachine
