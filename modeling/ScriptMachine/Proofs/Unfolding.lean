import Mathlib.Data.List.Forall2
import Mathlib.Tactic.Choose
import ScriptMachine.Machine.Json
import ScriptMachine.Proofs.Exact
import ScriptMachine.Proofs.Value
/-!
# What JSON shows of a value

A value is unfolded into a tree: a list into the trees of its items, wherever it occurs. Lists that
lead back to themselves have no such tree. What is exported is the tree, and whatever has a tree of
few enough levels is exported.

* `Machine.unfolds_of_toJsonIn`, `Machine.Unfolds.toJsonIn`: **an export on its way is the tree, if
  that has room**;
* `Machine.toJson_unfolds`: **an export is the tree, and there is one exactly if every place holds
  what JSON can show**.
-/

namespace ScriptMachine

/-- Two lists agree item by item, said by indices. -/
theorem forall₂_iff_getElem? {α β : Type} {r : α → β → Prop} {xs : List α} {ys : List β} :
    List.Forall₂ r xs ys ↔
      xs.length = ys.length ∧ ∀ (i : Nat) x y, xs[i]? = some x → ys[i]? = some y → r x y := by
  rw [List.forall₂_iff_get]
  constructor
  · rintro ⟨hlength, heach⟩
    refine ⟨hlength, fun i x y hx hy => ?_⟩
    obtain ⟨hi, rfl⟩ := List.getElem?_eq_some_iff.1 hx
    obtain ⟨hi', rfl⟩ := List.getElem?_eq_some_iff.1 hy
    exact heach i hi hi'
  · rintro ⟨hlength, heach⟩
    exact ⟨hlength, fun i hi hi' =>
      heach i _ _ (List.getElem?_eq_getElem hi) (List.getElem?_eq_getElem hi')⟩

/-- A list is worked through without a fault exactly if each of its items is. -/
theorem mapM_eq_ok_iff {α β ε : Type} {f : α → Except ε β} {xs : List α} {ys : List β} :
    xs.mapM f = .ok ys ↔ List.Forall₂ (fun x y => f x = .ok y) xs ys := by
  induction xs generalizing ys with
  | nil =>
    rw [List.mapM_nil, List.forall₂_nil_left_iff]
    constructor
    · intro h
      exact (Except.ok.inj h).symm
    · rintro rfl
      rfl
  | cons x xs ih =>
    rw [List.mapM_cons, List.forall₂_cons_left_iff]
    constructor
    · intro h
      cases hx : f x with
      | error e =>
        rw [hx] at h
        cases h
      | ok y =>
        rw [hx] at h
        cases hxs : xs.mapM f with
        | error e =>
          rw [hxs] at h
          cases h
        | ok ys' =>
          rw [hxs] at h
          exact ⟨y, ys', rfl, ih.1 hxs, (Except.ok.inj h).symm⟩
    · rintro ⟨y, ys', hx, hxs, rfl⟩
      rw [hx, ih.2 hxs]
      rfl

/-! ## Numbers in JSON -/

/-- The number that stands for a double in JSON: an integer, if the double is one and it is small
enough for every integer of its size to be a double; the double itself otherwise. -/
inductive Double.Exports (x : Double) : Json → Prop
  | int {n : Int} (finite : x.isFinite = true) (value : x.value = n) (small : n.natAbs < 2 ^ 53) :
    Exports x (.int n)
  | float (finite : x.isFinite = true) (other : ∀ n : Int, x.value = n → 2 ^ 53 ≤ n.natAbs) :
    Exports x (.float x)

variable {x : Double}

theorem numberToJson_eq_ok_iff {j : Json} : Machine.numberToJson x = .ok j ↔ x.Exports j := by
  unfold Machine.numberToJson
  cases hfinite : x.isFinite with
  | false =>
    refine ⟨fun h => by simp at h, fun h => ?_⟩
    cases h <;> simp_all
  | true =>
    cases hint : x.toInt? with
    | none =>
      have hother : ∀ n : Int, x.value ≠ n := fun n hn => by
        rw [Double.toInt?_eq_some_iff.2 ⟨hfinite, hn⟩] at hint
        cases hint
      constructor
      · intro h
        cases h
        exact .float hfinite fun n hn => absurd hn (hother n)
      · intro h
        cases h with
        | int _ value _ => exact absurd value (hother _)
        | float => rfl
    | some n =>
      have hvalue : x.value = n := (Double.toInt?_eq_some_iff.1 hint).2
      have hbound : Machine.exactIntegers = 2 ^ 53 := rfl
      simp only [Bool.not_true, Bool.false_eq_true, if_false, hbound]
      constructor
      · intro h
        split at h
        · cases h
          exact .int hfinite hvalue ‹_›
        · cases h
          refine .float hfinite fun n' hn' => ?_
          rw [hvalue, Int.cast_inj] at hn'
          omega
      · intro h
        cases h with
        | int _ value small =>
          rw [hvalue, Int.cast_inj] at value
          rw [value, if_pos small]
        | float _ other => rw [if_neg (Nat.not_lt.2 (other n hvalue))]

theorem Double.exists_exports (h : x.isFinite = true) : ∃ j, x.Exports j := by
  by_cases hint : ∃ n : Int, x.value = n ∧ n.natAbs < 2 ^ 53
  · obtain ⟨n, hvalue, hsmall⟩ := hint
    exact ⟨.int n, .int h hvalue hsmall⟩
  · refine ⟨.float x, .float h fun n hn => ?_⟩
    by_contra hlt
    exact hint ⟨n, hn, Nat.not_le.1 hlt⟩

theorem Double.Exports.isFinite {j : Json} (h : x.Exports j) : x.isFinite = true := by
  cases h <;> assumption

theorem Double.Exports.unique {j j' : Json} (h : x.Exports j) (h' : x.Exports j') : j = j' :=
  Except.ok.inj ((numberToJson_eq_ok_iff.2 h).symm.trans (numberToJson_eq_ok_iff.2 h'))

namespace Json

/-! ## Places in a document -/

mutual

/-- How deep arrays are nested. -/
def nesting : Json → Nat
  | .null | .bool _ | .int _ | .float _ | .string _ => 0
  | .array items => itemsNesting items + 1
  | .object fields => fieldsNesting fields

/-- The deepest nesting among the items of an array. -/
def itemsNesting : List Json → Nat
  | [] => 0
  | item :: items => max item.nesting (itemsNesting items)

/-- The deepest nesting among the fields of an object. -/
def fieldsNesting : List (String × Json) → Nat
  | [] => 0
  | (_, value) :: fields => max value.nesting (fieldsNesting fields)

end

/-- What stands at a place, given by the indices on the way to it. -/
def at? : Json → List Nat → Option Json
  | j, [] => some j
  | .array items, i :: place => items[i]?.bind fun item => item.at? place
  | _, _ :: _ => none

theorem itemsNesting_le_iff {items : List Json} {n : Nat} :
    itemsNesting items ≤ n ↔ ∀ (i : Nat) item, items[i]? = some item → item.nesting ≤ n := by
  induction items with
  | nil => simp [itemsNesting]
  | cons item items ih =>
    rw [itemsNesting, Nat.max_le, ih]
    constructor
    · rintro ⟨hitem, hitems⟩ (_ | i) other h
      · cases h
        exact hitem
      · exact hitems i other h
    · intro h
      exact ⟨h 0 item rfl, fun i other hi => h (i + 1) other hi⟩

theorem nesting_lt_array {items : List Json} {item : Json} {i : Nat} (h : items[i]? = some item) :
    item.nesting < (array items).nesting := by
  rw [nesting]
  exact Nat.lt_succ_of_le (itemsNesting_le_iff.1 (Nat.le_refl _) i item h)

end Json

theorem Double.Exports.nesting_eq {j : Json} (h : x.Exports j) : j.nesting = 0 := by
  cases h <;> rfl

namespace Machine

variable {σ : Type} {m : Machine σ} {u v w : Value} {j j' : Json} {items : Array Value}

theorem listItems?_eq_some_iff :
    m.listItems? v = some items ↔ ∃ id, v.kind = .object id ∧
    m.heap.get? id = some (.list items) := by
  unfold listItems? object?
  cases hv : v.asObject? with
  | none => simp [Value.kind_ne_object hv]
  | some id =>
    rw [Value.kind_of_asObject? hv]
    dsimp only
    split
    · rename_i hget
      simp [hget]
    · rename_i hget
      simp only [reduceCtorEq, Value.Kind.object.injEq, exists_eq_left', false_iff]
      exact hget items

/-! ## The tree of a value -/

/-- The tree that a value is unfolded into. A list becomes the trees of its items. -/
inductive Unfolds (m : Machine σ) : Value → Json → Prop
  | none {v : Value} (kind : v.kind = .none) : Unfolds m v .null
  | bool {v : Value} {b : Bool} (kind : v.kind = .bool b) : Unfolds m v (.bool b)
  | number {v : Value} {x : Double} {j : Json} (kind : v.kind = .number x) (form : x.Exports j) :
    Unfolds m v j
  | string {v : Value} {id : ObjectId} {s : String} (kind : v.kind = .object id)
    (live : m.heap.get? id = some (.string s)) : Unfolds m v (.string s)
  | list {v : Value} {id : ObjectId} {items : Array Value} {js : List Json}
    (kind : v.kind = .object id) (live : m.heap.get? id = some (.list items))
    (length : items.size = js.length)
    (each : ∀ (i : Nat) w j, items[i]? = some w → js[i]? = some j → Unfolds m w j) :
    Unfolds m v (.array js)

/-- A value that JSON can show and that holds no other values. -/
inductive Leaf (m : Machine σ) (v : Value) : Prop
  | none (kind : v.kind = .none)
  | bool {b : Bool} (kind : v.kind = .bool b)
  | number {x : Double} (kind : v.kind = .number x) (finite : x.isFinite = true)
  | string {id : ObjectId} {s : String} (kind : v.kind = .object id)
    (live : m.heap.get? id = some (.string s))

/-- The value at a place, given by the indices in lists on the way to it. -/
def at? (m : Machine σ) : Value → List Nat → Option Value
  | v, [] => some v
  | v, i :: place => (m.listItems? v).bind fun items => items[i]?.bind fun item => m.at? item place

variable {place : List Nat}

theorem at?_cons_eq_some_iff {i : Nat} :
    m.at? v (i :: place) = some w ↔
      ∃ items item, m.listItems? v = some items ∧ items[i]? = some item ∧
      m.at? item place = some w := by
  simp [at?, Option.bind_eq_some_iff]

theorem Unfolds.congr (h : m.Unfolds v j) (hk : v.kind = w.kind) : m.Unfolds w j := by
  cases h with
  | none kind => exact .none (hk ▸ kind)
  | bool kind => exact .bool (hk ▸ kind)
  | number kind form => exact .number (hk ▸ kind) form
  | string kind live => exact .string (hk ▸ kind) live
  | list kind live length each => exact .list (hk ▸ kind) live length each

/-- A value has at most one tree. -/
theorem Unfolds.unique (h : m.Unfolds v j) (h' : m.Unfolds v j') : j = j' := by
  induction h generalizing j' with
  | none kind | bool kind | string kind live => cases h' <;> simp_all
  | number kind form =>
    cases h' with
    | number kind' form' =>
      obtain rfl := Value.Kind.number.inj (kind.symm.trans kind')
      exact form.unique form'
    | _ => simp_all
  | list kind live length each ih =>
    cases h' with
    | list kind' live' length' each' =>
      obtain rfl := Value.Kind.object.inj (kind.symm.trans kind')
      obtain rfl := Object.list.inj (Option.some.inj (live.symm.trans live'))
      congr 1
      refine List.ext_getElem (length.symm.trans length') fun i hi hi' => ?_
      have hitem := Array.getElem?_eq_getElem (length ▸ hi)
      exact ih i _ _ hitem (List.getElem?_eq_getElem hi)
        (each' i _ _ hitem (List.getElem?_eq_getElem hi'))
    | _ => simp_all

theorem Leaf.listItems?_eq_none (h : m.Leaf v) : m.listItems? v = .none := by
  refine Option.eq_none_iff_forall_ne_some.2 fun items hitems => ?_
  obtain ⟨id, hkind, hget⟩ := listItems?_eq_some_iff.1 hitems
  cases h <;> simp_all

/-- What is unfolded is a leaf, and its tree has no places but the first, or it is a list, and its
tree is made of the trees of its items. -/
theorem Unfolds.leaf_or_list (h : m.Unfolds v j) :
    (m.Leaf v ∧ j.nesting = 0 ∧ ∀ i place, j.at? (i :: place) = .none) ∨
      ∃ items js, m.listItems? v = some items ∧ j = .array js ∧ items.size = js.length ∧
        ∀ (i : Nat) w j, items[i]? = some w → js[i]? = some j → m.Unfolds w j := by
  cases h with
  | none kind => exact .inl ⟨.none kind, rfl, fun _ _ => rfl⟩
  | bool kind => exact .inl ⟨.bool kind, rfl, fun _ _ => rfl⟩
  | number kind form =>
    cases form with
    | int finite | float finite => exact .inl ⟨.number kind finite, rfl, fun _ _ => rfl⟩
  | string kind live => exact .inl ⟨.string kind live, rfl, fun _ _ => rfl⟩
  | list kind live length each =>
    exact .inr ⟨_, _, listItems?_eq_some_iff.2 ⟨_, kind, live⟩, rfl, length, each⟩

theorem Unfolds.nesting_eq_zero (h : m.Unfolds v j) (hl : m.listItems? v = .none) :
    j.nesting = 0 := by
  obtain ⟨-, hnesting, -⟩ | ⟨items, -, hitems, -⟩ := h.leaf_or_list
  · exact hnesting
  · rw [hl] at hitems
    cases hitems

/-- The places of a value are those of its tree, and what stands there has the tree that stands
there. -/
theorem Unfolds.at?_eq_some_iff (h : m.Unfolds v j) :
    j.at? place = some j' ↔ ∃ w, m.at? v place = some w ∧ m.Unfolds w j' := by
  induction place generalizing v j with
  | nil =>
    simp only [Json.at?, at?, Option.some.injEq, exists_eq_left']
    exact ⟨fun hj => hj ▸ h, h.unique⟩
  | cons i place ih =>
    obtain ⟨hleaf, -, hnone⟩ | ⟨items, js, hitems, rfl, hlength, heach⟩ := h.leaf_or_list
    · simp [hnone, at?, hleaf.listItems?_eq_none]
    · rw [Json.at?, at?, hitems, Option.bind_some]
      obtain hi | hi := Nat.lt_or_ge i items.size
      · have hitem : items[i]? = some items[i] := Array.getElem?_eq_getElem hi
        have hj : js[i]? = some (js[i]) := List.getElem?_eq_getElem (hlength ▸ hi)
        rw [hitem, hj, Option.bind_some, Option.bind_some]
        exact ih (heach i _ _ hitem hj)
      · simp [Array.getElem?_eq_none hi, List.getElem?_eq_none (hlength ▸ hi)]

/-- What stands at a place has a tree, with one level fewer for each step on the way. -/
theorem Unfolds.exists_of_at? (h : m.Unfolds v j) (hw : m.at? v place = some w) :
    ∃ j', m.Unfolds w j' ∧ j'.nesting + place.length ≤ j.nesting := by
  induction place generalizing v j with
  | nil =>
    cases hw
    exact ⟨j, h, Nat.le_refl _⟩
  | cons i place ih =>
    obtain ⟨items, item, hitems, hitem, hplace⟩ := at?_cons_eq_some_iff.1 hw
    obtain ⟨hleaf, -⟩ | ⟨_, js, hitems', rfl, hlength, heach⟩ := h.leaf_or_list
    · rw [hleaf.listItems?_eq_none] at hitems
      cases hitems
    · obtain rfl := Option.some.inj (hitems'.symm.trans hitems)
      obtain ⟨hi, -⟩ := Array.getElem?_eq_some_iff.1 hitem
      have hj : js[i]? = some (js[i]) := List.getElem?_eq_getElem (hlength ▸ hi)
      obtain ⟨j', hj', hle⟩ := ih (heach i _ _ hitem hj) hplace
      have hlt := Json.nesting_lt_array hj
      exact ⟨j', hj', by rw [List.length_cons]; omega⟩

/-- What has a tree does not lead back to itself. -/
theorem Unfolds.kind_ne (h : m.Unfolds v j) (hw : m.at? v place = some w) (hplace : place ≠ []) :
    v.kind ≠ w.kind := by
  intro hkind
  obtain ⟨j', hj', hle⟩ := h.exists_of_at? hw
  have hpos := List.length_pos_iff.2 hplace
  rw [hj'.unique (h.congr hkind)] at hle
  omega

theorem Leaf.exists_unfolds (h : m.Leaf v) : ∃ j, m.Unfolds v j ∧ j.nesting = 0 := by
  cases h with
  | none kind => exact ⟨_, .none kind, rfl⟩
  | bool kind => exact ⟨_, .bool kind, rfl⟩
  | number kind finite =>
    obtain ⟨j, form⟩ := Double.exists_exports finite
    exact ⟨j, .number kind form, form.nesting_eq⟩
  | string kind live => exact ⟨_, .string kind live, rfl⟩

/-- A list has a tree if its items do. -/
theorem exists_unfolds_of_items {room : Nat} (hl : m.listItems? v = some items)
    (h : ∀ (i : Nat) w, items[i]? = some w → ∃ j, m.Unfolds w j ∧ j.nesting ≤ room) :
    ∃ j, m.Unfolds v j ∧ j.nesting ≤ room + 1 := by
  obtain ⟨id, hkind, hget⟩ := listItems?_eq_some_iff.1 hl
  choose! tree htree using fun w (hw : ∃ i : Nat, items[i]? = some w) => hw.elim
    fun i hi => h i w hi
  have hof : ∀ (i : Nat) w j, items[i]? = some w → (items.toList.map tree)[i]? = some j →
      tree w = j := by
    intro i w j hw hj
    rw [List.getElem?_map, Array.getElem?_toList, hw] at hj
    exact Option.some.inj hj
  refine ⟨.array (items.toList.map tree), .list hkind hget (by simp) ?_, ?_⟩
  · intro i w j hw hj
    rw [← hof i w j hw hj]
    exact (htree w ⟨i, hw⟩).1
  · rw [Json.nesting, Nat.add_le_add_iff_right, Json.itemsNesting_le_iff]
    intro i j hj
    obtain ⟨w, hw, rfl⟩ := Option.map_eq_some_iff.1 (by rwa [List.getElem?_map] at hj)
    rw [Array.getElem?_toList] at hw
    exact (htree w ⟨i, hw⟩).2

/-- There is a tree of few levels exactly if every place holds a leaf or, above the last level, a
list. -/
theorem exists_unfolds_iff {room : Nat} :
    (∃ j, m.Unfolds v j ∧ j.nesting ≤ room) ↔
      ∀ place w, m.at? v place = some w →
        m.Leaf w ∨ (∃ items, m.listItems? w = some items) ∧ place.length < room := by
  constructor
  · rintro ⟨j, h, hroom⟩ place w hw
    obtain ⟨j', hj', hle⟩ := h.exists_of_at? hw
    obtain ⟨hleaf, -⟩ | ⟨items, js, hitems, rfl, -⟩ := hj'.leaf_or_list
    · exact .inl hleaf
    · refine .inr ⟨⟨items, hitems⟩, ?_⟩
      rw [Json.nesting] at hle
      omega
  · intro h
    induction room generalizing v with
    | zero =>
      obtain hleaf | ⟨-, hroom⟩ := h [] v rfl
      · obtain ⟨j, hj, hnesting⟩ := hleaf.exists_unfolds
        exact ⟨j, hj, Nat.le_of_eq hnesting⟩
      · cases hroom
    | succ room ih =>
      obtain hleaf | ⟨⟨items, hitems⟩, -⟩ := h [] v rfl
      · obtain ⟨j, hj, hnesting⟩ := hleaf.exists_unfolds
        exact ⟨j, hj, hnesting ▸ Nat.zero_le _⟩
      · refine exists_unfolds_of_items hitems fun i item hitem => ih fun place w hw => ?_
        have hplace : m.at? v (i :: place) = some w :=
          at?_cons_eq_some_iff.2 ⟨items, item, hitems, hitem, hw⟩
        refine (h (i :: place) w hplace).imp_right fun hlist => ⟨hlist.1, ?_⟩
        have hlt := hlist.2
        rw [List.length_cons] at hlt
        omega

/-! ## The export -/

theorem toJsonIn_of_not_list (room : Nat) (path : List ObjectId) (h : m.listItems? v = none) :
    m.toJsonIn room path v = .ok j ↔ m.Unfolds v j := by
  unfold toJsonIn
  cases hkind : v.kind with
  | none =>
    refine ⟨fun hok => by cases hok; exact .none hkind, fun hj => ?_⟩
    rw [hj.unique (.none hkind)]
  | bool b =>
    refine ⟨fun hok => by cases hok; exact .bool hkind, fun hj => ?_⟩
    rw [hj.unique (.bool hkind)]
  | number x =>
    refine numberToJson_eq_ok_iff.trans ⟨.number hkind, fun hj => ?_⟩
    cases hj <;> simp_all
  | interrupt =>
    exact iff_of_false (by simp) fun hj => by cases hj <;> simp_all
  | object id =>
    dsimp only
    cases hget : m.heap.get? id with
    | none =>
      exact iff_of_false (by simp) fun hj => by cases hj <;> simp_all
    | some o =>
      cases o with
      | string s =>
        refine ⟨fun hok => by cases hok; exact .string hkind hget, fun hj => ?_⟩
        rw [hj.unique (.string hkind hget)]
      | list items =>
        rw [listItems?_eq_some_iff.2 ⟨id, hkind, hget⟩] at h
        cases h
      | function f | native f =>
        exact iff_of_false (by simp) fun hj => by cases hj <;> simp_all

section

variable {room : Nat} {path : List ObjectId}

theorem toJsonIn_list {id : ObjectId} (hk : v.kind = .object id)
    (hl : m.heap.get? id = some (.list items)) : m.toJsonIn room path v = .ok j ↔
      id ∉ path ∧ ∃ left js, room = left + 1 ∧ j = .array js ∧ items.size = js.length ∧
        ∀ (i : Nat) w j, items[i]? = some w → js[i]? = some j →
        m.toJsonIn left (id :: path) w = .ok j := by
  rw [toJsonIn, hk]
  dsimp only
  rw [hl]
  dsimp only
  by_cases hpath : id ∈ path
  · simp [hpath]
  · rw [if_neg (by simpa using hpath)]
    cases room with
    | zero => simp
    | succ left =>
      have hmap : ∀ result : Except JsonFault (List Json),
          result.map .array = .ok j ↔ ∃ js, result = .ok js ∧ j = .array js := by
        intro result
        cases result <;> simp [Except.map, eq_comm]
      simp only [hmap, mapM_eq_ok_iff, forall₂_iff_getElem?, Array.length_toList,
        Array.getElem?_toList]
      constructor
      · rintro ⟨js, ⟨hlength, heach⟩, rfl⟩
        exact ⟨hpath, left, js, rfl, rfl, hlength, heach⟩
      · rintro ⟨-, left', js, hleft, rfl, hlength, heach⟩
        obtain rfl := Nat.succ.inj hleft
        exact ⟨js, ⟨hlength, heach⟩, rfl⟩

/-- What is exported is the tree. -/
theorem unfolds_of_toJsonIn (h : m.toJsonIn room path v = .ok j) :
    m.Unfolds v j ∧ j.nesting ≤ room := by
  induction room using Nat.strongRecOn generalizing path v j with
  | ind room ih =>
    cases hl : m.listItems? v with
    | none =>
      have hj := (toJsonIn_of_not_list room path hl).1 h
      exact ⟨hj, hj.nesting_eq_zero hl ▸ Nat.zero_le _⟩
    | some items =>
      obtain ⟨id, hkind, hget⟩ := listItems?_eq_some_iff.1 hl
      obtain ⟨-, left, js, rfl, rfl, hlength, heach⟩ := (toJsonIn_list hkind hget).1 h
      have hitem := fun i w j hw hj => ih left (Nat.lt_succ_self _) (heach i w j hw hj)
      refine ⟨.list hkind hget hlength fun i w j hw hj => (hitem i w j hw hj).1, ?_⟩
      rw [Json.nesting, Nat.add_le_add_iff_right, Json.itemsNesting_le_iff]
      intro i j hj
      obtain ⟨hi, -⟩ := List.getElem?_eq_some_iff.1 hj
      exact (hitem i _ j (Array.getElem?_eq_getElem (hlength ▸ hi)) hj).2

/-- A tree with room is exported, if the lists around it have larger trees: they are then not met
again. -/
theorem Unfolds.toJsonIn (h : m.Unfolds v j) (hroom : j.nesting ≤ room)
    (hpath : ∀ w j' id, id ∈ path → w.kind = .object id → m.Unfolds w j' → j.nesting < j'.nesting) :
    m.toJsonIn room path v = .ok j := by
  induction h generalizing room path with
  | @list v id items js kind live length each ih =>
    have hv := Unfolds.list kind live length each
    have hfresh : id ∉ path := fun hid => Nat.lt_irrefl _ (hpath v _ id hid kind hv)
    rw [Json.nesting] at hroom
    obtain ⟨left, rfl⟩ : ∃ left, room = left + 1 := ⟨room - 1, by omega⟩
    refine (toJsonIn_list kind live).2 ⟨hfresh, left, js, rfl, rfl, length, fun i w j hw hj => ?_⟩
    have hlt := Json.nesting_lt_array hj
    refine ih i w j hw hj (Json.itemsNesting_le_iff.1 (Nat.le_of_succ_le_succ hroom) i j hj) ?_
    intro u j' id' hid hkind hj'
    obtain rfl | hid := List.mem_cons.1 hid
    · rw [hj'.unique (hv.congr (kind.trans hkind.symm))]
      exact hlt
    · exact Nat.lt_trans hlt (hpath u j' id' hid hkind hj')
  | none kind => exact (toJsonIn_of_not_list _ _ (Leaf.none kind).listItems?_eq_none).2 (.none kind)
  | bool kind => exact (toJsonIn_of_not_list _ _ (Leaf.bool kind).listItems?_eq_none).2 (.bool kind)
  | number kind form =>
    exact (toJsonIn_of_not_list _ _ (Leaf.number kind form.isFinite).listItems?_eq_none).2
      (.number kind form)
  | string kind live =>
    exact (toJsonIn_of_not_list _ _ (Leaf.string kind live).listItems?_eq_none).2
      (.string kind live)

end

theorem toJson_eq_ok_iff : m.toJson v = .ok j ↔ m.Unfolds v j ∧ j.nesting ≤ maxJsonDepth :=
  ⟨unfolds_of_toJsonIn, fun h => h.1.toJsonIn h.2 (by simp)⟩

/-- **An export is the tree of the value.** There is one exactly if every place of the value holds a
leaf or, fewer than `128` lists deep, a list. So each list is exported wherever it stands, and
whatever leads to a list that leads back to itself is refused. -/
theorem toJson_unfolds (m : Machine σ) (v : Value) :
    (∀ j, m.toJson v = .ok j ↔ m.Unfolds v j ∧ j.nesting ≤ 128) ∧
      ((∃ j, m.toJson v = .ok j) ↔ ∀ place w, m.at? v place = some w →
        m.Leaf w ∨ (∃ items, m.listItems? w = some items) ∧ place.length < 128) ∧
      (∀ j, m.toJson v = .ok j → ∀ place j',
        j.at? place = some j' ↔ ∃ w, m.at? v place = some w ∧ m.toJson w = .ok j') ∧
      ∀ place w back u, m.at? v place = some w → m.at? w back = some u → back ≠ [] →
        w.kind = u.kind → ∃ e, m.toJson v = .error e := by
  have hok : ∀ v j, m.toJson v = .ok j ↔ m.Unfolds v j ∧ j.nesting ≤ 128 :=
    fun _ _ => toJson_eq_ok_iff
  refine ⟨hok v, ?_, ?_, ?_⟩
  · simp only [hok]
    exact exists_unfolds_iff
  · intro j hj place j'
    obtain ⟨hunfolds, hroom⟩ := (hok v j).1 hj
    rw [hunfolds.at?_eq_some_iff]
    refine exists_congr fun w => and_congr_right fun hw => ⟨fun hj' => ?_,
      fun hj' => ((hok w j').1 hj').1⟩
    obtain ⟨j₀, hj₀, hle⟩ := hunfolds.exists_of_at? hw
    rw [hj₀.unique hj'] at hle
    exact (hok w j').2 ⟨hj', by omega⟩
  · intro place w back u hw hu hback hkind
    cases hj : m.toJson v with
    | error e => exact ⟨e, rfl⟩
    | ok j =>
      obtain ⟨j', hj', -⟩ := ((hok v j).1 hj).1.exists_of_at? hw
      exact absurd hkind (hj'.kind_ne hu hback)

end Machine

end ScriptMachine
