import ScriptMachine.Proofs.Value
/-!
# Words stand for values

A word is a number, a reference or a simple value, and never two of these. What is written as a
value of one kind is read back as just that value, but for NaNs whose payload would read as another
kind of value.

* `Value.Reads`: what every test and every accessor says of a word;
* `Value.sorts_word`: **each word is of one sort**, which decides what kind of value it is;
* `Value.faithful`: **values are read back as they were written**, and words differ where values do.
-/

namespace ScriptMachine

/-! ## Numbers -/

/-- A NaN whose payload would read as another kind of value loses it; other numbers stay as they
are. -/
def Double.canonical (x : Double) : Double :=
  if x.bits &&& Value.window = Value.window then .nan else x

variable {x : Double}

theorem Double.canonical_of_ne (h : x.bits &&& Value.window ≠ Value.window) : x.canonical = x :=
  if_neg h

theorem Double.canonical_of_eq (h : x.bits &&& Value.window = Value.window) : x.canonical = .nan :=
  if_pos h

/-- The window covers the exponent and the two topmost bits of the fraction. -/
theorem Double.isNaN_of_window (h : x.bits &&& Value.window = Value.window) : x.isNaN = true := by
  have hexponent : (x.bits >>> 52) &&& 0x7ff = 0x7ff := by
    have hshift : (x.bits &&& Value.window) >>> 52 = Value.window >>> 52 := by rw [h]
    rwa [UInt64.shiftRight_and] at hshift
  have hfraction : x.bits &&& 0xfffffffffffff ≠ 0 := by
    intro hzero
    have hsub : Value.window &&& 0xfffffffffffff ≠ 0 := by decide
    rw [← h, UInt64.and_assoc, UInt64.and_comm Value.window, ← UInt64.and_assoc, hzero] at hsub
    exact hsub rfl
  have hnat : (x.bits &&& 0xfffffffffffff).toNat ≠ 0 :=
    fun hzero => hfraction (UInt64.toNat_inj.1 hzero)
  rw [isNaN, exponentField, fractionField, hexponent, Bool.and_eq_true, bne_iff_ne]
  exact ⟨rfl, hnat⟩

namespace Value

theorem ofDouble_eq (x : Double) : ofDouble x = ⟨x.canonical.bits⟩ := by
  unfold ofDouble Double.canonical
  split <;> rfl

/-- No number that is written lies in the window. -/
theorem canonical_ne_window (x : Double) : x.canonical.bits &&& window ≠ window := by
  unfold Double.canonical
  split
  · decide
  · assumption

/-! ## Sorts of words -/

/-- The window is set and the sign bit is not: the words of simple values. -/
def Primitive (v : Value) : Prop := v.word &&& objectMask = window

instance : DecidablePred Primitive := fun _ => inferInstanceAs (Decidable (_ = _))

/-- What a simple value is, by the tag in its word. -/
def primitiveKind (v : Value) : Kind :=
  if (v.word >>> 32) &&& 7 = 1 then .bool (v.word &&& 1 == 1)
  else if (v.word >>> 32) &&& 7 = 2 then .interrupt
  else .none

/-- If the window is set, the sign bit alone is left to be told. -/
theorem and_objectMask {w : UInt64} (h : w &&& window = window) :
    w &&& objectMask = window ∨ w &&& objectMask = objectMask := by
  have hmask : (w &&& objectMask).toBitVec =
      (w &&& window).toBitVec ||| w.toBitVec &&& BitVec.twoPow 64 63 := by
    rw [UInt64.toBitVec_and, UInt64.toBitVec_and, ← BitVec.and_or_distrib_left]
    rfl
  rw [h, BitVec.and_twoPow] at hmask
  rw [← UInt64.toBitVec_inj, ← UInt64.toBitVec_inj, hmask]
  split
  · exact .inr rfl
  · exact .inl rfl

theorem window_of_objectMask {w mask : UInt64} (h : w &&& objectMask = mask)
    (hmask : mask &&& window = window) : w &&& window = window := by
  have hsub : objectMask &&& window = window := by decide
  rw [← hsub, ← UInt64.and_assoc, h, hmask, hsub]

/-- The sorts of words, each with the kind of value that such a word is. -/
inductive Sorts (v : Value) : Prop
  | number (isNumber : v.isNumber = true) (isObject : v.isObject = false)
    (primitive : ¬ v.Primitive) (kind : v.kind = .number v.toDouble)
  | object (isNumber : v.isNumber = false) (isObject : v.isObject = true)
    (primitive : ¬ v.Primitive)
    (kind : v.kind = .object ⟨v.word.toUInt32, (v.word >>> 32).toUInt16⟩)
  | primitive (isNumber : v.isNumber = false) (isObject : v.isObject = false)
    (primitive : v.Primitive) (kind : v.kind = v.primitiveKind)

/-- **Each word is of one sort**, which decides what kind of value it is. -/
theorem sorts_word (v : Value) : v.Sorts := by
  by_cases hwindow : v.word &&& window = window
  · have hnumber : v.isNumber = false := by simp [isNumber, hwindow]
    have hne : window ≠ objectMask := by decide
    rcases and_objectMask hwindow with hmask | hmask
    · have hobject : v.isObject = false := by simp [isObject, hmask, hne]
      exact .primitive hnumber hobject hmask (by simp [kind, primitiveKind, asObject?,
        hnumber, hobject])
    · have hobject : v.isObject = true := by simp [isObject, hmask]
      refine .object hnumber hobject (fun hprimitive => hne (hprimitive.symm.trans hmask)) ?_
      exact kind_of_asObject? (by rw [asObject?, if_pos hobject])
  · have hnumber : v.isNumber = true := by simp [isNumber, hwindow]
    refine .number hnumber ?_ (fun hprimitive =>
      hwindow (window_of_objectMask hprimitive (by decide))) ?_
    · rw [isObject, beq_eq_false_iff_ne]
      exact fun hmask => hwindow (window_of_objectMask hmask (by decide))
    · rw [kind, if_pos hnumber]

/-! ## Reading words -/

namespace Kind

/-- The word of a value. -/
def encode : Kind → Value
  | .none => Value.none
  | .bool b => ofBool b
  | .number x => ofDouble x
  | .object id => ofObject id
  | .interrupt => Value.interrupt

/-- The value that is read back for a value. -/
def canonical : Kind → Kind
  | .number x => .number x.canonical
  | k => k

/-- The number that a value is. -/
def number? : Kind → Option Double
  | .number x => some x
  | _ => Option.none

/-- The truth value that a value is. -/
def bool? : Kind → Option Bool
  | .bool b => some b
  | _ => Option.none

/-- The object that a value refers to. -/
def object? : Kind → Option ObjectId
  | .object id => some id
  | _ => Option.none

end Kind

/-- Every test and every accessor says of a word that it is a certain value, and nothing else. -/
structure Reads (v : Value) (k : Kind) : Prop where
  kind : v.kind = k
  asNumber? : v.asNumber? = k.number?
  asBool? : v.asBool? = k.bool?
  asObject? : v.asObject? = k.object?
  isNumber : v.isNumber = k.number?.isSome
  isBool : v.isBool = k.bool?.isSome
  isObject : v.isObject = k.object?.isSome
  isNone : v.isNone = decide (k = .none)
  isInterrupt : v.isInterrupt = decide (k = .interrupt)

theorem reads_none : none.Reads .none := by constructor <;> decide

theorem reads_interrupt : interrupt.Reads .interrupt := by constructor <;> decide

theorem reads_ofBool (b : Bool) : (ofBool b).Reads (.bool b) := by
  cases b <;> constructor <;> decide

/-- The words of simple values are none of those that numbers and references have. -/
theorem ne_of_not_primitive {v w : Value} (h : ¬ v.Primitive) (hw : w.Primitive) : v ≠ w := by
  rintro rfl
  exact h hw

theorem simple_of_not_primitive {v : Value} (h : ¬ v.Primitive) :
    v.asBool? = .none ∧ v.isBool = false ∧ v.isNone = false ∧ v.isInterrupt = false := by
  have hnone : v ≠ none := ne_of_not_primitive h (by decide)
  have hinterrupt : v ≠ interrupt := ne_of_not_primitive h (by decide)
  have htrue : v ≠ ofBool true := ne_of_not_primitive h (by decide)
  have hfalse : v ≠ ofBool false := ne_of_not_primitive h (by decide)
  simp [asBool?, isBool, isNone, isInterrupt, hnone, hinterrupt, htrue, hfalse]

/-- A number is read back as the number that was written. -/
theorem reads_ofDouble (x : Double) : (ofDouble x).Reads (.number x.canonical) := by
  rw [ofDouble_eq]
  have hnumber : (⟨x.canonical.bits⟩ : Value).isNumber = true := by
    simp [isNumber, canonical_ne_window x]
  cases sorts_word ⟨x.canonical.bits⟩ with
  | number _ hobject hprimitive hkind =>
    obtain ⟨hasBool, hbool, hnone, hinterrupt⟩ := simple_of_not_primitive hprimitive
    refine ⟨hkind, ?_, hasBool, ?_, hnumber, hbool, hobject, hnone, hinterrupt⟩
    · rw [asNumber?, if_pos hnumber]
      rfl
    · rw [asObject?, hobject]
      rfl
  | object h | primitive h => rw [hnumber] at h; cases h

/-- A reference is read back as it was written. -/
theorem reads_ofObject (id : ObjectId) : (ofObject id).Reads (.object id) := by
  have hid := asObject?_ofObject id
  have hobject := isObject_ofObject id
  cases sorts_word (ofObject id) with
  | object hnumber _ hprimitive _ =>
    obtain ⟨hasBool, hbool, hnone, hinterrupt⟩ := simple_of_not_primitive hprimitive
    exact ⟨kind_of_asObject? hid, asNumber?_of_asObject? hid, hasBool, hid, hnumber, hbool, hobject,
      hnone, hinterrupt⟩
  | number _ h | primitive _ h => rw [hobject] at h; cases h

/-- What is written is read back. -/
theorem Kind.reads_encode (k : Kind) : k.encode.Reads k.canonical := by
  cases k with
  | none => exact reads_none
  | bool b => exact reads_ofBool b
  | number x => exact reads_ofDouble x
  | object id => exact reads_ofObject id
  | interrupt => exact reads_interrupt

/-- A value and the one that is read back for it have the same word. -/
theorem Kind.encode_canonical (k : Kind) : k.canonical.encode = k.encode := by
  cases k with
  | number x =>
    show ofDouble x.canonical = ofDouble x
    rw [ofDouble_eq, ofDouble_eq, Double.canonical_of_ne (canonical_ne_window x)]
  | none | bool b | object id | interrupt => rfl

/-- **Words stand for values.** What is written as a value of some kind is read back as that value
and as no other one, so words agree just where the values that are read back do. A number keeps all
its bits, unless it is a NaN in the window, which becomes the plain quiet NaN. And each word,
whether it was written or not, is of one sort. -/
theorem faithful :
    (∀ k : Kind, k.encode.Reads k.canonical) ∧
    (∀ k k' : Kind, k.encode = k'.encode ↔ k.canonical = k'.canonical) ∧
    (∀ x : Double, (x.bits &&& window ≠ window → (ofDouble x).word = x.bits) ∧
      (x.bits &&& window = window → x.isNaN = true ∧ (ofDouble x).word = 0x7ff8000000000000)) ∧
    ∀ v : Value, v.Sorts := by
  refine ⟨Kind.reads_encode, fun k k' => ⟨fun h => ?_, fun h => ?_⟩,
    fun x => ⟨fun h => ?_, fun h => ?_⟩, sorts_word⟩
  · rw [← k.reads_encode.kind, h, k'.reads_encode.kind]
  · rw [← k.encode_canonical, h, k'.encode_canonical]
  · rw [ofDouble_eq, Double.canonical_of_ne h]
  · refine ⟨Double.isNaN_of_window h, ?_⟩
    rw [ofDouble_eq, Double.canonical_of_eq h]
    rfl

end Value

end ScriptMachine
