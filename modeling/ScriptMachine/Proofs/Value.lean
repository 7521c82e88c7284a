import ScriptMachine.Value
/-!
# Reading words back

Every kind of value is told from heap objects by its word, and a reference is read back as it was
written.

* `Value.asObject?_ofObject`: references;
* `Value.kind_of_asObject?`, `Value.isTruthy_of_asObject?`: what a reference is and is not;
* `Value.kind_ofDouble`: finite numbers.
-/

namespace ScriptMachine

namespace Value

theorem toBitVec_word_ofObject (id : ObjectId) :
    (ofObject id).word.toBitVec =
      objectMask.toBitVec ||| id.generation.toBitVec.zeroExtend 64 <<< 32 |||
        id.index.toBitVec.zeroExtend 64 := by
  simp only [ofObject, UInt64.toBitVec_or, UInt64.toBitVec_shiftLeft,
    UInt16.toBitVec_toUInt64, UInt32.toBitVec_toUInt64]
  rfl

theorem isObject_ofObject (id : ObjectId) : (ofObject id).isObject = true := by
  rw [isObject, beq_iff_eq, ← UInt64.toBitVec_inj, UInt64.toBitVec_and, toBitVec_word_ofObject]
  ext i hi
  rw [BitVec.getElem_and, BitVec.getElem_or, BitVec.getElem_or]
  cases objectMask.toBitVec[i] <;> simp

/-- A reference is read back as it was written. -/
theorem asObject?_ofObject (id : ObjectId) : (ofObject id).asObject? = some id := by
  have hlow : ∀ i < 32, objectMask.toBitVec.getLsbD i = false := by decide
  have hhigh : ∀ i < 16, objectMask.toBitVec.getLsbD (32 + i) = false := by decide
  rw [asObject?, if_pos (isObject_ofObject id)]
  congr 1
  obtain ⟨index, generation⟩ := id
  congr 1
  · rw [← UInt32.toBitVec_inj, UInt64.toBitVec_toUInt32, toBitVec_word_ofObject]
    ext i hi
    simp [hlow i hi]
  · rw [← UInt16.toBitVec_inj, UInt64.toBitVec_toUInt16, UInt64.toBitVec_shiftRight,
      toBitVec_word_ofObject]
    ext i hi
    have hshift : ¬ 32 + i < 32 := by omega
    have hword : 32 + i < 64 := by omega
    have hi64 : i < 64 := by omega
    have hbit : objectMask.toBitVec[32 + i] = false := hhigh i hi
    simp [hbit, hshift, hword, hi64, BitVec.getLsbD_eq_getElem hi]

section

variable {v : Value} {id : ObjectId} (h : v.asObject? = some id)

include h

theorem isNumber_of_asObject? : v.isNumber = false := by
  unfold asObject? at h
  split at h
  · rename_i hobj
    have hword : v.word &&& objectMask = objectMask := by simpa [isObject] using hobj
    have hwindow : v.word &&& window = window := by
      have hsub : objectMask &&& window = window := by decide
      rw [← hsub, ← UInt64.and_assoc, hword]
    simp [isNumber, hwindow]
  · cases h

theorem asNumber?_of_asObject? : v.asNumber? = .none := by
  rw [asNumber?, isNumber_of_asObject? h]
  rfl

theorem kind_of_asObject? : v.kind = .object id := by
  rw [kind, isNumber_of_asObject? h, h]
  rfl

end

theorem kind_ne_object {v : Value} (h : v.asObject? = .none) (id : ObjectId) :
    v.kind ≠ .object id := by
  unfold kind
  rw [h]
  dsimp only
  split
  · exact nofun
  · split
    · exact nofun
    · split <;> exact nofun

theorem asObject?_none : none.asObject? = .none := by decide

theorem asObject?_interrupt : interrupt.asObject? = .none := by decide

theorem asObject?_ofBool (b : Bool) : (ofBool b).asObject? = .none := by cases b <;> decide

theorem asObject?_ofDouble (x : Double) : (ofDouble x).asObject? = .none := by
  cases h : (ofDouble x).asObject? with
  | none => rfl
  | some id =>
    have hnumber := isNumber_of_asObject? h
    unfold ofDouble isNumber at hnumber
    split at hnumber
    · exact absurd hnumber (by decide)
    · rename_i hx
      simp [hx] at hnumber

theorem kind_none : none.kind = .none := by decide

theorem kind_ofBool (b : Bool) : (ofBool b).kind = .bool b := by cases b <;> decide

/-- A finite number has an exponent that is not all ones, so it is not taken for another kind of
value. -/
theorem kind_ofDouble {x : Double} (h : x.isFinite = true) : (ofDouble x).kind = .number x := by
  have hwindow : x.bits &&& window ≠ window := by
    intro hbits
    have hexponent : (x.bits >>> 52) &&& 0x7ff = 0x7ff := by
      have hshift : (x.bits &&& window) >>> 52 = window >>> 52 := by rw [hbits]
      rwa [UInt64.shiftRight_and] at hshift
    simp [Double.isFinite, Double.exponentField, hexponent] at h
  rw [ofDouble, if_neg hwindow, kind, isNumber, if_pos (by simpa using hwindow)]
  rfl

variable {v : Value} {id : ObjectId} (h : v.asObject? = some id)

include h

theorem isTruthy_of_asObject? : v.isTruthy = true := by
  have hnone : v ≠ none := fun hv => by rw [hv, asObject?_none] at h; cases h
  have hfalse : v ≠ ofBool false := fun hv => by rw [hv, asObject?_ofBool] at h; cases h
  simp [isTruthy, hnone, hfalse]

theorem isInterrupt_of_asObject? : v.isInterrupt = false := by
  have hne : v ≠ interrupt := fun hv => by rw [hv, asObject?_interrupt] at h; cases h
  simp [isInterrupt, hne]

end Value

end ScriptMachine
