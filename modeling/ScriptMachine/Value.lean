import ScriptMachine.Number.Text
/-!
# Values

A script value is one 64-bit word. A word whose bits 50 to 62 are not all set is a double, stored as
it is. Otherwise the sign bit tells heap objects from the simple values: an object word carries the
index of its slot in the low thirty-two bits and the generation of the slot in the sixteen bits
above, a simple value carries a tag in the three bits from bit 32 on. A NaN whose payload would read
as such a word is replaced by the plain quiet NaN.

* `Value.ofDouble`, `Value.ofObject`, `Value.ofBool`: building words;
* `Value.kind`: reading them.
-/

namespace ScriptMachine

/-- The address of a heap object: a slot and the generation of its contents. -/
structure ObjectId where
  index : UInt32
  generation : UInt16
  deriving DecidableEq, Inhabited, Repr

/-- How an object address is shown. -/
def ObjectId.text (id : ObjectId) : String :=
  toString id.index.toNat ++ "@" ++ toString id.generation.toNat

structure Value where
  word : UInt64
  deriving DecidableEq, Repr

namespace Value

/-- Bits 50 to 62: all set in every word that is no double. -/
def window : UInt64 := 0x7ffc000000000000

/-- The window and the sign bit: all set in every object word. -/
def objectMask : UInt64 := 0xfffc000000000000

/-- The word of a simple value. -/
def tagged (tag payload : UInt64) : Value := ⟨window ||| (tag <<< 32) ||| payload⟩

def none : Value := tagged 0 0

/-- The truth values. -/
def ofBool (b : Bool) : Value := if b then tagged 1 1 else tagged 1 0

/-- What a native function returns after it raised a panic. -/
def interrupt : Value := tagged 2 0

instance : Inhabited Value := ⟨none⟩

/-- A number; a NaN that would read as another kind of value loses its payload. -/
def ofDouble (x : Double) : Value :=
  if x.bits &&& window = window then ⟨Double.nan.bits⟩ else ⟨x.bits⟩

/-- A reference to a heap object. -/
def ofObject (id : ObjectId) : Value :=
  ⟨objectMask ||| (id.generation.toUInt64 <<< 32) ||| id.index.toUInt64⟩

/-- The decoded form of a value. -/
inductive Kind
  | none
  | bool (b : Bool)
  | number (x : Double)
  | object (id : ObjectId)
  | interrupt
  deriving DecidableEq, Repr

/-- Whether a word is a double. -/
def isNumber (v : Value) : Bool := v.word &&& window != window

/-- Whether a word refers to a heap object. -/
def isObject (v : Value) : Bool := v.word &&& objectMask == objectMask

/-- Exactly the word of the absent value. -/
def isNone (v : Value) : Bool := v == none

/-- Exactly one of the two words of the truth values. -/
def isBool (v : Value) : Bool := v == ofBool true || v == ofBool false

/-- Exactly the word that reports a panic. -/
def isInterrupt (v : Value) : Bool := v == interrupt

/-- Everything counts as true but the absent value and false. -/
def isTruthy (v : Value) : Bool := !(v == none || v == ofBool false)

/-- The double that a word spells, whatever kind of value it is. -/
def toDouble (v : Value) : Double := ⟨v.word⟩

def asNumber? (v : Value) : Option Double := if v.isNumber then some v.toDouble else .none

def asBool? (v : Value) : Option Bool :=
  if v = ofBool true then some true else if v = ofBool false then some false else .none

def asObject? (v : Value) : Option ObjectId :=
  if v.isObject then some ⟨v.word.toUInt32, (v.word >>> 32).toUInt16⟩ else .none

/-- Decodes a word. Simple values are told apart by their tag alone, and an unknown tag reads as the
absent value. -/
def kind (v : Value) : Kind :=
  if v.isNumber then .number v.toDouble
  else match v.asObject? with
    | some id => .object id
    | .none =>
      let tag := (v.word >>> 32) &&& 7
      if tag = 1 then .bool (v.word &&& 1 == 1)
      else if tag = 2 then .interrupt
      else .none

/-- The text of a value without its heap. -/
def debugText (v : Value) : String :=
  match v.kind with
  | .none => "none"
  | .bool b => toString b
  | .number x => x.plainText
  | .object id => "object(" ++ id.text ++ ")"
  | .interrupt => "interrupt"

end Value

end ScriptMachine
