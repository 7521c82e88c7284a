/-!
# Text from other languages

Callers from other languages pass text as bytes with a length. The bytes may be missing, and need
not be valid UTF-8.
-/

namespace ScriptMachine

/-- Bytes, if there are any, and the number of them that count. -/
structure SizedText where
  bytes : Option ByteArray
  length : Nat

namespace SizedText

/-- The bytes of a string. -/
def ofString (s : String) : SizedText := ⟨some s.toUTF8, s.utf8ByteSize⟩

/-- The text that the bytes spell. Nothing is needed for no bytes; otherwise the bytes must be there
and be valid. -/
def decode? (t : SizedText) : Option String :=
  if t.length = 0 then some ""
  else match t.bytes with
    | none => none
    | some bytes => String.fromUTF8? (bytes.extract 0 t.length)

end SizedText

end ScriptMachine
