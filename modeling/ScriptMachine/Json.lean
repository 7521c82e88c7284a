import ScriptMachine.Number.Text
/-!
# JSON documents

JSON values and their text. Integers and floats are kept apart, as documents show them apart: a
float always has a fraction or an exponent. Text is written on one line, or with two blanks of
indentation for each level.
-/

namespace ScriptMachine

inductive Json
  | null
  | bool (b : Bool)
  | int (n : Int)
  | float (x : Double)
  | string (s : String)
  | array (items : List Json)
  | object (fields : List (String × Json))
  deriving Inhabited

namespace Json

/-! ## Strings -/

/-- Two lower-case hexadecimal digits. -/
def hexByte (n : Nat) : String :=
  String.ofList [Nat.digitChar (n / 16 % 16), Nat.digitChar (n % 16)]

/-- A character inside a string: quotes, backslashes and control characters are escaped. -/
def escapedChar (c : Char) : String :=
  if c = '"' then "\\\""
  else if c = '\\' then "\\\\"
  else if c = '\n' then "\\n"
  else if c = '\r' then "\\r"
  else if c = '\t' then "\\t"
  else if c.toNat = 8 then "\\b"
  else if c.toNat = 12 then "\\f"
  else if c.toNat < 0x20 then "\\u00" ++ hexByte c.toNat
  else c.toString

/-- A string in quotes. -/
def quoted (s : String) : String :=
  s.foldl (fun acc c => acc ++ escapedChar c) "\"" ++ "\""

/-! ## Layouts -/

/-- How a document is laid out. -/
inductive Layout
  /-- All on one line, without blanks. -/
  | compact
  /-- One item a line, indented by two blanks for each level. -/
  | pretty
  deriving DecidableEq, Repr

namespace Layout

/-- What stands before an item on a level. -/
def lineBreak (layout : Layout) (level : Nat) : String :=
  match layout with
  | .compact => ""
  | .pretty => "\n" ++ String.ofList (List.replicate (2 * level) ' ')

def colon : Layout → String
  | .compact => ":"
  | .pretty => ": "

/-- Items between brackets; the closing bracket stands one level further out. -/
def bracket (layout : Layout) (level : Nat) (opening closing : String) (items : List String) :
    String :=
  if items.isEmpty then opening ++ closing
  else
    let inner := String.intercalate "," (items.map (layout.lineBreak (level + 1) ++ ·))
    opening ++ inner ++ layout.lineBreak level ++ closing

end Layout

/-! ## Documents -/

mutual

/-- The text of a value on a level of a document. A number that is not finite has no form of its own
and is written as null. -/
def textAt (layout : Layout) (level : Nat) : Json → String
  | .null => "null"
  | .bool b => toString b
  | .int n => toString n
  | .float x => if x.isFinite then x.jsonText else "null"
  | .string s => quoted s
  | .array items => layout.bracket level "[" "]" (itemTexts layout (level + 1) items)
  | .object fields =>
    layout.bracket level "\x7b" "\x7d" (fieldTexts layout (level + 1) fields)

def itemTexts (layout : Layout) (level : Nat) : List Json → List String
  | [] => []
  | item :: items => textAt layout level item :: itemTexts layout level items

def fieldTexts (layout : Layout) (level : Nat) : List (String × Json) → List String
  | [] => []
  | (key, value) :: fields =>
    (quoted key ++ layout.colon ++ textAt layout level value) :: fieldTexts layout level fields

end

def text (layout : Layout) (j : Json) : String := textAt layout 0 j

/-- The text of a document on one line. -/
def compact (j : Json) : String := j.text .compact

/-- The value of a field of an object; of two fields with one name the later counts. -/
def field? (j : Json) (key : String) : Option Json :=
  match j with
  | .object fields => (fields.reverse.find? (·.1 == key)).map (·.2)
  | _ => none

end Json

/-- Why a script value has no JSON form, or a JSON value no script value. -/
inductive JsonFault
  | invalidNumber (x : Double)
  | interrupt
  | released
  | circular
  | tooDeep
  | function
  | object
  deriving DecidableEq, Repr

/-- The wording of a fault. -/
def JsonFault.message : JsonFault → String
  | .invalidNumber x => "Invalid number: " ++ x.plainText
  | .interrupt => "Can't serialize an interrupt value"
  | .released => "Can't serialize a released value"
  | .circular => "Circular reference detected in list"
  | .tooDeep => "nesting too deep"
  | .function => "Can't serialize a function"
  | .object => "JSON objects have no VM counterpart"

end ScriptMachine
