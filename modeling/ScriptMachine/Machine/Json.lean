import ScriptMachine.Machine
/-!
# Values and JSON

A value without functions and cycles has a JSON form: lists become arrays, and whole numbers that a
double can tell apart become integers. A JSON value without objects becomes a script value.
-/

namespace ScriptMachine

namespace Machine

variable {σ : Type}

/-- The deepest nesting of lists that is converted. -/
def maxJsonDepth : Nat := 128

/-- The bound below which whole numbers are written as integers. -/
def exactIntegers : Nat := Nat.pow 2 53

def numberToJson (x : Double) : Except JsonFault Json :=
  if !x.isFinite then .error (.invalidNumber x)
  else match x.toInt? with
    | some n => if n.natAbs < exactIntegers then .ok (.int n) else .ok (.float x)
    | none => .ok (.float x)

/-- The JSON form of a value inside the lists `path`, with room for more lists. -/
def toJsonIn (m : Machine σ) : (room : Nat) → (path : List ObjectId) → Value → Except JsonFault Json
  | room, path, v =>
    match v.kind with
    | .none => .ok .null
    | .bool b => .ok (.bool b)
    | .number x => numberToJson x
    | .interrupt => .error .interrupt
    | .object id =>
      match m.heap.get? id with
      | none => .error .released
      | some (.string s) => .ok (.string s)
      | some (.function _) | some (.native _) => .error .function
      | some (.list items) =>
        if path.contains id then .error .circular
        else match room with
          | 0 => .error .tooDeep
          | room + 1 =>
            (items.toList.mapM fun item => m.toJsonIn room (id :: path) item).map .array

def toJson (m : Machine σ) (v : Value) : Except JsonFault Json := m.toJsonIn maxJsonDepth [] v

mutual

/-- Builds the value of a JSON value that stands inside of `depth` arrays. What was built before a
failure stays on the heap until the next collection. -/
def buildJson (depth : Nat) : Json → Machine σ → Except JsonFault Value × Machine σ
  | .null, m => (.ok .none, m)
  | .bool b, m => (.ok (.ofBool b), m)
  | .int n, m => (.ok (.ofDouble (.ofInt n)), m)
  | .float x, m => (.ok (.ofDouble x), m)
  | .string s, m =>
    let (v, m) := m.alloc (.string s)
    (.ok v, m)
  | .array items, m =>
    if maxJsonDepth ≤ depth then (.error .tooDeep, m)
    else
      match buildItems (depth + 1) items m with
      | (.error e, m) => (.error e, m)
      | (.ok vs, m) =>
        let (v, m) := m.alloc (.list vs.toArray)
        (.ok v, m)
  | .object _, m => (.error .object, m)

/-- Builds the items of an array from left to right. -/
def buildItems (depth : Nat) : List Json → Machine σ → Except JsonFault (List Value) × Machine σ
  | [], m => (.ok [], m)
  | item :: items, m =>
    match buildJson depth item m with
    | (.error e, m) => (.error e, m)
    | (.ok v, m) =>
      match buildItems depth items m with
      | (.error e, m) => (.error e, m)
      | (.ok vs, m) => (.ok (v :: vs), m)

end

/-- The value of a JSON value; the host gets it pinned. -/
def ofJson (m : Machine σ) (j : Json) : Except JsonFault Value × Machine σ :=
  match buildJson 0 j m with
  | (.error e, m) => (.error e, m)
  | (.ok v, m) => (.ok v, m.pinForHost v)

end Machine

end ScriptMachine
