import ScriptMachine.Json
/-!
# Options

The limits and settings of a virtual machine, and their JSON form.
-/

namespace ScriptMachine

/-- Limits and settings. -/
structure Options where
  /-- The most values on the stack. -/
  maxStackSize : Nat := 1000000
  /-- The most calls in progress. -/
  maxCallDepth : Nat := 256
  /-- The number of allocations after which a running script collects garbage; zero for never. -/
  gcStepObjects : Nat := 4096
  /-- Whether taking the last pin off an object collects garbage. -/
  collectOnRelease : Bool := true
  /-- The most bytes of raw memory in use. -/
  maxRawBytes : Nat := Nat.pow 2 63 - 1
  /-- The name of sources in reports. -/
  chunkName : String := "<eval>"
  deriving DecidableEq, Inhabited, Repr

namespace Options

def toJson (o : Options) : Json :=
  .object
    [("max_stack_size", .int o.maxStackSize),
     ("max_call_depth", .int o.maxCallDepth),
     ("gc_step_objects", .int o.gcStepObjects),
     ("collect_on_release", .bool o.collectOnRelease),
     ("max_raw_alloc_bytes", .int o.maxRawBytes),
     ("chunk_name", .string o.chunkName)]

/-- A field that holds a natural number below `2 ^ 64`; an absent field has its default. -/
def natField? (j : Json) (key : String) (default : Nat) : Option Nat :=
  match j.field? key with
  | none => some default
  | some (.int (.ofNat n)) => if n < UInt64.size then some n else none
  | some _ => none

/-- A field that holds a truth value. -/
def boolField? (j : Json) (key : String) (default : Bool) : Option Bool :=
  match j.field? key with
  | none => some default
  | some (.bool b) => some b
  | some _ => none

/-- A field that holds a string. -/
def stringField? (j : Json) (key : String) (default : String) : Option String :=
  match j.field? key with
  | none => some default
  | some (.string s) => some s
  | some _ => none

/-- Options from a JSON object. Absent fields have their defaults and unknown fields are ignored; a
field of the wrong type, or anything but an object, is refused. -/
def ofJson? (j : Json) : Option Options := do
  let .object _ := j | none
  let d : Options := {}
  let maxStackSize ← natField? j "max_stack_size" d.maxStackSize
  let maxCallDepth ← natField? j "max_call_depth" d.maxCallDepth
  let gcStepObjects ← natField? j "gc_step_objects" d.gcStepObjects
  let collectOnRelease ← boolField? j "collect_on_release" d.collectOnRelease
  let maxRawBytes ← natField? j "max_raw_alloc_bytes" d.maxRawBytes
  let chunkName ← stringField? j "chunk_name" d.chunkName
  some { maxStackSize, maxCallDepth, gcStepObjects, collectOnRelease, maxRawBytes, chunkName }

end Options

end ScriptMachine
