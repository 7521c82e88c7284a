import ScriptMachine.Globals
import ScriptMachine.Heap.Collect
import ScriptMachine.Host
import ScriptMachine.RawMemory
/-!
# The virtual machine

The state of a virtual machine, and the operations of a host on values: creating them, pinning and
releasing them, looking at them, and collecting garbage. What the machine shares with its
surroundings is part of the state as well: the text printed so far, the platform's memory and the
host's own state.
-/

namespace ScriptMachine

/-- A call in progress: its code, the next instruction, and the place of its first local variable on
the stack. -/
structure Frame where
  chunk : Chunk
  pc : Nat := 0
  base : Nat
  deriving Inhabited, Repr

/-- A virtual machine and its surroundings. -/
structure Machine (σ : Type) where
  options : Options
  heap : Heap (Native σ) := {}
  globals : Globals := .empty
  /-- The module names that scripts have imported. -/
  imports : List (String × Nat) := []
  modules : Registry (Loader σ) := {}
  raw : RawLedger
  stack : Array Value := #[]
  /-- The calls in progress, the innermost last. -/
  frames : Array Frame := #[]
  /-- The report on the last failed evaluation; empty after a success. -/
  report : String := ""
  /-- The message of the failure being raised. -/
  message : String := ""
  inEval : Bool := false
  /-- The number of native functions in progress. -/
  nativeDepth : Nat := 0
  invalidReleases : Nat := 0
  /-- The text printed so far. -/
  output : String := ""
  platform : Platform := {}
  /-- The host's own state. -/
  host : σ

namespace Machine

variable {σ : Type}

/-! ## Collecting garbage -/

/-- The values that keep objects alive: variables, functions of modules, the stack and the constants
of the calls in progress. -/
def roots (m : Machine σ) : List Value :=
  m.globals.values ++ m.modules.values ++ m.stack.toList ++
    m.frames.toList.flatMap (·.chunk.constants.toList)

/-- Frees what the roots and pins do not lead to; gives the number of objects freed. -/
def collect (m : Machine σ) : Nat × Machine σ :=
  let roots := m.roots
  let (freed, heap) := m.heap.collect roots
  (freed, { m with heap })

/-- Collects garbage unless an evaluation is in progress. -/
def collectGarbage (m : Machine σ) : Nat × Machine σ :=
  if m.inEval then (0, m) else m.collect

/-- Collects garbage in a running script when enough was allocated since the last time. -/
def safePoint (m : Machine σ) : Machine σ :=
  if m.heap.shouldCollect m.options.gcStepObjects then m.collect.2 else m

/-! ## Pins -/

/-- Takes a pin off an object. Other values need no release. -/
def release (m : Machine σ) (v : Value) : Except Failure Unit × Machine σ :=
  match v.asObject? with
  | none => (.ok (), m)
  | some id =>
    match m.heap.unpin id with
    | (.error _, heap) =>
      (.error .invalidRelease, { m with heap, invalidReleases := m.invalidReleases + 1 })
    | (.ok left, heap) =>
      let m := { m with heap }
      if left = 0 && m.options.collectOnRelease then (.ok (), m.collectGarbage.2) else (.ok (), m)

/-- Adds a pin to an object. -/
def retain (m : Machine σ) (v : Value) : Except Failure Unit × Machine σ :=
  match v.asObject? with
  | none => (.ok (), m)
  | some id =>
    match m.heap.pin id with
    | (true, heap) => (.ok (), { m with heap })
    | (false, heap) => (.error .invalidRelease, { m with heap })

/-- Pins what the host gets, unless a native function is in progress: what it makes belongs to the
script it returns to. -/
def pinForHost (m : Machine σ) (v : Value) : Machine σ :=
  match v.asObject? with
  | none => m
  | some id => if m.nativeDepth = 0 then { m with heap := (m.heap.pin id).2 } else m

/-! ## Creating values -/

/-- Places an object on the heap. -/
def alloc (m : Machine σ) (o : Object (Native σ)) : Value × Machine σ :=
  let (id, heap) := m.heap.alloc o
  (.ofObject id, { m with heap })

/-- Places an object on the heap for the host. -/
def adopt (m : Machine σ) (o : Object (Native σ)) : Value × Machine σ :=
  let (v, m) := m.alloc o
  (v, m.pinForHost v)

def createString (m : Machine σ) (s : String) : Value × Machine σ := m.adopt (.string s)

def createList (m : Machine σ) (items : List Value) : Value × Machine σ :=
  m.adopt (.list items.toArray)

/-! ## Looking at values -/

/-- The object that a value refers to, if it is alive. -/
def object? (m : Machine σ) (v : Value) : Option (Object (Native σ)) :=
  match v.asObject? with
  | some id => m.heap.get? id
  | none => none

def asString? (m : Machine σ) (v : Value) : Option String :=
  match m.object? v with
  | some (.string s) => some s
  | _ => none

/-- The items of the list that a value is. -/
def listItems? (m : Machine σ) (v : Value) : Option (Array Value) :=
  match m.object? v with
  | some (.list items) => some items
  | _ => none

/-- The type of a value as scripts see it. -/
def typeName (m : Machine σ) (v : Value) : String :=
  match v.kind with
  | .none => "none"
  | .bool _ => "boolean"
  | .number _ => "number"
  | .interrupt => "interrupt"
  | .object id =>
    match m.heap.get? id with
    | some o => o.typeName
    | none => "invalid"

/-- How deep the text of a list shows the lists in it. -/
def displayDepth : Nat := 8

/-- The text of a value inside a list. Strings are quoted, and below `room` more lists a list is cut
short. -/
def itemText (m : Machine σ) : (room : Nat) → Value → String
  | room, v =>
    match v.kind with
    | .none => "none"
    | .bool b => toString b
    | .number x => x.scriptText
    | .interrupt => "interrupt"
    | .object id =>
      match m.heap.get? id with
      | none => "<invalid>"
      | some (.string s) => "'" ++ s ++ "'"
      | some (.function f) => "<function " ++ f.name ++ ">"
      | some (.native f) => "<native function " ++ f.name ++ ">"
      | some (.list items) =>
        match room with
        | 0 => "[...]"
        | room + 1 =>
          "[" ++ String.intercalate ", " (items.toList.map (m.itemText room)) ++ "]"

/-- The text of a value as `print` shows it: a string stands for itself. -/
def display (m : Machine σ) (v : Value) : String :=
  match m.asString? v with
  | some s => s
  | none => m.itemText displayDepth v

def stats (m : Machine σ) : Stats where
  liveObjects := m.heap.live
  pinnedObjects := m.heap.pinnedCount
  rawBytes := m.raw.bytes
  rawAllocations := m.raw.live.length
  invalidReleases := m.invalidReleases
  collections := m.heap.collections

/-! ## Raw memory -/

def acquire (m : Machine σ) (size : Nat) : Option Nat × Machine σ :=
  let (pointer, raw, platform) := m.raw.alloc Platform.acquire m.platform size
  (pointer, { m with raw, platform })

def discard (m : Machine σ) (pointer : Option Nat) (size : Nat) : Machine σ :=
  { m with raw := m.raw.free pointer size }

/-! ## Modules -/

def addLoader (m : Machine σ) (name : String) (loader : Loader σ) : Machine σ :=
  { m with modules := m.modules.addLoader name loader }

def setFunction (m : Machine σ) (handle : ModuleHandle) (name : String) (arity : Nat)
    (body : Native σ) : Except Failure Unit × Machine σ :=
  if m.modules.accepts handle then
    let (v, m) := m.alloc (.native { name, arity, code := body })
    (.ok (), { m with modules := m.modules.install handle name v })
  else (.error .invalidModuleHandle, m)

end Machine

end ScriptMachine
