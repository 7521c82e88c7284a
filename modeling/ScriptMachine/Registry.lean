import ScriptMachine.Value
/-!
# Modules

A host registers modules by name, each with a loader. The loader runs when a script first imports
the module, and while it runs it may install functions through the handle it is given. When it
returns, the module is sealed: its generation grows, so the handle is of no use any more.

The registry is generic in `l`, the code of loaders.
-/

namespace ScriptMachine

/-- A handle to a module whose loader runs. -/
structure ModuleHandle where
  index : UInt32
  generation : UInt32
  deriving DecidableEq, Inhabited, Repr

namespace ModuleHandle

/-- The handle as one word, which is never zero in its low half. -/
def toRaw (h : ModuleHandle) : UInt64 :=
  (h.generation.toUInt64 <<< 32) ||| (h.index.toUInt64 + 1)

/-- The handle that a word spells; none if the low half is zero. -/
def ofRaw? (raw : UInt64) : Option ModuleHandle :=
  if raw.toUInt32 = 0 then none
  else some ⟨raw.toUInt32 - 1, (raw >>> 32).toUInt32⟩

end ModuleHandle

/-- How far a module has come. -/
inductive ModuleStatus
  | registered
  | loading
  | loaded
  deriving DecidableEq, Repr

/-- How far a module has come, with the loader while it is still to run. -/
inductive ModuleState (l : Type)
  | registered (loader : l)
  | loading
  | loaded

namespace ModuleState

variable {l : Type}

/-- The status that a state shows to the host. -/
def status : ModuleState l → ModuleStatus
  | .registered _ => .registered
  | .loading => .loading
  | .loaded => .loaded

end ModuleState

/-- A module: its name, its state, its functions and its generation. -/
structure ModuleEntry (l : Type) where
  name : String
  state : ModuleState l
  functions : List (String × Value) := []
  generation : UInt32 := 0

/-- The modules of a machine, in the order of their registration. A name is looked up by a search of
them; no index by name is kept beside. -/
structure Registry (l : Type) where
  entries : Array (ModuleEntry l) := #[]

namespace Registry

variable {l : Type}

instance : Inhabited (Registry l) := ⟨{}⟩

def index? (r : Registry l) (name : String) : Option Nat :=
  r.entries.findIdx? (·.name == name)

def status? (r : Registry l) (name : String) : Option ModuleStatus :=
  match r.index? name with
  | some i => (r.entries[i]?).map (·.state.status)
  | none => none

def function? (r : Registry l) (index : Nat) (name : String) : Option Value :=
  match r.entries[index]? with
  | some e => (e.functions.find? (·.1 == name)).map (·.2)
  | none => none

def values (r : Registry l) : List Value :=
  r.entries.toList.flatMap fun e => e.functions.map (·.2)

/-- Registers a loader under a name. It takes the place of one that did not run yet; once the module
is loading or loaded, a new loader is ignored. -/
def addLoader (r : Registry l) (name : String) (loader : l) : Registry l :=
  match r.index? name with
  | none => { entries := r.entries.push { name, state := .registered loader } }
  | some i =>
    { entries := r.entries.modify i fun e =>
        match e.state with
        | .registered _ => { e with state := .registered loader }
        | _ => e }

/-- Whether a handle belongs to a module that is loading. -/
def accepts (r : Registry l) (h : ModuleHandle) : Bool :=
  match r.entries[h.index.toNat]? with
  | some e => e.generation = h.generation && e.state.status = .loading
  | none => false

/-- Installs a function; one of the same name is replaced. -/
def install (r : Registry l) (h : ModuleHandle) (name : String) (v : Value) : Registry l :=
  { entries := r.entries.modify h.index.toNat fun e =>
      { e with functions := (name, v) :: e.functions.filter (·.1 != name) } }

/-- What an import finds. -/
inductive Import (l : Type)
  | unknown
  | cyclic
  | ready (index : Nat)
  | load (index : Nat) (handle : ModuleHandle) (loader : l)

def lookup (r : Registry l) (name : String) : Import l :=
  match r.index? name with
  | none => .unknown
  | some i =>
    match r.entries[i]? with
    | none => .unknown
    | some e =>
      match e.state with
      | .loaded => .ready i
      | .loading => .cyclic
      | .registered loader => .load i ⟨UInt32.ofNat i, e.generation⟩ loader

/-- Marks a module as loading. -/
def beginLoad (r : Registry l) (index : Nat) : Registry l :=
  { entries := r.entries.modify index fun e => { e with state := .loading } }

/-- Seals a module: no handle given out so far is accepted any more. -/
def finishLoad (r : Registry l) (index : Nat) : Registry l :=
  { entries := r.entries.modify index fun e =>
      { e with state := .loaded, generation := e.generation + 1 } }

end Registry

end ScriptMachine
