import ScriptMachine.Chunk
import ScriptMachine.Failure
import ScriptMachine.Options
import ScriptMachine.Registry
import ScriptMachine.SizedText
/-!
# Host programs

What a host does with a virtual machine: native functions, module loaders, and the host's own use of
it. A host program is a tree of requests. Each request is answered by the machine, and the answer
chooses how the program goes on. Besides, a program may read and write a state of type `σ` that
belongs to the host, register module loaders and install functions, which are host programs
themselves, and it may unwind: give up all that is in progress up to the nearest guarded evaluation.

* `Request` and `Request.Reply`: what may be asked, and what is answered;
* `Host`: the programs;
* `HostM`: a monad to write them in.
-/

namespace ScriptMachine

/-- A snapshot of what a machine uses. -/
structure Stats where
  liveObjects : Nat
  pinnedObjects : Nat
  rawBytes : Nat
  rawAllocations : Nat
  invalidReleases : Nat
  collections : Nat
  deriving DecidableEq, Repr

/-- What a host program may ask of the machine it runs on. -/
inductive Request
  /-- Compiles and runs a program. -/
  | eval (source : String)
  /-- Runs a program from another language; an unwinding ends here. -/
  | evalBytes (source : SizedText)
  /-- Compiles a program, which is not run. -/
  | compile (source name : String)
  | createString (text : String)
  | createList (items : List Value)
  /-- Leaves a message for the failure that a native function is about to return. -/
  | raise (message : String)
  /-- Prints a line. -/
  | print (line : String)
  /-- Takes a pin off a value. -/
  | release (v : Value)
  /-- Adds a pin to a value. -/
  | retain (v : Value)
  | collect
  | typeName (v : Value)
  | display (v : Value)
  | asString (v : Value)
  | listItems (v : Value)
  | stats
  | options
  /-- The report on the last failed evaluation. -/
  | report
  | exportJson (v : Value)
  | importJson (j : Json)
  | moduleStatus (name : String)
  /-- Takes a raw buffer. -/
  | acquire (size : Nat)
  /-- Gives a raw buffer back. -/
  | discard (pointer : Option Nat) (size : Nat)

/-- What the machine answers. -/
@[reducible] def Request.Reply : Request → Type
  | .eval _ => Except Failure Value
  | .evalBytes _ => Nat × Option Value
  | .compile _ _ => Except SyntaxError Chunk
  | .createString _ | .createList _ | .raise _ => Value
  | .print _ => Unit
  | .release _ | .retain _ => Except Failure Unit
  | .collect => Nat
  | .typeName _ | .display _ => String
  | .asString _ => Option String
  | .listItems _ => Option (Array Value)
  | .stats => Stats
  | .options => Options
  | .report => String
  | .exportJson _ => Except JsonFault Json
  | .importJson _ => Except JsonFault Value
  | .moduleStatus _ => Option ModuleStatus
  | .acquire _ => Option Nat
  | .discard _ _ => Unit

/-- A host program. Its result is the value that a native function returns. -/
inductive Host (σ : Type) : Type
  | finish (v : Value)
  | unwind
  | ask (r : Request) (next : r.Reply → Host σ)
  | read (next : σ → Host σ)
  | write (s : σ) (next : Host σ)
  | addLoader (name : String) (loader : ModuleHandle → Host σ) (next : Host σ)
  | setFunction (handle : ModuleHandle) (name : String) (arity : Nat)
      (body : List Value → Host σ) (next : Except Failure Unit → Host σ)

instance {σ : Type} : Inhabited (Host σ) := ⟨.finish .none⟩

/-- The code of a native function. -/
abbrev Native (σ : Type) := List Value → Host σ

/-- The code of a module loader. -/
abbrev Loader (σ : Type) := ModuleHandle → Host σ

/-- A host program that is still to be told what to do with its result. -/
def HostM (σ α : Type) : Type := (α → Host σ) → Host σ

namespace HostM

variable {σ α : Type}

instance : Monad (HostM σ) where
  pure a := fun next => next a
  bind x f := fun next => x fun a => f a next

def ask (r : Request) : HostM σ r.Reply := fun next => .ask r next

/-- The host's own state. -/
def read : HostM σ σ := fun next => .read next

/-- Changes the host's own state. -/
def modify (f : σ → σ) : HostM σ Unit := fun next => .read fun s => .write (f s) (next ())

/-- Gives up everything in progress. -/
def unwind : HostM σ α := fun _ => .unwind

def addLoader (name : String) (loader : Loader σ) : HostM σ Unit := fun next =>
  .addLoader name loader (next ())

def setFunction (handle : ModuleHandle) (name : String) (arity : Nat) (body : Native σ) :
    HostM σ (Except Failure Unit) := fun next => .setFunction handle name arity body next

/-- Evaluates a source text, hands the value on, and releases it afterwards. -/
def evalScoped (source : String) (use : Value → HostM σ α) : HostM σ (Except Failure α) := do
  match ← ask (.eval source) with
  | .error f => return .error f
  | .ok v =>
    let a ← use v
    let _ ← ask (.release v)
    return .ok a

/-- The program as the body of a native function. -/
def toHost (x : HostM σ Value) : Host σ := x .finish

/-- The program as the body of a loader, whose result does not count. -/
def toLoader (x : HostM σ Unit) : Host σ := x fun _ => .finish .none

end HostM

end ScriptMachine
