import ScriptMachine.Host
/-!
# The boundary to other languages

The operations as callers from other languages reach them. Such a caller may pass no machine at all,
text that is not valid, or a module handle as a bare word. Where nothing sensible can be done,
nothing is done.
-/

namespace ScriptMachine

namespace Boundary

variable {σ α : Type}

/-- The word for "no index". -/
def nullId : UInt32 := 0xffffffff

/-- An operation on a machine, or a fixed answer if no machine was passed. -/
def onMachine (present : Bool) (absent : α) (x : HostM σ α) : HostM σ α :=
  if present then x else pure absent

/-- Evaluates a source text: the result code, and the value on success. -/
def eval (present : Bool) (source : SizedText) : HostM σ (Nat × Option Value) :=
  onMachine present (Failure.unknown.code, none) (HostM.ask (.evalBytes source))

def report (present : Bool) : HostM σ SizedText :=
  onMachine present ⟨none, 0⟩ do return .ofString (← HostM.ask .report)

/-- Takes a pin off a value; misuse is ignored. -/
def release (present : Bool) (v : Value) : HostM σ Unit :=
  onMachine present () do
    let _ ← HostM.ask (.release v)

/-- Registers a loader, which gets its handle as a word; a name that is not valid is ignored. -/
def addLoader (present : Bool) (name : SizedText) (loader : UInt64 → Host σ) : HostM σ Unit :=
  onMachine present () do
    match name.decode? with
    | some name => HostM.addLoader name fun handle => loader handle.toRaw
    | none => return ()

/-- Installs a function; a null handle, a stale handle or a name that is not valid is ignored. -/
def setFunction (present : Bool) (handle : UInt64) (name : SizedText) (arity : Nat)
    (body : Native σ) : HostM σ Unit :=
  onMachine present () do
    match ModuleHandle.ofRaw? handle, name.decode? with
    | some handle, some name =>
      let _ ← HostM.setFunction handle name arity body
    | _, _ => return ()

def acquire (present : Bool) (size : Nat) : HostM σ (Option Nat) :=
  onMachine present none (HostM.ask (.acquire size))

def discard (present : Bool) (pointer : Option Nat) (size : Nat) : HostM σ Unit :=
  onMachine present () (HostM.ask (.discard pointer size))

end Boundary

end ScriptMachine
