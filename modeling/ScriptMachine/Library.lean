import ScriptMachine.Interpreter
/-!
# Libraries

Named collections of native functions. A library is registered as a module, whose loader installs
the functions, or its functions become built-in variables. The core library is built into every
machine.
-/

namespace ScriptMachine

structure LibraryEntry (σ : Type) where
  name : String
  arity : Nat
  body : Native σ

/-- A named collection of functions. -/
structure Library (σ : Type) where
  name : String
  entries : List (LibraryEntry σ) := []

namespace Library

variable {σ : Type}

/-- Adds a function at the end. -/
def withFunction (l : Library σ) (name : String) (arity : Nat) (body : Native σ) : Library σ :=
  { l with entries := l.entries ++ [{ name, arity, body }] }

/-- The first function of a name. -/
def get? (l : Library σ) (name : String) : Option (LibraryEntry σ) :=
  l.entries.find? (·.name == name)

/-- The loader that installs the functions in order. -/
def loader (l : Library σ) : Loader σ := fun handle =>
  HostM.toLoader (l.entries.forM fun e => do
    let _ ← HostM.setFunction handle e.name e.arity e.body)

/-- Registers a library as a module. -/
def register (l : Library σ) : HostM σ Unit := HostM.addLoader l.name l.loader

/-! ## The core library -/

def argument (args : List Value) : Value := args.headD .none

def printValue : Native σ := fun args => HostM.toHost do
  HostM.ask (.print (← HostM.ask (.display (argument args))))
  return .none

/-- Ends the script with its argument as the message. -/
def raiseValue : Native σ := fun args => HostM.toHost do
  HostM.ask (.raise (← HostM.ask (.display (argument args))))

/-- The length of a string in bytes, or of a list in items. -/
def lengthOf : Native σ := fun args => HostM.toHost do
  let v := argument args
  match ← HostM.ask (.asString v) with
  | some s => return .ofDouble (.ofNat s.utf8ByteSize)
  | none =>
    match ← HostM.ask (.listItems v) with
    | some items => return .ofDouble (.ofNat items.size)
    | none =>
      let type ← HostM.ask (.typeName v)
      HostM.ask (.raise
        ("bad argument to 'len' (string or list expected, got " ++ type ++ ")"))

def typeOf : Native σ := fun args => HostM.toHost do
  HostM.ask (.createString (← HostM.ask (.typeName (argument args))))

/-- The text of its argument; a string is returned as it is. -/
def stringOf : Native σ := fun args => HostM.toHost do
  let v := argument args
  match ← HostM.ask (.asString v) with
  | some _ => return v
  | none => HostM.ask (.createString (← HostM.ask (.display v)))

/-- The functions that every script can use. -/
def core : Library σ where
  name := "core"
  entries :=
    [{ name := "print", arity := 1, body := printValue },
     { name := "panic", arity := 1, body := raiseValue },
     { name := "len", arity := 1, body := lengthOf },
     { name := "typeof", arity := 1, body := typeOf },
     { name := "string", arity := 1, body := stringOf }]

end Library

namespace Machine

variable {σ : Type}

/-- Makes the functions of a library built-in variables. -/
def openBuiltins (m : Machine σ) (l : Library σ) : Machine σ :=
  l.entries.foldl
    (fun m e =>
      let (v, m) := m.alloc (.native { name := e.name, arity := e.arity, code := e.body })
      { m with globals := m.globals.defineBuiltin e.name v })
    m

/-- A new machine with the core library. -/
def new (options : Options) (host : σ) : Machine σ :=
  ({ options, raw := { limit := options.maxRawBytes }, host } : Machine σ).openBuiltins Library.core

/-- More instructions than any evaluation gets to execute. -/
def fuel : Nat := Nat.pow 2 62

/-- Lets a host program run on a machine. -/
def run (m : Machine σ) (h : Host σ) : Outcome σ Empty Value := h.run fuel m

end Machine

end ScriptMachine
