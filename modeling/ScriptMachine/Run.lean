import ScriptMachine.Machine
/-!
# Runs

Computations on a machine. A run ends with a result, fails with an error, is unwound by a host
program, or does not end within its fuel. Whatever the end, the machine is left as the run had made
it.
-/

namespace ScriptMachine

/-- How a run ends. -/
inductive Outcome (σ ε α : Type)
  | ok (a : α) (m : Machine σ)
  | failed (e : ε) (m : Machine σ)
  /-- A host program gave up everything in progress. -/
  | unwound (m : Machine σ)
  /-- The fuel ran out. -/
  | exhausted

/-- A computation on a machine. -/
def Run (σ ε α : Type) : Type := Machine σ → Outcome σ ε α

namespace Run

variable {σ ε α : Type}

@[always_inline]
instance : Monad (Run σ ε) where
  pure a := fun m => .ok a m
  bind x f := fun m =>
    match x m with
    | .ok a m => f a m
    | .failed e m => .failed e m
    | .unwound m => .unwound m
    | .exhausted => .exhausted

def fail (e : ε) : Run σ ε α := fun m => .failed e m

def gets (f : Machine σ → α) : Run σ ε α := fun m => .ok (f m) m

def modify (f : Machine σ → Machine σ) : Run σ ε Unit := fun m => .ok () (f m)

/-- Runs an operation of the machine. -/
def lift (f : Machine σ → α × Machine σ) : Run σ ε α := fun m =>
  let (a, m) := f m
  .ok a m

/-- Turns an error into a result. -/
def attempt {ε' : Type} (x : Run σ ε α) : Run σ ε' (Except ε α) := fun m =>
  match x m with
  | .ok a m => .ok (.ok a) m
  | .failed e m => .ok (.error e) m
  | .unwound m => .unwound m
  | .exhausted => .exhausted

/-- A run that cannot fail, seen as one that could. -/
def infallible (x : Run σ Empty α) : Run σ ε α := fun m =>
  match x m with
  | .ok a m => .ok a m
  | .unwound m => .unwound m
  | .exhausted => .exhausted

end Run

/-- How the machine lets a host program run. -/
abbrev Callback (σ : Type) := Host σ → Run σ Empty Value

end ScriptMachine
