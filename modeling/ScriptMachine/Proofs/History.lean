import ScriptMachine.Proofs.Growth
/-!
# The course of events

What happens on a machine is a sequence of moves. The host has its turn outside of everything, in a
loader and in a native function; in between, the compiler and the running program take theirs. A
point tells what is in progress, the innermost first; a history tells what has happened so far, the
last first.

* `Task`, `Point`: what is in progress;
* `Moves`: what may happen next;
* `Path`: the points that a sequence of moves leads to, with its history.
-/

namespace ScriptMachine

variable {σ ε α : Type}

/-! ## Points -/

/-- Something in progress. -/
inductive Task (σ : Type)
  /-- An evaluation. An unwinding ends at a guarded one. -/
  | evaluation (guarded : Bool)
  | compilation
  | loader (name : String) (index : Nat) (body : Loader σ)
  /-- A program that was started on top of so many calls, and of so many values on the stack. -/
  | program (calls height : Nat)
  | native (f : NativeFunction (Native σ)) (callee : Nat)
  /-- The result of an evaluation, which is to be handed over. -/
  | result (result : Except Failure Value)

/-- A moment in the course of events. -/
structure Point (σ : Type) where
  /-- What is in progress, the innermost first. -/
  tasks : List (Task σ)
  /-- Whether everything in progress is being given up. -/
  unwinding : Bool
  machine : Machine σ

/-- The host has its turn outside of everything, in a loader and in a native function. -/
def HostTurn : List (Task σ) → Prop
  | [] | .loader _ _ _ :: _ | .native _ _ :: _ => True
  | .evaluation _ :: _ | .compilation :: _ | .program _ _ :: _ | .result _ :: _ => False

theorem hostTurn_nil : HostTurn ([] : List (Task σ)) := trivial

/-- What has happened. -/
inductive Event (σ : Type)
  /-- The machine did something on its own. -/
  | worked
  | opened (task : Task σ)
  | closed (task : Task σ)
  | abandoned (task : Task σ)
  | evaluated (result : Except Failure Value)
  /-- A guarded evaluation was given up, and the machine made usable again. -/
  | recovered
  /-- An evaluation was turned down. -/
  | refused
  | replied (r : Request) (reply : r.Reply)
  | wrote
  | registered (name : String) (body : Loader σ)
  | installed (handle : ModuleHandle) (name : String) (result : Except Failure Unit)

/-- A machine with the report on a failure of the running program. -/
def Machine.reportFailure (m : Machine σ) (calls : Nat) (f : Failure) : Machine σ :=
  { m with report := runtimeReport f m.message (m.frames.toList.drop calls).reverse }

/-- A machine after a program, on which calls and values are taken away that it has left. -/
def Machine.settle (m : Machine σ) (calls height : Nat) : Machine σ :=
  { m with frames := m.frames.shrink calls, stack := m.stack.shrink height }

/-! ## What instructions leave alone -/

/-- A part of the machine that does not change with the stack and the calls, with the values of
variables, and with the heap. -/
structure Machine.Aside {τ : Type} (f : Machine σ → τ) : Prop where
  message : ∀ m message, f { m with message } = f m
  calls : ∀ m stack frames, f { m with stack, frames } = f m
  globals : ∀ m slot v globals, m.globals.set? slot v = some globals → f { m with globals } = f m
  heap : ∀ m heap, f { m with heap } = f m

namespace Machine

section Aside

variable {τ : Type} {f : Machine σ → τ} (hf : Aside f)

include hf

/-- Instructions leave such a part alone. -/
theorem Aside.upkeep (t : τ) : Upkeep fun m => f m = t where
  message _ h := (hf.message _ _).trans h
  stack _ h := (hf.calls _ _ _).trans h
  push _ _ h := (hf.calls _ _ _).trans h
  jump _ h := (hf.calls _ _ _).trans h
  enter _ _ _ h := (hf.calls _ _ _).trans h
  leave h := (hf.calls _ _ _).trans h
  setGlobal _ _ _ hset h := (hf.globals _ _ _ _ hset).trans h
  setItem _ _ _ h := (hf.heap _ _).trans h
  string _ h := (hf.heap _ _).trans h
  list _ h := (hf.heap _ _).trans h
  safePoint h := safePoint_of_collect (P := (f · = t)) h ((hf.heap _ _).trans h)

end Aside

/-- The parts of a machine that instructions leave alone. -/
def surroundings (m : Machine σ) : Machine σ :=
  { m with heap := {}, globals := .empty, stack := #[], frames := #[], message := "" }

theorem aside_surroundings : Aside (surroundings (σ := σ)) where
  message _ _ := rfl
  calls _ _ _ := rfl
  globals _ _ _ _ _ := rfl
  heap _ _ := rfl

/-- Instructions do not rename variables. -/
theorem aside_names : Aside fun m : Machine σ => m.globals.names where
  message _ _ := rfl
  calls _ _ _ := rfl
  globals _ _ _ _ h := Globals.names_set? h
  heap _ _ := rfl

theorem surroundings_of_step {m : Machine σ} {calls : Nat} {s : Step σ} (steps : m.step calls = s) :
    s.machine.surroundings = m.surroundings :=
  (aside_surroundings.upkeep _).of_step steps rfl

theorem surroundings_of_resume {m : Machine σ} {name : String} {callee : Nat} {v : Value}
    {c : Checked σ (Machine σ)} (resumes : m.resume name callee v = c) :
    (Step.ofChecked c).machine.surroundings = m.surroundings :=
  (aside_surroundings.upkeep _).of_resume resumes rfl

end Machine

/-! ## What requests leave alone -/

theorem service_standing (m : Machine σ) :
    Service fun n : Machine σ => n.standing = m.standing where
  aside h hstanding _ := hstanding.trans h
  string _ h := h
  list _ h := h
  pin _ h := h
  unpin _ h := h
  collect _ h := h

theorem Machine.standing_collectGarbage (m : Machine σ) :
    m.collectGarbage.2.standing = m.standing :=
  (service_standing m).collectGarbage rfl

theorem Machine.standing_conclude (m : Machine σ) (result : Except Failure Value) :
    (m.conclude result).standing =
      { m with inEval := false, report := result.casesOn (fun _ =>
        m.report) fun _ => "" }.standing := by
  unfold conclude
  rw [standing_collectGarbage]
  cases result <;> rfl

theorem Request.Plain.standing {r : Request} (h : r.Plain) {call : Callback σ} {fuel : Nat}
    {m n : Machine σ} {a : r.Reply} (hr : r.perform call fuel m = .ok a n) :
    n.standing = m.standing :=
  (service_standing m).plain rfl h hr

/-! ## Moves -/

/-- What may happen next. -/
inductive Moves : Point σ → Event σ → Point σ → Prop
  -- The host makes requests.
  | reply {ts : List (Task σ)} {m n : Machine σ} {r : Request} {a : r.Reply} {call : Callback σ}
    {fuel : Nat} (turn : HostTurn ts) (plain : r.Plain)
    (performed : r.perform call fuel m = .ok a n) :
    Moves ⟨ts, false, m⟩ (.replied r a) ⟨ts, false, n⟩
  | write {ts : List (Task σ)} {m : Machine σ} (turn : HostTurn ts) (host : σ) :
    Moves ⟨ts, false, m⟩ .wrote ⟨ts, false, { m with host }⟩
  | register {ts : List (Task σ)} {m : Machine σ} (turn : HostTurn ts) (name : String)
    (body : Loader σ) :
    Moves ⟨ts, false, m⟩ (.registered name body) ⟨ts, false, m.addLoader name body⟩
  | install {ts : List (Task σ)} {m : Machine σ} (turn : HostTurn ts) (handle : ModuleHandle)
    (name : String) (arity : Nat) (body : Native σ) :
    Moves ⟨ts, false, m⟩ (.installed handle name (m.setFunction handle name arity body).1)
      ⟨ts, false, (m.setFunction handle name arity body).2⟩
  -- Evaluations do not nest, and a text has to be one.
  | refuse {ts : List (Task σ)} {m : Machine σ} (turn : HostTurn ts) (evaluates : m.inEval = true) :
    Moves ⟨ts, false, m⟩ .refused ⟨ts, false, m.refuseEval⟩
  | decode {ts : List (Task σ)} {m : Machine σ} (turn : HostTurn ts) :
    Moves ⟨ts, false, m⟩ .refused ⟨ts, false,
      { m with report := "TokenError: source is not valid UTF-8\n" }⟩
  | evaluate {ts : List (Task σ)} {m : Machine σ} (turn : HostTurn ts) (guarded : Bool)
    (rests : m.inEval = false) :
    Moves ⟨ts, false, m⟩ (.opened (.evaluation guarded))
      ⟨.compilation :: .evaluation guarded :: ts, false, m.beginEval⟩
  | compile {ts : List (Task σ)} {m : Machine σ} (turn : HostTurn ts) :
    Moves ⟨ts, false, m⟩ (.opened .compilation) ⟨.compilation :: ts, false, m⟩
  | unwind {ts : List (Task σ)} {m : Machine σ} (turn : HostTurn ts) :
    Moves ⟨ts, false, m⟩ .worked ⟨ts, true, m⟩
  -- Loaders and native functions come to an end.
  | sealed {ts : List (Task σ)} {m : Machine σ} {name : String} {index : Nat} {body : Loader σ} :
    Moves ⟨.loader name index body :: ts, false, m⟩ (.closed (.loader name index body))
      ⟨ts, false, m.finishLoad index⟩
  | resume {ts : List (Task σ)} {m n : Machine σ} {f : NativeFunction (Native σ)} {callee : Nat}
    {v : Value} (resumes : m.leaveNative.resume f.name callee v = .ok n) :
    Moves ⟨.native f callee :: ts, false, m⟩ (.closed (.native f callee)) ⟨ts, false, n⟩
  | spoil {ts : List (Task σ)} {m n : Machine σ} {f : NativeFunction (Native σ)} {callee : Nat}
    {v : Value} {calls height : Nat} {e : Failure}
    (fails : m.leaveNative.resume f.name callee v = .error (e, n)) :
    Moves ⟨.native f callee :: .program calls height :: ts, false, m⟩ (.closed (.native f callee))
      ⟨.result (.error e) :: ts, false, (n.reportFailure calls e).settle calls height⟩
  -- The compiler makes strings and functions, and loads modules.
  | makeString {ts : List (Task σ)} {m : Machine σ} (s : String) :
    Moves ⟨.compilation :: ts, false, m⟩ .worked ⟨.compilation :: ts, false,
      (m.alloc (.string s)).2⟩
  | makeFunction {ts : List (Task σ)} {m : Machine σ} (f : ScriptFunction) :
    Moves ⟨.compilation :: ts, false, m⟩ .worked ⟨.compilation :: ts, false,
      (m.alloc (.function f)).2⟩
  | load {ts : List (Task σ)} {m : Machine σ} {name : String} {index : Nat} {handle : ModuleHandle}
    {body : Loader σ} (found : m.modules.lookup name = .load index handle body) :
    Moves ⟨.compilation :: ts, false, m⟩ (.opened (.loader name index body))
      ⟨.loader name index body :: .compilation :: ts, false, m.beginLoad index⟩
  | compiled {ts : List (Task σ)} {m : Machine σ} (turn : HostTurn ts) (b : Build)
    (source name : String) (chunk : Chunk) :
    Moves ⟨.compilation :: ts, false, m⟩ (.replied (.compile source name) (.ok chunk))
      ⟨ts, false, Compile.commit b m⟩
  | rejected {ts : List (Task σ)} {m : Machine σ} (turn : HostTurn ts) (source name : String)
    (e : SyntaxError) :
    Moves ⟨.compilation :: ts, false, m⟩ (.replied (.compile source name) (.error e)) ⟨ts, false, m⟩
  | reject {ts : List (Task σ)} {m : Machine σ} {guarded : Bool} (e : SyntaxError)
    (report : String) : Moves ⟨.compilation :: .evaluation guarded :: ts, false, m⟩ .worked
      ⟨.result (.error (.ofStage e.stage)) :: .evaluation guarded :: ts, false, { m with report }⟩
  -- The program runs.
  | start {ts : List (Task σ)} {m n : Machine σ} {guarded : Bool} {b : Build}
    (commits : n = Compile.commit b m) (chunk : Chunk) :
    Moves ⟨.compilation :: .evaluation guarded :: ts, false, m⟩ .worked
      ⟨.program n.frames.size n.stack.size :: .evaluation guarded :: ts, false, Core.start chunk n⟩
  | step {ts : List (Task σ)} {m n : Machine σ} {calls height : Nat}
    (steps : m.step calls = .next n) :
    Moves ⟨.program calls height :: ts, false, m⟩ .worked ⟨.program calls height :: ts, false, n⟩
  | call {ts : List (Task σ)} {m n : Machine σ} {calls height : Nat} {f : NativeFunction (Native σ)}
    {args : List Value} {callee : Nat} (steps : m.step calls = .native f args callee n) :
    Moves ⟨.program calls height :: ts, false, m⟩ (.opened (.native f callee))
      ⟨.native f callee :: .program calls height :: ts, false, n.enterNative⟩
  | finish {ts : List (Task σ)} {m n : Machine σ} {calls height : Nat} {v : Value}
    (steps : m.step calls = .done v n) :
    Moves ⟨.program calls height :: ts, false, m⟩ .worked
      ⟨.result (.ok v) :: ts, false, n.settle calls height⟩
  | fail {ts : List (Task σ)} {m n : Machine σ} {calls height : Nat} {e : Failure}
    (steps : m.step calls = .failed e n) :
    Moves ⟨.program calls height :: ts, false, m⟩ .worked
      ⟨.result (.error e) :: ts, false, (n.reportFailure calls e).settle calls height⟩
  | conclude {ts : List (Task σ)} {m : Machine σ} {result : Except Failure Value} {guarded : Bool} :
    Moves ⟨.result result :: .evaluation guarded :: ts, false, m⟩ (.evaluated result)
      ⟨ts, false, m.conclude result⟩
  -- Everything in progress is given up, up to a guarded evaluation, or to the host outside.
  | abandon {ts : List (Task σ)} {m : Machine σ} (task : Task σ) (goes : task ≠ .evaluation true) :
    Moves ⟨task :: ts, true, m⟩ (.abandoned task) ⟨ts, true, m⟩
  | recover {ts : List (Task σ)} {m : Machine σ} :
    Moves ⟨.evaluation true :: ts, true, m⟩ .recovered ⟨ts, false, m.recover⟩
  | escape {m : Machine σ} : Moves ⟨[], true, m⟩ .worked ⟨[], false, m⟩

/-- What has happened so far, the last first, and where. -/
abbrev History (σ : Type) := List (Point σ × Event σ)

/-- The points that moves lead to. -/
inductive Path (p : Point σ) : History σ → Point σ → Prop
  | start : Path p [] p
  | move {hist : History σ} {q r : Point σ} {e : Event σ} (before : Path p hist q)
    (moves : Moves q e r) : Path p ((q, e) :: hist) r

/-- A new machine. -/
def Point.new (options : Options) (host : σ) : Point σ := ⟨[], false, .new options host⟩

end ScriptMachine
