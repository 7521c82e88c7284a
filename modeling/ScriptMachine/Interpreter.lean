import ScriptMachine.Compile
import ScriptMachine.Execute
import ScriptMachine.Machine.Json
/-!
# Evaluating programs and answering hosts

An evaluation compiles a source text and runs it; its result is pinned for the host, and garbage is
collected at its end. Evaluations do not nest on one machine. Host programs are run by answering
their requests one after the other; native functions and loaders that come up on the way are host
programs themselves, one level further in.

* `eval`, `guardedEval`: evaluations;
* `Request.perform`: the answer to one request;
* `Host.run`: a host program.
-/

namespace ScriptMachine

variable {σ : Type}

/-! ## Evaluations -/

/-- Compiles and runs a source text. -/
def evalSource (call : Callback σ) (fuel : Nat) (source : String) : Run σ Failure Value := do
  let name ← Run.gets fun m => m.options.chunkName
  match ← Run.attempt (compileSource call source name) with
  | .ok chunk => execute call fuel chunk
  | .error e =>
    Run.modify fun m => { m with report := staticReport name source e }
    Run.fail (.ofStage e.stage)

/-- The message of an evaluation inside of another one. -/
def reentrantMessage : String := "eval is not reentrant on the same VM"

/-- Evaluates a source text. The result is pinned, if it is an object. -/
def eval {ε : Type} (call : Callback σ) (fuel : Nat) (source : String) :
    Run σ ε (Except Failure Value) := fun m =>
  if m.inEval then
    .ok (.error .unknown)
      { m with message := reentrantMessage, report := "error: " ++ reentrantMessage ++ "\n" }
  else
    let run : Run σ Empty (Except Failure Value) := Run.attempt (evalSource call fuel source)
    match run { m with report := "", inEval := true } with
    | .ok result m =>
      let m := { m with inEval := false }
      let m := match result with
        | .ok v =>
          let heap := match v.asObject? with
            | some id => (m.heap.pin id).2
            | none => m.heap
          { m with heap, report := "" }
        | .error _ => m
      .ok result m.collectGarbage.2
    | .unwound m => .unwound m
    | .exhausted => .exhausted

/-- Makes a machine usable again after a host program gave up in the middle of an evaluation. -/
def Machine.recover (m : Machine σ) : Machine σ :=
  { m with
    stack := #[]
    frames := #[]
    inEval := false
    nativeDepth := 0
    report := "error: a host callback panicked during eval\n" }

/-- Evaluates text from another language: gives the result code and the value, if there is one. An
unwinding ends here. -/
def guardedEval {ε : Type} (call : Callback σ) (fuel : Nat) (source : SizedText) :
    Run σ ε (Nat × Option Value) := fun m =>
  match source.decode? with
  | none =>
    .ok (Failure.token.code, none) { m with report := "TokenError: source is not valid UTF-8\n" }
  | some text =>
    match eval call fuel text m with
    | .ok result m => .ok (resultCode result, result.toOption) m
    | .failed e m => .failed e m
    | .unwound m => .ok (Failure.unknown.code, none) m.recover
    | .exhausted => .exhausted

/-! ## Host programs -/

/-- The machine's answer to a request. Callbacks that come up run by `call`. -/
def Request.perform (call : Callback σ) (fuel : Nat) : (r : Request) → Run σ Empty r.Reply
  | .eval source => ScriptMachine.eval call fuel source
  | .evalBytes source => guardedEval call fuel source
  | .compile source name => Run.attempt (compileSource call source name)
  | .createString text => Run.lift (·.createString text)
  | .createList items => Run.lift (·.createList items)
  | .raise message => Run.lift fun m => (.interrupt, { m with message })
  | .print line => Run.modify fun m => { m with output := m.output ++ line ++ "\n" }
  | .release v => Run.lift (·.release v)
  | .retain v => Run.lift (·.retain v)
  | .collect => Run.lift (·.collectGarbage)
  | .typeName v => Run.gets (·.typeName v)
  | .display v => Run.gets (·.display v)
  | .asString v => Run.gets (·.asString? v)
  | .listItems v => Run.gets (·.listItems? v)
  | .stats => Run.gets (·.stats)
  | .options => Run.gets (·.options)
  | .report => Run.gets (·.report)
  | .exportJson v => Run.gets (·.toJson v)
  | .importJson j => Run.lift (·.ofJson j)
  | .moduleStatus name => Run.gets (·.modules.status? name)
  | .acquire size => Run.lift (·.acquire size)
  | .discard pointer size => Run.modify (·.discard pointer size)

namespace Host

/-- Runs a host program, the callbacks that come up by `call`. -/
def interpret (call : Callback σ) (fuel : Nat) : Host σ → Run σ Empty Value
  | .finish v, m => .ok v m
  | .unwind, m => .unwound m
  | .ask r next, m =>
    match r.perform call fuel m with
    | .ok a m => (next a).interpret call fuel m
    | .unwound m => .unwound m
    | .exhausted => .exhausted
  | .read next, m => (next m.host).interpret call fuel m
  | .write s next, m => next.interpret call fuel { m with host := s }
  | .addLoader name loader next, m => next.interpret call fuel (m.addLoader name loader)
  | .setFunction handle name arity body next, m =>
    let (result, m) := m.setFunction handle name arity body
    (next result).interpret call fuel m

/-- Runs a host program. The fuel bounds how deep callbacks nest and how many instructions each
evaluation takes. -/
def run : (fuel : Nat) → Host σ → Run σ Empty Value
  | 0, _, _ => .exhausted
  | fuel + 1, h, m => h.interpret (run fuel) fuel m

end Host

end ScriptMachine
