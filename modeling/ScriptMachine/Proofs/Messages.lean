import ScriptMachine.Proofs.Correctness
import ScriptMachine.Proofs.Invariant
/-!
# Messages that were left behind

The message of a failure stays in the machine. A later evaluation looks at it in one place, when a
native function returns the interrupt value. So evaluations on machines that differ in the message
they begin with leave the same report unless both are interrupted while no message was set.

* `eval_withMessage`: **what an evaluation on a machine with another message does**.
-/

namespace ScriptMachine

variable {σ : Type}

/-- The same machine with another message. -/
def Machine.withMessage (m : Machine σ) (message : String) : Machine σ := { m with message }

/-- Machines that are the same but for the message. -/
def Machine.UpToMessage (m m' : Machine σ) : Prop := m' = m.withMessage m'.message

/-- Changes that leave the message alone. -/
theorem Machine.UpToMessage.change {f : Machine σ → Machine σ} {m m' : Machine σ}
    (h : m.UpToMessage m') (hf : ∀ u, f (m.withMessage u) = (f m).withMessage u) :
    (f m).UpToMessage (f m') := by
  obtain ⟨u, rfl⟩ : ∃ u, m' = m.withMessage u := ⟨_, h⟩
  rw [hf]
  rfl

/-- Machines in the middle of an evaluation that are the same, but for messages `s` and `t` that
were there before. -/
structure Machine.Beside (s t : String) (m m' : Machine σ) : Prop where
  inEval : m.inEval = true
  same : m.UpToMessage m'
  message : m'.message = m.message ∨ (m.message = s ∧ m'.message = t)

namespace Machine.Beside

variable {s t : String} {m m' : Machine σ}

variable (h : m.Beside s t m')

include h

theorem eq_of_message (hmessage : m.message = m'.message) : m' = m := by
  rw [h.same, ← hmessage]
  rfl

theorem change {f : Machine σ → Machine σ} (heval : (f m).inEval = m.inEval)
    (hf : ∀ u, f (m.withMessage u) = (f m).withMessage u) : (f m).Beside s t (f m') := by
  have hm : (f m).message = m.message := by
    rw [show f m = (f m).withMessage m.message from hf m.message]
    rfl
  have hm' : (f m').message = m'.message := by
    rw [h.same, hf]
    rfl
  refine ⟨heval.trans h.inEval, h.same.change hf, ?_⟩
  rw [hm, hm']
  exact h.message

theorem setMessage (message : String) :
    Machine.Beside s t { m with message } { m' with message } := by
  refine ⟨h.inEval, ?_, .inl rfl⟩
  rw [h.same]
  rfl

end Machine.Beside

/-! ## Native functions and instructions -/

/-- Callbacks do not see a message. -/
def Unseen.messages (s t : String) : Unseen σ where
  rel := Machine.Beside s t
  inEval h := h.inEval
  same h := by rw [h.same]; rfl
  change {m m' n} h hn := by
    have hstack : m'.stack = m.stack := by rw [h.same]; rfl
    have hframes : m'.frames = m.frames := by rw [h.same]; rfl
    rw [hstack, hframes]
    exact ⟨hn, rfl, h.message⟩
  setMessage h := h.setMessage

theorem Pointwise.eq {α : Type} {xs ys : Array α} (h : Pointwise Eq xs ys) : xs = ys :=
  (Pointwise.mem (p := fun _ => True) (h.mono fun _ _ heq => ⟨heq, trivial⟩)).1

theorem Frame.Corresponds.eq {frames frames' : Array Frame}
    (h : Pointwise (Frame.Corresponds Eq) frames frames') : frames = frames' :=
  (Frame.Corresponds.mem (p := fun _ => True) (h.mono fun _ _ hf => hf.mono fun _ _ heq =>
    ⟨heq, trivial⟩)).1

theorem Machine.safePoint_withMessage (m : Machine σ) (u : String) :
    (m.withMessage u).safePoint = m.safePoint.withMessage u := by
  show (if m.heap.shouldCollect m.options.gcStepObjects then _ else _) = Machine.withMessage (if _
    then _ else _) u
  split <;> rfl

theorem Machine.inEval_safePoint (m : Machine σ) : m.safePoint.inEval = m.inEval := by
  unfold safePoint
  split <;> rfl

/-- Instructions do not look at a message, and set one if they fail. -/
def Lockstep.messages (s t : String) : Lockstep σ where
  World := Unit
  val _ := Eq
  rel _ := Machine.Beside s t
  code := Eq
  fits _ _ := True
  val_of_asObject?_eq_none _ := rfl
  val_cases {_ v _} h := by
    subst h
    cases hv : v.asObject? with
    | none => exact .inl ⟨rfl, rfl⟩
    | some id => exact .inr ⟨id, id, rfl, rfl⟩
  val_eq_iff _ _ hu hv := by rw [hu, hv]
  stack h _ := by
    rw [h.same]
    exact .refl fun _ _ => rfl
  frames h _ := by
    rw [h.same]
    exact .refl fun _ _ => ⟨.refl fun _ _ => rfl, rfl, rfl⟩
  global {_ m _} h _ slot := by
    rw [h.same]
    show Option.Rel Eq (m.globals.get? slot) (m.globals.get? slot)
    cases m.globals.get? slot with
    | none => exact .none
    | some v => exact .some rfl
  object? {_ m _ v _} h _ hv := by
    subst hv
    rw [h.same]
    show Option.Rel _ (m.object? v) (m.object? v)
    cases m.object? v with
    | none => exact .none
    | some o => exact .some (.refl (fun _ _ => rfl) fun _ _ => rfl)
  names h := by rw [h.same]; rfl
  limits h := by rw [h.same]; exact ⟨rfl, rfl⟩
  setMessage h := h.setMessage
  setCalls {_ _ _ stack _ frames _} h hs hfr := by
    obtain rfl := hs.eq
    obtain rfl := Frame.Corresponds.eq hfr
    exact h.change (f := fun m => { m with stack, frames }) rfl fun _ => rfl
  setGlobal {_ m m' _ _ _ globals _} h hv hg hg' := by
    subst hv
    have hsame : m'.globals = m.globals := by rw [h.same]; rfl
    rw [hsame] at hg'
    obtain rfl := Option.some.inj (hg.symm.trans hg')
    exact h.change (f := fun m => { m with globals }) rfl fun _ => rfl
  setItem {_ _ _ _ _ id _} h _ hv hid hid' i u _ hu := by
    subst hv hu
    obtain rfl := Option.some.inj (hid.symm.trans hid')
    exact h.change (f := fun m => { m with heap := m.heap.modify id fun o => o.setItem i u }) rfl
      fun _ => rfl
  newString h text := by
    refine ⟨(), fun _ _ heq => heq, h.change (f := fun m => (m.alloc (.string text)).2) rfl
      fun _ => rfl, ?_⟩
    rw [h.same]
    rfl
  newList {_ _ _ xs _} h hxs := by
    obtain rfl := hxs.eq
    refine ⟨(), fun _ _ heq => heq, h.change (f := fun m => (m.alloc (.list xs)).2) rfl
      fun _ => rfl, ?_⟩
    rw [h.same]
    rfl
  safePoint h := ⟨(), h.change (Machine.inEval_safePoint _) (Machine.safePoint_withMessage _)⟩

/-! ## Runs -/

/-- A run within some fuel that a native function ends with the interrupt value, and the machine
that it leaves. -/
inductive Interrupts (call : Callback σ) (entry : Nat) : Nat → Machine σ → Machine σ → Prop
  | now {fuel callee : Nat} {f : NativeFunction (Native σ)} {args : List Value}
    {m before after : Machine σ} (asks : m.step entry = .native f args callee before)
    (runs : call (f.code args) before.enterNative = .ok .interrupt after) :
    Interrupts call entry (fuel + 1) m after.leaveNative
  | later {fuel : Nat} {m m' stop : Machine σ} (head : Advances call entry m m')
    (tail : Interrupts call entry fuel m' stop) : Interrupts call entry (fuel + 1) m stop

theorem Machine.resume_interrupt (m : Machine σ) (name : String) (callee : Nat) :
    m.resume name callee .interrupt = .error (.panic, m) := by
  unfold resume
  rw [if_pos (by decide)]

theorem Interrupts.runSteps_eq {call : Callback σ} {entry fuel : Nat} {m stop : Machine σ}
    (h : Interrupts call entry fuel m stop) : runSteps call entry fuel m = .failed .panic stop := by
  induction h with
  | now asks runs => exact Fails.runSteps_eq (.resume asks runs (Machine.resume_interrupt _ _ _)) _
  | later head _ ih => rw [head.runSteps_eq, ih]

/-- How runs on two machines beside each other end. A failure that is not an interruption sets its
message. -/
inductive EndsBeside (s t : String) (call : Callback σ) (entry fuel : Nat) (m m' : Machine σ) :
    Outcome σ Failure Value → Outcome σ Failure Value → Prop
  | ok {v : Value} {n n' : Machine σ} (h : n.Beside s t n') :
    EndsBeside s t call entry fuel m m' (.ok v n) (.ok v n')
  | failed {f : Failure} {n : Machine σ} :
    EndsBeside s t call entry fuel m m' (.failed f n) (.failed f n)
  | interrupted {n n' : Machine σ} (h : n.Beside s t n') (here : Interrupts call entry fuel m n)
    (there : Interrupts call entry fuel m' n') :
    EndsBeside s t call entry fuel m m' (.failed .panic n) (.failed .panic n')
  | unwound {n n' : Machine σ} (h : n.Beside s t n') :
    EndsBeside s t call entry fuel m m' (.unwound n) (.unwound n')
  | exhausted : EndsBeside s t call entry fuel m m' .exhausted .exhausted

namespace Machine.Beside

variable {s t : String} {call : Callback σ} {entry fuel depth : Nat} {m m' n n' : Machine σ}

theorem runs_of_advances {o o' : Outcome σ Failure Value}
    (h : EndsBeside s t call entry fuel n n' o o') (head : Advances call entry m n)
    (head' : Advances call entry m' n') : EndsBeside s t call entry (fuel + 1) m m' o o' := by
  cases h with
  | ok h => exact .ok h
  | failed => exact .failed
  | interrupted h here there => exact .interrupted h (.later head here) (.later head' there)
  | unwound h => exact .unwound h
  | exhausted => exact .exhausted

/-- **Machines beside each other run in the same way.** -/
theorem runs (h : m.Beside s t m') (entry fuel depth : Nat) :
    EndsBeside s t (Host.run depth) entry fuel m m' (runSteps (Host.run depth) entry fuel m)
      (runSteps (Host.run depth) entry fuel m') := by
  let R : Lockstep σ := .messages s t
  induction fuel generalizing m m' with
  | zero => exact .exhausted
  | succ fuel ih =>
    have hrel : R.rel () m m' := h
    have htakes := Lockstep.takes_step hrel trivial entry
    rw [runSteps, runSteps]
    generalize hstep : m.step entry = o at htakes ⊢
    generalize hstep' : m'.step entry = o' at htakes ⊢
    cases htakes with
    | next hn => exact runs_of_advances (ih hn) (.next hstep) (.next hstep')
    | done hv hn =>
      cases hv
      exact .ok hn
    | failed hn hmessage =>
      rw [hn.eq_of_message hmessage]
      exact .failed
    | @native _ f f' args args' callee p p' hname hcode hargs hp =>
      obtain rfl := hargs.eq
      have hcode : f.code = f'.code := hcode
      have hp : p.Beside s t p' := hp
      have hin := hp.change (f := fun p => p.enterNative) rfl fun _ => rfl
      have hpairs := Unseen.pairs_run (R := .messages s t) depth (f.code args.toList) hin
      dsimp only
      rw [← hcode, ← hname]
      generalize hruns : Host.run depth (f.code args.toList) p.enterNative = o
        at hpairs ⊢
      generalize hruns' : Host.run depth (f.code args.toList) p'.enterNative = o'
        at hpairs ⊢
      cases hpairs with
      | exhausted => exact .exhausted
      | unwound hafter => exact .unwound hafter
      | @failed e => exact e.elim
      | @ok v after after' hafter =>
        rw [hcode] at hruns'
        have hafter : after.Beside s t after' := hafter
        have hout := hafter.change (f := fun p => p.leaveNative) rfl fun _ => rfl
        by_cases hv : v = .interrupt
        · subst hv
          simp only [Machine.resume_interrupt]
          exact .interrupted hout (.now hstep hruns) (.now hstep' hruns')
        · have hnot : v.isInterrupt ≠ true := fun h => hv (beq_iff_eq.1 h)
          have hchecks := Lockstep.checks_resume (R := R) (w := ()) hout trivial f.name callee rfl
            fun h => absurd h hnot
          dsimp only
          generalize hr : after.leaveNative.resume f.name callee v = c at hchecks ⊢
          generalize hr' : after'.leaveNative.resume f.name callee v = c'
            at hchecks ⊢
          cases hchecks with
          | ok hnext =>
            exact runs_of_advances (ih hnext) (.native hstep hruns hr)
              (.native hstep' hruns' (hname ▸ hr'))
          | error hfailed hmessage =>
            rw [hfailed.eq_of_message hmessage]
            exact .failed

end Machine.Beside

/-! ## Evaluations -/

section Evaluations

variable {call : Callback σ} {fuel depth : Nat} {source : String} {s t : String} {m m' : Machine σ}

/-- An evaluation that a native function ends with the interrupt value while the message is the one
that was there at the beginning. -/
inductive Machine.Interrupted (call : Callback σ) (fuel : Nat) (source : String) (m : Machine σ) :
    Prop
  | intro {chunk : Chunk} {start stop : Machine σ} (idle : m.inEval = false)
    (compiles : compileSource call source m.options.chunkName m.beginEval = .ok chunk start)
    (interrupts : Interrupts call start.frames.size fuel (Core.start chunk start) stop)
    (message : stop.message = m.message) : Interrupted call fuel source m

/-- A machine with a message and with the report of a panic under it. -/
def Machine.telling (m : Machine σ) (message : String) (calls : List Frame) : Machine σ :=
  { m with message, report := runtimeReport .panic message calls }

theorem Outcome.Pairs.refl {ε α : Type} {rel : Machine σ → Machine σ → Prop} (h : ∀ n, rel n n)
    (o : Outcome σ ε α) : Pairs rel o o := by
  cases o with
  | ok a n => exact .ok (h n)
  | failed e n => exact .failed (h n)
  | unwound n => exact .unwound (h n)
  | exhausted => exact .exhausted

theorem runtimeReport_injective {f : Failure} {a b : String} {calls : List Frame}
    (h : runtimeReport f a calls = runtimeReport f b calls) : a = b := by
  unfold runtimeReport at h
  have hlist := congrArg String.toList h
  simp only [String.toList_append, List.append_assoc] at hlist
  have hrest := List.append_cancel_left hlist
  exact String.toList_inj.1 (List.append_cancel_right hrest)

theorem Machine.conclude_withMessage (m : Machine σ) (u : String) (result : Except Failure Value) :
    (m.withMessage u).conclude result = (m.conclude result).withMessage u := by
  cases result with
  | error f => rfl
  | ok v =>
    unfold conclude
    dsimp only
    cases v.asObject? <;> rfl

theorem Machine.Beside.start (h : m.Beside s t m') (chunk : Chunk) :
    (Core.start chunk m).Beside s t (Core.start chunk m') :=
  h.change (f := Core.start chunk) rfl fun _ => rfl

theorem Machine.beside_beginEval (m : Machine σ) (t : String) :
    m.beginEval.Beside m.message t (m.withMessage t).beginEval :=
  ⟨rfl, rfl, .inr ⟨rfl, rfl⟩⟩

/-- Compilations do not look at a message. -/
theorem Machine.Beside.pairs_compileSource (h : m.Beside s t m') (depth : Nat)
    (source name : String) :
      Outcome.Pairs (Machine.Beside s t) (compileSource (Host.run depth) source name m)
        (compileSource (Host.run depth) source name m') :=
  Unseen.pairs_compileSource (R := .messages s t) (fun program _ _ h =>
    Unseen.pairs_run depth program h) (Host.grows_run depth) source name h

/-- What is left of an evaluation that is interrupted, but for its message and its report. -/
def Machine.settled (start stop : Machine σ) : Machine σ :=
  { stop with
    frames := stop.frames.shrink start.frames.size
    stack := stop.stack.shrink start.stack.size }.conclude (.error .panic)

variable {ε : Type}

theorem eval_of_interrupts {chunk : Chunk} {start stop : Machine σ} (idle : m.inEval = false)
    (compiles : compileSource call source m.options.chunkName m.beginEval = .ok chunk start)
    (interrupts : Interrupts call start.frames.size fuel (Core.start chunk start) stop) :
    (eval call fuel source m : Outcome σ ε _) = .ok (.error .panic)
      ((start.settled stop).telling stop.message
        (stop.frames.toList.drop start.frames.size).reverse) := by
  have hsource : evalSource call fuel source m.beginEval = .failed .panic { stop with
      report :=
        runtimeReport .panic stop.message (stop.frames.toList.drop start.frames.size).reverse
      frames := stop.frames.shrink start.frames.size
      stack := stop.stack.shrink start.stack.size } := by
    rw [evalSource_apply, show m.beginEval.options = m.options from rfl, compiles]
    dsimp only
    rw [Core.execute_eq, interrupts.runSteps_eq]
  rw [eval_of_not_inEval idle, hsource]
  rfl

/-- Interruptions under messages that were left before are told in the same way, each under its own
message. -/
theorem Machine.Interrupted.told (h : m.Interrupted (Host.run depth) fuel source)
    (h' : (m.withMessage t).Interrupted (Host.run depth) fuel source) :
      ∃ (n : Machine σ) (calls : List Frame),
      (eval (Host.run depth) fuel source m : Outcome σ ε _) =
        .ok (.error .panic) (n.telling m.message calls) ∧
      (eval (Host.run depth) fuel source (m.withMessage t) : Outcome σ ε _) =
        .ok (.error .panic) (n.telling t calls) := by
  obtain @⟨chunk, start, stop, idle, compiles, interrupts, message⟩ := h
  obtain @⟨chunk', start', stop', idle', compiles', interrupts', message'⟩ := h'
  have hpairs := (m.beside_beginEval t).pairs_compileSource depth source m.options.chunkName
  rw [compiles, show m.options = (m.withMessage t).options from rfl, compiles'] at hpairs
  cases hpairs with
  | ok hstart =>
    have hframes : start'.frames = start.frames := by rw [hstart.same]; rfl
    have hstack : start'.stack = start.stack := by rw [hstart.same]; rfl
    have hruns := (hstart.start chunk).runs start.frames.size fuel depth
    rw [interrupts.runSteps_eq, ← hframes, interrupts'.runSteps_eq] at hruns
    have hstop : stop.UpToMessage stop' := by
      cases hruns with
      | failed => rfl
      | interrupted h => exact h.same
    obtain ⟨u, rfl⟩ : ∃ u, stop' = stop.withMessage u := ⟨_, hstop⟩
    refine ⟨start.settled stop, (stop.frames.toList.drop start.frames.size).reverse, ?_, ?_⟩
    · rw [eval_of_interrupts idle compiles interrupts, message]
    · rw [eval_of_interrupts idle' compiles' interrupts', message']
      unfold Machine.settled
      rw [hframes, hstack]
      rfl

section

variable (hnot : ¬(m.Interrupted (Host.run depth) fuel source ∧
  (m.withMessage t).Interrupted (Host.run depth) fuel source))

include hnot

/-- Evaluations on machines that differ in the message end in the same way, unless both are
interrupted under theirs. -/
theorem pairs_evalSource (idle : m.inEval = false) :
    Outcome.Pairs Machine.UpToMessage (evalSource (Host.run depth) fuel source m.beginEval)
      (evalSource (Host.run depth) fuel source (m.withMessage t).beginEval) := by
  have hpairs := (m.beside_beginEval t).pairs_compileSource depth source m.options.chunkName
  rw [evalSource_apply, evalSource_apply, show m.beginEval.options = m.options from rfl,
    show (m.withMessage t).beginEval.options = m.options from rfl]
  generalize hcompiles : compileSource (Host.run depth) source m.options.chunkName m.beginEval =
    o at hpairs ⊢
  generalize hcompiles' : compileSource (Host.run depth) source m.options.chunkName
    (m.withMessage t).beginEval = o'
    at hpairs ⊢
  cases hpairs with
  | @failed e _ _ h =>
    exact .failed (h.same.change
      (f := fun n => { n with report := staticReport m.options.chunkName source e }) fun _ => rfl)
  | unwound h => exact .unwound h.same
  | exhausted => exact .exhausted
  | @ok chunk start start' hstart =>
    have hframes : start'.frames = start.frames := by rw [hstart.same]; rfl
    have hstack : start'.stack = start.stack := by rw [hstart.same]; rfl
    have hruns := (hstart.start chunk).runs start.frames.size fuel depth
    dsimp only
    rw [Core.execute_eq, Core.execute_eq, hframes, hstack]
    generalize runSteps (Host.run depth) start.frames.size fuel (Core.start chunk start) =
      o at hruns ⊢
    generalize runSteps (Host.run depth) start.frames.size fuel (Core.start chunk start') =
      o' at hruns ⊢
    cases hruns with
    | ok h =>
      exact .ok (h.same.change (f := fun n => { n with
        frames := n.frames.shrink start.frames.size
        stack := n.stack.shrink start.stack.size }) fun _ => rfl)
    | failed => exact .failed rfl
    | unwound h => exact .unwound h.same
    | exhausted => exact .exhausted
    | @interrupted n n' h here there =>
      obtain hmessage | ⟨hn, hn'⟩ := h.message
      · rw [h.eq_of_message hmessage.symm]
        exact .failed rfl
      · exact absurd ⟨⟨idle, hcompiles, here, hn⟩, ⟨idle, hcompiles', hframes ▸ there, hn'⟩⟩ hnot

theorem pairs_eval :
    Outcome.Pairs Machine.UpToMessage (eval (Host.run depth) fuel source m : Outcome σ ε _)
      (eval (Host.run depth) fuel source (m.withMessage t)) := by
  cases hin : m.inEval with
  | true =>
    rw [eval_of_inEval hin, eval_of_inEval (show (m.withMessage t).inEval = true from hin)]
    exact .ok rfl
  | false =>
    have hpairs := pairs_evalSource hnot hin
    rw [eval_of_not_inEval hin, eval_of_not_inEval (show (m.withMessage t).inEval = false from hin)]
    generalize evalSource (Host.run depth) fuel source m.beginEval = o at hpairs ⊢
    generalize evalSource (Host.run depth) fuel source (m.withMessage t).beginEval = o' at hpairs ⊢
    have hconclude {n n' : Machine σ} (h : n.UpToMessage n') (result : Except Failure Value) :
        (n.conclude result).UpToMessage (n'.conclude result) :=
      h.change (f := (·.conclude result)) fun u => n.conclude_withMessage u result
    cases hpairs with
    | ok h | failed h => exact .ok (hconclude h _)
    | unwound h => exact .unwound h
    | exhausted => exact .exhausted

end

/-- **An evaluation on a machine with another message** gives the same result and leaves the same
machine, report included, but for the message; unless it is interrupted by a native function before
any message was set, from whichever of the two messages it began. Then the result is a panic on both
machines, which are the same but for the message and the report, and each report shows the message
that was left behind. -/
theorem eval_withMessage {ε : Type} (depth fuel : Nat) (source : String) (m : Machine σ)
    (t : String) :
        (Outcome.Pairs Machine.UpToMessage (eval (Host.run depth) fuel source m : Outcome σ ε _)
          (eval (Host.run depth) fuel source (m.withMessage t)) ↔
      t = m.message ∨ ¬(m.Interrupted (Host.run depth) fuel source ∧
        (m.withMessage t).Interrupted (Host.run depth) fuel source)) ∧
    (m.Interrupted (Host.run depth) fuel source →
      (m.withMessage t).Interrupted (Host.run depth) fuel source →
      ∃ (n : Machine σ) (calls : List Frame),
        (eval (Host.run depth) fuel source m : Outcome σ ε _) =
          .ok (.error .panic) (n.telling m.message calls) ∧
        (eval (Host.run depth) fuel source (m.withMessage t) : Outcome σ ε _) =
          .ok (.error .panic) (n.telling t calls)) := by
  refine ⟨⟨fun hpairs => ?_, ?_⟩, fun h h' => h.told h'⟩
  · refine Classical.or_iff_not_imp_right.2 fun hboth => ?_
    obtain ⟨h, h'⟩ := Classical.not_not.1 hboth
    obtain ⟨n, calls, heval, heval'⟩ := h.told (ε := ε) h'
    rw [heval, heval'] at hpairs
    cases hpairs with
    | ok hsame => exact runtimeReport_injective (congrArg Machine.report hsame)
  · rintro (rfl | hnot)
    · exact .refl (fun n => show n.UpToMessage n from rfl) _
    · exact pairs_eval hnot

/-- A machine with a built-in function that returns the interrupt value and leaves no message. -/
def haltingMachine : Machine Unit :=
  (Machine.new {} ()).openBuiltins
    { name := "host"
      entries := [{ name := "halt", arity := 0, body := fun _ => .finish .interrupt }] }

/-- A call of a native function in the second instruction that interrupts the evaluation. -/
theorem Machine.interrupted_of_second {m : Machine Unit} (source : String) (idle : m.inEval = false)
    (h : (compileSource (Host.run 2) source m.options.chunkName m.beginEval).value?.any (fun c =>
      ((Core.start c.1 c.2).step c.2.frames.size).next?.any fun p =>
        (p.step c.2.frames.size).native?.any fun q =>
          (Host.run 2 (q.1.code q.2.1) q.2.2.2.enterNative).value?.any fun r =>
            r.1.isInterrupt && r.2.message == m.message) = true) :
    m.Interrupted (Host.run 2) 8 source := by
  obtain ⟨⟨chunk, start⟩, hcompile, h⟩ := (Option.any_eq_true _ _).1 h
  obtain ⟨p, hnext, h⟩ := (Option.any_eq_true _ _).1 h
  obtain ⟨q, hasks, h⟩ := (Option.any_eq_true _ _).1 h
  obtain ⟨⟨v, after⟩, hruns, h⟩ := (Option.any_eq_true _ _).1 h
  obtain ⟨hv, hmessage⟩ := Bool.and_eq_true_iff.1 h
  have hruns := Outcome.eq_ok_of_value? hruns
  rw [show v = .interrupt from beq_iff_eq.1 hv] at hruns
  exact ⟨idle, Outcome.eq_ok_of_value? hcompile, .later (.next (Step.eq_next_of_next? hnext))
    (.now (Step.eq_native_of_native? hasks) hruns), beq_iff_eq.1 hmessage⟩

/-- A message that was left behind shows up in the report of a later evaluation. -/
theorem eval_withMessage_halt :
    haltingMachine.Interrupted (Host.run 2) 8 "halt()" ∧
    (haltingMachine.withMessage "left behind").Interrupted (Host.run 2) 8 "halt()" ∧
    ¬Outcome.Pairs Machine.UpToMessage
      (eval (Host.run 2) 8 "halt()" haltingMachine : Outcome Unit Empty _)
      (eval (Host.run 2) 8 "halt()" (haltingMachine.withMessage "left behind")) := by
  have hhere := haltingMachine.interrupted_of_second "halt()" rfl (by decide +kernel)
  have hthere := (haltingMachine.withMessage "left behind").interrupted_of_second "halt()" rfl
    (by decide +kernel)
  refine ⟨hhere, hthere, fun hpairs => ?_⟩
  obtain heq | hnot := (eval_withMessage 2 8 "halt()" haltingMachine "left behind").1.1 hpairs
  · exact absurd heq (by decide)
  · exact hnot ⟨hhere, hthere⟩

end Evaluations

end ScriptMachine
