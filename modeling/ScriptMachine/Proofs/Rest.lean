import ScriptMachine.Proofs.Retention
/-!
# Evaluations leave a machine at rest

While an evaluation runs, the stack and the calls keep within the limits that the machine was made
with. When it has come to its end, nothing of it is left, unless an unwinding was not stopped by
anybody.

* `Path.limited`: **stack and calls keep within the limits at every point**;
* `Path.atRest`: **a machine that does not evaluate is at rest**;
* `Path.inEval_iff`: a machine evaluates as long as an evaluation is in progress, and no longer;
* `Course.orderly`: all of this for evaluations as the host sees them.
-/

namespace ScriptMachine

variable {σ : Type}

/-! ## Evaluations in progress -/

/-- An evaluation is in progress. -/
def Evaluating (ts : List (Task σ)) : Prop := ∃ guarded, .evaluation guarded ∈ ts

variable {ts : List (Task σ)}

theorem evaluating_cons {t : Task σ} (ht : ∀ guarded, t ≠ .evaluation guarded := by simp) :
    Evaluating (t :: ts) ↔ Evaluating ts := by
  refine exists_congr fun guarded => ?_
  rw [List.mem_cons, or_iff_right (Ne.symm (ht guarded))]

theorem evaluating_of_cons (guarded : Bool) (ts : List (Task σ)) :
    Evaluating (.evaluation guarded :: ts) :=
  ⟨guarded, List.mem_cons_self⟩

theorem Evaluating.cons (h : Evaluating ts) (t : Task σ) : Evaluating (t :: ts) :=
  h.imp fun _ hmem => List.mem_cons_of_mem _ hmem

theorem Quiet.not_evaluating (h : Quiet ts) : ¬ Evaluating ts := by
  rintro ⟨guarded, hmem⟩
  rcases h _ hmem with h | ⟨_, _, _, h⟩ <;> cases h

/-- How an evaluation has ended. -/
inductive Verdict
  | passed
  | failed
  /-- It was given up, and nobody has put that right. -/
  | lost
  deriving DecidableEq

/-- The verdict on the result of an evaluation. -/
def Verdict.on : Except Failure Value → Verdict
  | .ok _ => .passed
  | .error _ => .failed

/-- How an evaluation ends, if an event ends one. -/
def Event.verdict? : Event σ → Option Verdict
  | .evaluated result => some (.on result)
  | .recovered => some .failed
  | .refused => some .failed
  | .abandoned (.evaluation false) => some .lost
  | _ => none

/-- What a move does to evaluations: to those in progress, to the failures that are to be handed
over, and to what the machine tells about them. -/
inductive Effect (p : Point σ) (e : Event σ) (q : Point σ) : Prop
  | nothing (event : e.verdict? = none) (evaluating : Evaluating q.tasks ↔ Evaluating p.tasks)
    (results : ∀ f, .result (.error f) ∈ q.tasks → .result (.error f) ∈ p.tasks)
    (inEval : q.machine.inEval = p.machine.inEval) (report : q.machine.report = p.machine.report)
  /-- One is turned down. -/
  | refused (event : e = .refused) (tasks : q.tasks = p.tasks)
    (inEval : q.machine.inEval = p.machine.inEval) (report : q.machine.report ≠ "")
  | opened {guarded : Bool} (event : e = .opened (.evaluation guarded))
    (rests : p.machine.inEval = false)
    (tasks : q.tasks = .compilation :: .evaluation guarded :: p.tasks)
    (inEval : q.machine.inEval = true)
  /-- The compiler turns its program down. -/
  | rejected {ts : List (Task σ)} {guarded : Bool} {f : Failure} (event : e = .worked)
    (compiling : p.Compiling) (before : p.tasks = .compilation :: .evaluation guarded :: ts)
    (tasks : q.tasks = .result (.error f) :: .evaluation guarded :: ts)
    (inEval : q.machine.inEval = p.machine.inEval)
  /-- Its program fails. -/
  | failed (event : e = .worked ∨ ∃ f callee, e = .closed (.native f callee))
    (running : Running p.tasks) (evaluating : Evaluating q.tasks ↔ Evaluating p.tasks)
    (inEval : q.machine.inEval = p.machine.inEval)
    (report : q.machine.report ≠ "")
  | evaluated {guarded : Bool} {result : Except Failure Value} (event : e = .evaluated result)
    (tasks : p.tasks = .result result :: .evaluation guarded :: q.tasks)
    (inEval : q.machine.inEval = false)
    (report : q.machine.report = result.casesOn (fun _ => p.machine.report) fun _ => "")
  | recovered (event : e = .recovered) (tasks : p.tasks = .evaluation true :: q.tasks)
    (inEval : q.machine.inEval = false) (report : q.machine.report ≠ "")
  /-- It is given up, and nobody puts that right. -/
  | abandoned (event : e = .abandoned (.evaluation false))
    (tasks : p.tasks = .evaluation false :: q.tasks) (machine : q.machine = p.machine)

namespace Effect

variable {t : Task σ} {ts : List (Task σ)} {u u' : Bool} {m n : Machine σ} {e : Event σ}

variable (event : e.verdict? = none)

include event

theorem stays (inEval : n.inEval = m.inEval) (report : n.report = m.report) :
    Effect ⟨ts, u, m⟩ e ⟨ts, u', n⟩ :=
  .nothing event Iff.rfl (fun _ h => h) inEval report

variable (inEval : n.inEval = m.inEval) (report : n.report = m.report)

include inEval report

theorem push (ht : ∀ guarded, t ≠ .evaluation guarded := by simp)
    (hf : ∀ f, t ≠ .result (.error f) := by simp) : Effect ⟨ts, u, m⟩ e ⟨t :: ts, u', n⟩ := by
  refine .nothing event (evaluating_cons ht) (fun f hmem => ?_) inEval report
  exact (List.mem_cons.1 hmem).resolve_left (Ne.symm (hf f))

theorem pop (ht : ∀ guarded, t ≠ .evaluation guarded := by simp) :
    Effect ⟨t :: ts, u, m⟩ e ⟨ts, u', n⟩ :=
  .nothing event (evaluating_cons ht).symm (fun _ hmem => List.mem_cons_of_mem _ hmem) inEval report

/-- One task takes the place of another one. -/
theorem turn {t' : Task σ} (ht : ∀ guarded, t ≠ .evaluation guarded := by simp)
    (ht' : ∀ guarded, t' ≠ .evaluation guarded := by simp)
    (hf : ∀ f, t' ≠ .result (.error f) := by simp) :
    Effect ⟨t :: ts, u, m⟩ e ⟨t' :: ts, u', n⟩ := by
  refine .nothing event ((evaluating_cons ht').trans (evaluating_cons ht).symm)
    (fun f hmem => ?_) inEval report
  exact List.mem_cons_of_mem _ ((List.mem_cons.1 hmem).resolve_left (Ne.symm (hf f)))

end Effect

theorem runtimeReport_ne_empty (f : Failure) (message : String) (calls : List Frame) :
    runtimeReport f message calls ≠ "" := by
  simp [runtimeReport]

theorem Machine.conclude_report (m : Machine σ) (result : Except Failure Value) :
    (m.conclude result).report = result.casesOn (fun _ => m.report) fun _ => "" :=
  congrArg (·.report) (m.standing_conclude result)

/-- What the host asks, instructions and returns from native functions leave alone. -/
theorem Moves.effect {p q : Point σ} {e : Event σ} (h : Moves p e q) : Effect p e q := by
  cases h with
  | reply _ plain performed =>
    have hsame := plain.standing performed
    exact .stays rfl (congrArg (·.inEval) hsame) (congrArg (·.report) hsame)
  | @install _ m _ handle name arity body =>
    refine .stays rfl ?_ ?_ <;> unfold Machine.setFunction <;> split <;> rfl
  | refuse | decode => exact .refused rfl rfl rfl (by simp)
  | evaluate _ guarded rests => exact .opened rfl rests rfl rfl
  | compile | load => exact .push rfl rfl rfl
  | sealed | compiled | rejected => exact .pop rfl rfl rfl
  | resume resumes =>
    have hsame := Machine.surroundings_of_resume resumes
    exact .pop rfl (congrArg (·.inEval) hsame) (congrArg (·.report) hsame)
  | @spoil _ m n f callee v calls height e fails =>
    have hsame := Machine.surroundings_of_resume fails
    refine .failed (.inr ⟨f, callee, rfl⟩) ⟨calls, height,
      List.mem_cons_of_mem _ List.mem_cons_self⟩ ?_ (congrArg (·.inEval) hsame)
        (runtimeReport_ne_empty _ _ _)
    rw [evaluating_cons, evaluating_cons, evaluating_cons]
  | reject e report => exact .rejected rfl ⟨_, _, rfl⟩ rfl rfl rfl
  | start commits chunk =>
    subst commits
    refine .turn ?_ ?_ ?_ <;> rfl
  | step steps =>
    have hsame := Machine.surroundings_of_step steps
    exact .stays rfl (congrArg (·.inEval) hsame) (congrArg (·.report) hsame)
  | call steps =>
    have hsame := Machine.surroundings_of_step steps
    exact .push rfl (congrArg (·.inEval) hsame) (congrArg (·.report) hsame)
  | finish steps =>
    have hsame := Machine.surroundings_of_step steps
    exact .turn rfl (congrArg (·.inEval) hsame) (congrArg (·.report) hsame)
  | @fail _ _ _ calls height _ steps =>
    have hsame := Machine.surroundings_of_step steps
    refine .failed (.inl rfl) ⟨calls, height, List.mem_cons_self⟩ ?_ (congrArg (·.inEval) hsame)
      (runtimeReport_ne_empty _ _ _)
    rw [evaluating_cons, evaluating_cons]
  | @conclude _ m result guarded =>
    exact .evaluated rfl rfl (m.alike_conclude result).1 (m.conclude_report result)
  | abandon task goes =>
    by_cases htask : ∃ guarded, task = .evaluation guarded
    · obtain ⟨guarded, rfl⟩ := htask
      cases guarded with
      | true => exact absurd rfl goes
      | false => exact .abandoned rfl rfl rfl
    · refine .pop ?_ rfl rfl fun guarded h => htask ⟨guarded, h⟩
      cases task with
      | evaluation guarded => exact absurd ⟨guarded, rfl⟩ htask
      | _ => rfl
  | recover => exact .recovered rfl rfl rfl (by simp [Machine.recover])
  | write | register | unwind | makeString | makeFunction | escape => exact .stays rfl rfl rfl

/-! ## Limits -/

namespace Machine

/-- The stack and the calls keep within the limits. -/
structure Within (limits : Options) (m : Machine σ) : Prop where
  options : m.options = limits
  stack : m.stack.size ≤ limits.maxStackSize
  frames : m.frames.size ≤ max 1 limits.maxCallDepth

variable {options : Options} {m n : Machine σ}

theorem Within.congr (h : m.Within options) (hoptions : n.options = m.options)
    (hstack : n.stack = m.stack) (hframes : n.frames = m.frames) : n.Within options :=
  ⟨hoptions.trans h.options, hstack ▸ h.stack, hframes ▸ h.frames⟩

theorem Within.settle (h : m.Within options) (calls height : Nat) :
    (m.settle calls height).Within options where
  options := h.options
  stack := Nat.le_trans (size_shrink_le _ _) h.stack
  frames := by
    refine Nat.le_trans ?_ h.frames
    rw [Machine.settle, Array.size_shrink]
    exact Nat.min_le_right _ _

/-- Instructions keep within the limits. -/
theorem upkeep_within (options : Options) : Upkeep (Within (σ := σ) options) where
  message _ h := h.congr rfl rfl rfl
  stack hle h := ⟨h.options, Nat.le_trans hle h.stack, h.frames⟩
  push v hlt h := by
    refine ⟨h.options, ?_, h.frames⟩
    rw [h.options] at hlt
    exact Nat.le_trans (Nat.le_of_eq (Array.size_push v)) hlt
  jump target h := ⟨h.options, h.stack, by rw [jump, Array.size_modify]; exact h.frames⟩
  enter base _ hlt h := by
    refine ⟨h.options, h.stack, ?_⟩
    rw [h.options] at hlt
    exact Nat.le_trans (Nat.le_of_eq (Array.size_push _)) (Nat.le_trans hlt (Nat.le_max_right _ _))
  leave h := by
    refine ⟨h.options, h.stack, Nat.le_trans ?_ h.frames⟩
    rw [Array.size_pop]
    exact Nat.sub_le _ _
  setGlobal _ _ _ _ h := h.congr rfl rfl rfl
  setItem _ _ _ h := h.congr rfl rfl rfl
  string _ h := h.congr rfl rfl rfl
  list _ h := h.congr rfl rfl rfl
  safePoint h := safePoint_of_collect h (h.congr rfl rfl rfl)

end Machine

/-! ## Native functions in progress -/

/-- The number of native functions in progress. -/
def natives : List (Task σ) → Nat
  | [] => 0
  | .native _ _ :: ts => natives ts + 1
  | _ :: ts => natives ts

theorem Quiet.natives (h : Quiet ts) : natives ts = 0 := by
  induction ts with
  | nil => rfl
  | cons t ts ih =>
    rcases h t List.mem_cons_self with rfl | ⟨name, index, body, rfl⟩ <;> exact ih h.tail

/-- The machine keeps within the limits, and counts the native functions in progress. -/
structure Point.Limited (options : Options) (p : Point σ) : Prop where
  within : p.machine.Within options
  idle : p.machine.inEval = false → p.machine.nativeDepth = 0
  counts : p.unwinding = false → Evaluating p.tasks → p.machine.nativeDepth = natives p.tasks

/-- The parts of a machine that tell about calls in progress. -/
structure Machine.SameCalls (m n : Machine σ) : Prop where
  options : n.options = m.options
  stack : n.stack = m.stack
  frames : n.frames = m.frames
  inEval : n.inEval = m.inEval
  nativeDepth : n.nativeDepth = m.nativeDepth

theorem Machine.SameCalls.of_standing {m n : Machine σ} (h : n.standing = m.standing) :
    m.SameCalls n :=
  ⟨congrArg (·.options) h, congrArg (·.stack) h, congrArg (·.frames) h, congrArg (·.inEval) h,
    congrArg (·.nativeDepth) h⟩

namespace Point.Limited

variable {options : Options} {ts ts' : List (Task σ)} {u : Bool} {m n : Machine σ}

theorem of_within (h : Limited options ⟨ts, false, m⟩) (hn : n.Within options)
    (hin : n.inEval = m.inEval) (hdepth : n.nativeDepth = m.nativeDepth)
    (hts : Evaluating ts' → Evaluating ts)
    (hnatives : natives ts' = natives ts) : Limited options ⟨ts', u, n⟩ where
  within := hn
  idle hfalse := hdepth.trans (h.idle (hin.symm.trans hfalse))
  counts _ hev := (hdepth.trans (h.counts rfl (hts hev))).trans hnatives.symm

theorem congr (h : Limited options ⟨ts, false, m⟩) (hm : m.SameCalls n)
    (hts : Evaluating ts' → Evaluating ts) (hnatives : natives ts' = natives ts) :
    Limited options ⟨ts', u, n⟩ :=
  h.of_within (h.within.congr hm.options hm.stack hm.frames) hm.inEval hm.nativeDepth hts hnatives

/-- A native function comes to its end. -/
theorem back {f : NativeFunction (Native σ)} {callee : Nat}
    (h : Limited options ⟨.native f callee :: ts, false, m⟩) :
    Limited options ⟨ts, false, m.leaveNative⟩ where
  within := h.within.congr rfl rfl rfl
  idle hfalse := congrArg (· - 1) (h.idle hfalse)
  counts _ hev := congrArg (· - 1) (h.counts rfl (hev.cons _))

end Point.Limited

/-- Every move keeps within the limits. -/
theorem Moves.limited {options : Options} {p q : Point σ} {e : Event σ} (h : Moves p e q)
    (hfair : p.Fair) (hp : p.Limited options) : q.Limited options := by
  cases h with
  | reply _ plain performed => exact hp.congr (.of_standing (plain.standing performed)) id rfl
  | @install _ m _ handle name arity body =>
    refine hp.congr ?_ id rfl
    unfold Machine.setFunction
    split <;> exact ⟨rfl, rfl, rfl, rfl, rfl⟩
  | @evaluate ts m _ guarded rests =>
    refine ⟨hp.within.congr rfl rfl rfl, nofun, fun _ _ => ?_⟩
    exact (hp.idle rests).trans (hfair.idle rests).1.natives.symm
  | compile | load => exact hp.congr ⟨rfl, rfl, rfl, rfl, rfl⟩ (evaluating_cons).1 rfl
  | unwind | abandon => exact ⟨hp.within, hp.idle, nofun⟩
  | sealed | compiled | rejected =>
    exact hp.congr ⟨rfl, rfl, rfl, rfl, rfl⟩ (evaluating_cons).2 rfl
  | resume resumes =>
    have hsame := Machine.surroundings_of_resume resumes
    exact hp.back.of_within ((Machine.upkeep_within options).of_resume resumes hp.back.within)
      (congrArg (·.inEval) hsame) (congrArg (·.nativeDepth) hsame) id rfl
  | @spoil _ _ _ _ _ _ calls height e fails =>
    have hsame := Machine.surroundings_of_resume fails
    have hwithin := (Machine.upkeep_within options).of_resume fails hp.back.within
    exact hp.back.of_within ((hwithin.settle calls height).congr rfl rfl rfl)
      (congrArg (·.inEval) hsame) (congrArg (·.nativeDepth) hsame)
        (fun hev => ((evaluating_cons).1 hev).cons _) rfl
  | reject =>
    exact hp.congr ⟨rfl, rfl, rfl, rfl, rfl⟩ (fun _ => (evaluating_of_cons _ _).cons _) rfl
  | @start ts m n guarded b commits chunk =>
    have hbare : m.Bare := hfair.bare
    subst commits
    refine ⟨⟨hp.within.options, hp.within.stack, ?_⟩, hp.idle, fun _ hev => ?_⟩
    · -- The stack was empty, so this is the only call.
      have hframes : (Compile.commit b m).frames = #[] := hbare.2
      show ((Compile.commit b m).frames.push _).size ≤ _
      rw [hframes]
      exact Nat.le_max_left _ _
    · exact hp.counts rfl ((evaluating_of_cons _ _).cons _)
  | step steps =>
    have hsame := Machine.surroundings_of_step steps
    exact hp.of_within ((Machine.upkeep_within options).of_step steps hp.within)
      (congrArg (·.inEval) hsame) (congrArg (·.nativeDepth) hsame) id rfl
  | @call _ m n calls height f args callee steps =>
    have hsame := Machine.surroundings_of_step steps
    have hwithin := (Machine.upkeep_within options).of_step steps hp.within
    have hdepth : n.nativeDepth = m.nativeDepth := congrArg (·.nativeDepth) hsame
    have hin : n.inEval = m.inEval := congrArg (·.inEval) hsame
    have hevaluates : m.inEval = true := hfair.inEval List.mem_cons_self
    refine ⟨hwithin.congr rfl rfl rfl, fun hfalse => ?_, fun _ hev => ?_⟩
    · cases (hin.trans hevaluates).symm.trans hfalse
    · exact congrArg (· + 1) (hdepth.trans (hp.counts rfl ((evaluating_cons).1 hev)))
  | @finish _ _ _ calls height _ steps | @fail _ _ _ calls height _ steps =>
    have hsame := Machine.surroundings_of_step steps
    have hwithin := (Machine.upkeep_within options).of_step steps hp.within
    exact hp.of_within ((hwithin.settle calls height).congr rfl rfl rfl) (congrArg (·.inEval) hsame)
      (congrArg (·.nativeDepth) hsame) (fun hev => ((evaluating_cons).1 hev).cons _) rfl
  | @conclude ts m result guarded =>
    -- Only compilations and loaders are in progress around an evaluation.
    have hquiet : Quiet ts := hfair.ordered.tail
    have hdepth : m.nativeDepth = 0 :=
      (hp.counts rfl ((evaluating_of_cons _ _).cons _)).trans hquiet.natives
    have hsame := Machine.SameCalls.of_standing (m.standing_conclude result)
    exact ⟨hp.within.congr hsame.options hsame.stack hsame.frames,
      fun _ => hsame.nativeDepth.trans hdepth, fun _ hev => absurd hev hquiet.not_evaluating⟩
  | recover => exact ⟨⟨hp.within.options, Nat.zero_le _, Nat.zero_le _⟩, fun _ => rfl, fun _ hev =>
      absurd hev (Quiet.not_evaluating hfair.ordered)⟩
  | escape => exact ⟨hp.within, hp.idle, fun _ hev => absurd hev (Quiet.not_evaluating nofun)⟩
  | write | register | refuse | decode | makeString | makeFunction =>
    exact hp.congr ⟨rfl, rfl, rfl, rfl, rfl⟩ id rfl

/-! ## At rest -/

/-- The machine is at rest: it does not evaluate, and nothing is left of evaluations. -/
structure Machine.AtRest (m : Machine σ) : Prop where
  stack : m.stack = #[]
  frames : m.frames = #[]
  inEval : m.inEval = false
  nativeDepth : m.nativeDepth = 0

section

variable {call : Callback σ} {fuel : Nat} {m n : Machine σ}

/-- An evaluation that comes back has ended. -/
theorem inEval_of_eval {ε : Type} {source : String} {result : Except Failure Value}
    (hin : m.inEval = false) (h : (eval call fuel source m : Outcome σ ε _) = .ok result n) :
    n.inEval = false := by
  rw [eval_of_not_inEval hin] at h
  split at h <;> cases h <;> exact (Machine.alike_conclude _ _).1

/-- A guarded evaluation comes back and has ended, as long as there is fuel. -/
theorem inEval_of_guardedEval (source : SizedText) (hin : m.inEval = false) :
    (guardedEval call fuel source m : Outcome σ Empty _) = .exhausted ∨
      ∃ result n, (guardedEval call fuel source m : Outcome σ Empty _) = .ok result n ∧
      n.inEval = false := by
  unfold guardedEval
  split
  · exact .inr ⟨_, _, rfl, hin⟩
  · split
    · rename_i heval
      exact .inr ⟨_, _, rfl, inEval_of_eval hin heval⟩
    · rename_i e _ _
      exact e.elim
    · exact .inr ⟨_, _, rfl, rfl⟩
    · exact .inl rfl

end

namespace Path

variable {options : Options} {host : σ} {hist : History σ} {q : Point σ}

variable (h : Path (.new options host) hist q)

include h

/-- **The stack and the calls keep within the limits at every point.** -/
theorem limited : q.Limited options := by
  induction h with
  | start =>
    exact ⟨⟨rfl, Nat.zero_le _, Nat.zero_le _⟩, fun _ => rfl,
      fun _ hev => absurd hev (Quiet.not_evaluating nofun)⟩
  | move before moves ih => exact moves.limited before.fair ih

/-- **A machine that does not evaluate is at rest.** -/
theorem atRest (hin : q.machine.inEval = false) : q.machine.AtRest :=
  ⟨(h.bare hin).1, (h.bare hin).2, hin, h.limited.idle hin⟩

/-- A machine evaluates as long as an evaluation is in progress, and no longer, unless one was given
up and nobody has put that right. -/
theorem inEval_iff :
    q.machine.inEval = true ↔ Evaluating q.tasks ∨ ∃ p,
      (p, .abandoned (.evaluation false)) ∈ hist := by
  constructor
  · intro hin
    induction h with
    | start => cases hin
    | @move hist p q e before moves ih =>
      have hlost (hlost : ∃ p, (p, .abandoned (.evaluation false)) ∈ hist) :
          ∃ p', (p', .abandoned (.evaluation false)) ∈ (p, e) :: hist :=
        hlost.imp fun _ hmem => List.mem_cons_of_mem _ hmem
      cases moves.effect with
      | nothing _ evaluating _ inEval _ | failed _ _ evaluating inEval _ =>
        exact (ih (inEval.symm.trans hin)).imp evaluating.2 hlost
      | refused _ tasks inEval _ => exact (ih (inEval.symm.trans hin)).imp (tasks ▸ ·) hlost
      | opened _ _ tasks _ | rejected _ _ _ tasks _ =>
        exact .inl (tasks ▸ (evaluating_of_cons _ _).cons _)
      | evaluated _ _ inEval _ | recovered _ _ inEval _ => cases hin.symm.trans inEval
      | abandoned event _ _ => exact .inr ⟨p, event ▸ List.mem_cons_self⟩
  · rintro (hev | ⟨p, hp⟩)
    · cases hin : q.machine.inEval with
      | true => rfl
      | false => exact absurd hev (h.fair.idle hin).1.not_evaluating
    · exact (h.hushed_of_abandoned hp).machine.inEval

end Path

/-- Evaluations keep in order, with what has happened up to a point. -/
structure Orderly (options : Options) (hist : History σ) (q : Point σ) : Prop where
  /-- At every point, in particular before every instruction, the stack and the calls keep within
  the limits. -/
  limits : ∀ p ∈ hist.points q,
    p.machine.stack.size ≤ options.maxStackSize ∧ p.machine.frames.size ≤ max 1 options.maxCallDepth
  /-- When an evaluation has ended, with a value or a failure, or was recovered from, the machine is
  at rest. -/
  returns : ∀ {p : Point σ} {e : Event σ}, hist.head? = some (p, e) →
    (e = .recovered ∨ ∃ result, e = .evaluated result) → q.machine.AtRest
  /-- If no evaluation was given up but guarded ones, the machine is at rest whenever none is in
  progress. -/
  rests : (∀ p, (p, .abandoned (.evaluation false)) ∉ hist) → ¬ Evaluating q.tasks →
    q.machine.AtRest
  /-- The same for an evaluation that the host makes next, outside of any other, if it comes
  back. -/
  eval : q.unwinding = false → HostTurn q.tasks → q.machine.inEval = false →
    ∀ {depth fuel : Nat} {source : String} {result : Except Failure Value} {n : Machine σ},
      (eval (Host.run depth) fuel source q.machine : Outcome σ Empty _) = .ok result n → n.AtRest
  /-- A guarded evaluation comes back, as long as there is fuel. -/
  guardedEval : q.unwinding = false → HostTurn q.tasks → q.machine.inEval = false →
    ∀ (depth fuel : Nat) (source : SizedText),
      (guardedEval (Host.run depth) fuel source q.machine : Outcome σ Empty _) = .exhausted ∨
      ∃ result n, (guardedEval (Host.run depth) fuel source q.machine : Outcome σ Empty _) =
        .ok result n ∧ n.AtRest
  /-- Every instruction of an evaluation that the host makes next finds stack and calls within the
  limits, and leaves them so. -/
  instructions : q.unwinding = false → HostTurn q.tasks → q.machine.inEval = false →
    ∀ {depth k : Nat} {source name : String} {chunk : Chunk} {n p : Machine σ},
      compileSource (Host.run depth) source name q.machine.beginEval = .ok chunk n →
      Steps (Host.run depth) n.frames.size k (Core.start chunk n) p →
        p.stack.size ≤ options.maxStackSize ∧ p.frames.size ≤ max 1 options.maxCallDepth ∧
        (p.step n.frames.size).machine.stack.size ≤ options.maxStackSize ∧
        (p.step n.frames.size).machine.frames.size ≤ max 1 options.maxCallDepth

/-- A course goes on to every instruction of a program that is evaluated. -/
theorem Course.steps {p : Point σ} {hist : History σ} {m n q : Machine σ} {depth k : Nat}
    {source name : String} {chunk : Chunk} (h : Course p hist ⟨ts, false, m⟩) (hturn : HostTurn ts)
    (hin : m.inEval = false)
    (hcompile : compileSource (Host.run depth) source name m.beginEval = .ok chunk n)
    (hsteps : Steps (Host.run depth) n.frames.size k (Core.start chunk n) q) :
    ∃ hist', Course p hist' ⟨.program n.frames.size n.stack.size :: .evaluation false :: ts,
      false, q⟩ := by
  have hcall := (Conduct.course σ).run depth
  have hopen := Conduct.host (C := .course σ) hturn (.evaluate hturn false hin)
  have hprepare := Conduct.prepare (C := .course σ) hcall false ts source name m.beginEval
  rw [hcompile] at hprepare
  obtain ⟨hist', hcourse, -⟩ :=
    (hopen.trans hprepare).trans
      (Conduct.steps hcall (.evaluation false :: ts) n.stack.size hsteps) h
  exact ⟨hist', hcourse⟩

/-- **Every evaluation returns the machine to rest, and keeps within its limits.** -/
theorem Course.orderly {options : Options} {host : σ} {hist : History σ} {q : Point σ}
    (h : Course (.new options host) hist q) : Orderly options hist q where
  limits p hp := by
    obtain ⟨hist', hcourse⟩ := h.of_mem hp
    exact ⟨hcourse.path.limited.within.stack, hcourse.path.limited.within.frames⟩
  returns {p e} hhead hends := by
    refine h.path.atRest ?_
    cases h.path with
    | start => cases hhead
    | move before moves =>
      cases hhead
      cases moves.effect with
      | evaluated _ _ inEval _ => exact inEval
      | recovered _ _ inEval _ => exact inEval
      | nothing event => rcases hends with rfl | ⟨_, rfl⟩ <;> cases event
      | failed event =>
        rcases event with rfl | ⟨_, _, rfl⟩ <;> rcases hends with h | ⟨_, h⟩ <;> cases h
      | refused event | opened event | rejected event | abandoned event =>
        subst event
        rcases hends with h | ⟨_, h⟩ <;> cases h
  rests hguarded hnone := by
    refine h.path.atRest ?_
    cases hin : q.machine.inEval with
    | false => rfl
    | true =>
      rcases h.path.inEval_iff.1 hin with hev | ⟨p, hp⟩
      · exact absurd hev hnone
      · exact absurd hp (hguarded p)
  eval hunwinding hturn hin depth fuel source result n heval := by
    obtain ⟨ts, unwinding, m⟩ := q
    cases hunwinding
    have hrun := Conduct.eval (ε := Empty) ((Conduct.course σ).run depth) hturn fuel source m
    rw [heval] at hrun
    obtain ⟨hist', hcourse, -⟩ := hrun h
    exact hcourse.path.atRest (inEval_of_eval hin heval)
  guardedEval hunwinding hturn hin depth fuel source := by
    obtain ⟨ts, unwinding, m⟩ := q
    cases hunwinding
    refine (inEval_of_guardedEval source hin).imp_right ?_
    rintro ⟨result, n, heval, hn⟩
    have hrun := Conduct.guardedEval ((Conduct.course σ).run depth) hturn fuel source m
    rw [heval] at hrun
    obtain ⟨hist', hcourse, -⟩ := hrun h
    exact ⟨result, n, heval, hcourse.path.atRest hn⟩
  instructions hunwinding hturn hin depth k source name chunk n p hcompile hsteps := by
    obtain ⟨ts, unwinding, m⟩ := q
    cases hunwinding
    obtain ⟨hist', hcourse⟩ := h.steps hturn hin hcompile hsteps
    have hwithin := hcourse.path.limited.within
    have hstep := (Machine.upkeep_within options).step hwithin n.frames.size
    exact ⟨hwithin.stack, hwithin.frames, hstep.stack, hstep.frames⟩

/-- The first instruction of a program fills a stack with room for one value, in the only call that
there may be. -/
theorem Course.orderly_literal : ∃ (hist : History Unit) (q : Point Unit),
    Course (.new { maxStackSize := 1, maxCallDepth := 0 } ()) hist q ∧ Running q.tasks ∧
      q.machine.stack.size = 1 ∧
      q.machine.frames.size = 1 ∧ Orderly { maxStackSize := 1, maxCallDepth := 0 } hist q := by
  let options : Options := { maxStackSize := 1, maxCallDepth := 0 }
  let m : Machine Unit := .new options ()
  obtain ⟨chunk, n, hcompile, h⟩ := Outcome.exists_of_value?
    (o := compileSource (Host.run 1) "1" "" m.beginEval)
    (fun c n => ((Core.start c n).step n.frames.size).next?.any
      (fun p : Machine Unit => decide (p.stack.size = 1 ∧ p.frames.size = 1)) = true)
        (by decide +kernel)
  obtain ⟨p, hstep, hp⟩ := (Option.any_eq_true _ _).1 h
  have hp := of_decide_eq_true hp
  obtain ⟨hist, hcourse⟩ := Course.start.steps hostTurn_nil rfl hcompile
    (.single (.next (Step.eq_next_of_next? hstep)))
  exact ⟨hist, _, hcourse, ⟨_, _, List.mem_cons_self⟩, hp.1, hp.2, hcourse.orderly⟩

end ScriptMachine
