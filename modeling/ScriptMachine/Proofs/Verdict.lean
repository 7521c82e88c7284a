import ScriptMachine.Proofs.Rejected
import ScriptMachine.Proofs.Rest
/-!
# The report tells how the last evaluation has ended

The error report is empty as long as no evaluation was made, and after one that has succeeded; after
one that has failed, was turned down or was recovered from, it is not. Nothing else changes it. One
that was given up, and that nobody has recovered from, need not have left a report.

* `Chronicle`: a path on which programs that do not compile are reported on;
* `Chronicle.told`: **the report at every point of it**;
* `Chronicle.reported_last`: all of this for operations as the host sees them.
-/

namespace ScriptMachine

variable {σ : Type}

/-! ## Chronicles -/

/-- The compiler turns the program of an evaluation down. -/
def Point.Rejects (p q : Point σ) : Prop := p.Compiling ∧ ∃ f ts, q.tasks = .result f :: ts

/-- A path on which programs that do not compile are reported on. Such a compilation began at an
earlier point, with the same tasks around it. -/
inductive Chronicle (p : Point σ) : History σ → Point σ → Prop
  | start : Chronicle p [] p
  | move {hist : History σ} {q r : Point σ} {e : Event σ} (before : Chronicle p hist q)
    (moves : Moves q e r) (passes : ¬ q.Rejects r) : Chronicle p ((q, e) :: hist) r
  | reported {hist : History σ} {ts : List (Task σ)} {guarded : Bool} {depth : Nat}
    {source name : String} {m n : Machine σ} {e : SyntaxError}
    (before : Chronicle p hist ⟨.compilation :: .evaluation guarded :: ts, false, n⟩)
    (began : ⟨.compilation :: .evaluation guarded :: ts, false, m⟩ ∈
      hist.points ⟨.compilation :: .evaluation guarded :: ts, false, n⟩)
    (fails : compileSource (Host.run depth) source name m = .failed e n) :
    Chronicle p ((⟨.compilation :: .evaluation guarded :: ts, false, n⟩, .worked) :: hist)
      ⟨.result (.error (.ofStage e.stage)) :: .evaluation guarded :: ts, false,
        { n with report := staticReport name source e }⟩

variable {p q : Point σ} {hist : History σ}

theorem Chronicle.path (h : Chronicle p hist q) : Path p hist q := by
  induction h with
  | start => exact .start
  | move _ moves _ ih => exact ih.move moves
  | reported _ _ _ ih => exact ih.move (.reject _ _)

/-- However a point was led to, the chronicle can be continued to another one. -/
def Narrates (q r : Point σ) : Prop :=
  ∀ ⦃p : Point σ⦄ ⦃hist : History σ⦄, Chronicle p hist q →
    ∃ hist', Chronicle p hist' r ∧ hist.points q <:+ hist'.points r

theorem Narrates.move {p q r : Point σ} {e : Event σ} (h : Narrates p q) (moves : Moves q e r)
    (passes : ¬ q.Rejects r) : Narrates p r := by
  intro p₀ hist hp
  obtain ⟨hist', hq, hsuffix⟩ := h hp
  exact ⟨_, hq.move moves passes, hsuffix.trans (List.suffix_cons _ _)⟩

variable {e : Event σ}

/-- A program is turned down at the end of its compilation only. -/
theorem Moves.not_rejects (h : Moves p e q) (hp : p.Compiling → p.tasks <:+ q.tasks) :
    ¬ p.Rejects q := by
  rintro ⟨⟨ts, m, rfl⟩, f, rest, hq⟩
  cases h with
  | reply turn | write turn | register turn | install turn | refuse turn | decode turn
  | evaluate turn
  | compile turn | unwind turn => exact turn.elim
  | makeString | makeFunction | load | start => cases hq
  | compiled turn | rejected turn => exact (hq ▸ turn : HostTurn (.result f :: rest)).elim
  | reject => cases (hp ⟨_, _, rfl⟩).eq_of_length rfl

/-- Chronicles can be continued by all that runs do. -/
def Conduct.chronicle (σ : Type) : Conduct σ where
  reaches := Narrates
  refl _ _ _ h := ⟨_, h, List.suffix_rfl⟩
  trans h h' _ _ hp := by
    obtain ⟨hist₁, hq, hsuffix⟩ := h hp
    obtain ⟨hist₂, hr, hsuffix'⟩ := h' hq
    exact ⟨hist₂, hr, hsuffix.trans hsuffix'⟩
  move moves hp _ _ h := ⟨_, h.move moves (moves.not_rejects hp), List.suffix_cons _ _⟩
  compiled {ts d _ source name _ chunk} h _ _ hts := by
    refine h.move (.compiled hts d.build source name chunk) ?_
    rintro ⟨-, f, rest, rfl⟩
    exact hts.elim
  started h _ _ := by
    refine h.move (.start rfl _) ?_
    rintro ⟨-, f, rest, hrest⟩
    cases hrest
  rejected {ts _ source name _ _ e} h _ hts := by
    refine h.move (.rejected hts source name e) ?_
    rintro ⟨-, f, rest, rfl⟩
    exact hts.elim
  reported h fails _ _ hp := by
    obtain ⟨hist', hn, hsuffix⟩ := h hp
    exact ⟨_, hn.reported (hsuffix.subset List.mem_cons_self) fails,
      hsuffix.trans (List.suffix_cons _ _)⟩

/-! ## Reports -/

/-- How the last evaluation has ended, if there was one. -/
def History.verdict (hist : History σ) : Option Verdict := hist.findSome? (·.2.verdict?)

theorem History.verdict_cons (p : Point σ) (e : Event σ) (hist : History σ) :
    verdict ((p, e) :: hist) = e.verdict?.or hist.verdict := by
  unfold verdict
  rw [List.findSome?_cons]
  cases e.verdict? <;> rfl

theorem staticReport_ne_empty (name source : String) (e : SyntaxError) :
    staticReport name source e ≠ "" := by
  simp [staticReport]

/-- A program runs for an evaluation. -/
theorem Ordered.evaluating {ts : List (Task σ)} (h : Ordered ts) (hr : Running ts) :
    Evaluating ts := by
  induction ts with
  | nil =>
    obtain ⟨_, _, hmem⟩ := hr
    cases hmem
  | cons t ts ih =>
    cases t with
    | evaluation guarded => exact evaluating_of_cons _ _
    | program calls height =>
      obtain ⟨-, -, guarded, rest, rfl, -⟩ := h
      exact (evaluating_of_cons _ _).cons _
    | compilation | loader name index body | native f callee | result result =>
      exact (ih h.tail ((running_cons (by simp)).1 hr)).cons _

/-- What the report tells at a point. -/
structure Told (hist : History σ) (q : Point σ) : Prop where
  /-- When no evaluation is in progress, and the last one was not lost, the report is empty if and
  only if there was none or the last one has succeeded. -/
  report : ¬ Evaluating q.tasks → hist.verdict ≠ some .lost →
    (q.machine.report = "" ↔ hist.verdict = none ∨ hist.verdict = some .passed)
  /-- If it was lost, the report is what was in it when it was given up. -/
  lost : ¬ Evaluating q.tasks → hist.verdict = some .lost →
    ∃ p, (p, .abandoned (.evaluation false)) ∈ hist ∧ q.machine.report = p.machine.report
  /-- A failure that is to be handed over was reported on. -/
  failures : ∀ f, .result (.error f) ∈ q.tasks → q.machine.report ≠ ""

/-- One move. -/
theorem Told.move {e : Event σ} (h : Told hist p) (hfair : p.Fair)
    (moves : Moves p e q) (passes : ¬ p.Rejects q) : Told ((p, e) :: hist) q := by
  have hquiet {ts : List (Task σ)} (hts : Quiet ts) (f : Failure) : .result (.error f) ∉ ts :=
    fun hmem => not_quiet hmem (by simp) hts
  have hverdict := History.verdict_cons p e hist
  cases moves.effect with
  | nothing event evaluating results inEval report =>
    rw [event, Option.none_or] at hverdict
    refine ⟨fun hnone hlost => ?_, fun hnone hlost => ?_,
      fun f hf => report ▸ h.failures f (results f hf)⟩
    · rw [hverdict] at hlost ⊢
      rw [report]
      exact h.report (mt evaluating.2 hnone) hlost
    · obtain ⟨p', hp', hreport⟩ := h.lost (mt evaluating.2 hnone) (hverdict ▸ hlost)
      exact ⟨p', List.mem_cons_of_mem _ hp', report.trans hreport⟩
  | refused event tasks inEval report | recovered event tasks inEval report =>
    subst event
    refine ⟨fun _ _ => by simp [hverdict, Event.verdict?, report], fun _ hlost => ?_,
      fun _ _ => report⟩
    cases hverdict.symm.trans hlost
  | opened event rests tasks inEval =>
    have hevaluating : Evaluating q.tasks := tasks ▸ (evaluating_of_cons _ _).cons _
    refine ⟨fun hnone => absurd hevaluating hnone, fun hnone => absurd hevaluating hnone,
      fun f hf => ?_⟩
    rw [tasks] at hf
    simp only [List.mem_cons, reduceCtorEq, false_or] at hf
    exact absurd hf (hquiet (hfair.idle rests).1 f)
  | rejected event compiling before tasks inEval => exact absurd ⟨compiling, _, _, tasks⟩ passes
  | failed event running evaluating inEval report =>
    have hevaluating := evaluating.2 (hfair.ordered.evaluating running)
    exact ⟨fun hnone => absurd hevaluating hnone, fun hnone => absurd hevaluating hnone,
      fun _ _ => report⟩
  | @evaluated guarded result event tasks inEval report =>
    subst event
    have hordered := hfair.ordered
    rw [tasks] at hordered
    refine ⟨fun _ _ => ?_, fun _ hlost => ?_, fun f hf => absurd hf (hquiet hordered.tail f)⟩
    · cases result with
      | ok v => simp [hverdict, Event.verdict?, Verdict.on, report]
      | error f =>
        have hreport := h.failures f (tasks ▸ List.mem_cons_self)
        simp [hverdict, Event.verdict?, Verdict.on, report, hreport]
    · have hverdict := hverdict.symm.trans hlost
      cases result <;> cases hverdict
  | abandoned event tasks machine =>
    subst event
    refine ⟨fun _ hlost => absurd hverdict hlost,
      fun _ _ => ⟨p, List.mem_cons_self, congrArg (·.report) machine⟩,
      fun f hf => machine ▸ h.failures f ?_⟩
    exact tasks ▸ List.mem_cons_of_mem _ hf

/-- **The report tells how the last evaluation has ended.** -/
theorem Chronicle.told {options : Options} {host : σ} {q : Point σ}
    (h : Chronicle (.new options host) hist q) : Told hist q := by
  induction h with
  | start => exact ⟨fun _ _ => ⟨fun _ => .inl rfl, fun _ => rfl⟩, nofun, nofun⟩
  | move before moves passes ih => exact ih.move before.path.fair moves passes
  | reported before began fails ih =>
    exact ⟨fun hnone => absurd ((evaluating_of_cons _ _).cons _) hnone,
      fun hnone => absurd ((evaluating_of_cons _ _).cons _) hnone,
        fun _ _ => staticReport_ne_empty _ _ _⟩

/-! ## What changes the report -/

/-- An operation of the host that is no evaluation. -/
def Event.Operation : Event σ → Prop
  | .replied _ _ | .wrote | .registered _ _ | .installed _ _ _ | .opened .compilation => True
  | _ => False

/-- All moves so far, the last first. -/
def History.moves : History σ → Point σ → List (Point σ × Event σ × Point σ)
  | [], _ => []
  | (p, e) :: hist, q => (p, e, q) :: History.moves hist p

theorem Path.of_mem_moves {p₀ p q r : Point σ} (h : Path p₀ hist q)
    (hmem : (p, e, r) ∈ hist.moves q) : (∃ hist', Path p₀ hist' p) ∧ Moves p e r := by
  induction h with
  | start => cases hmem
  | move before moves ih =>
    rcases List.mem_cons.1 hmem with heq | hmem
    · cases heq
      exact ⟨⟨_, before⟩, moves⟩
    · exact ih hmem

/-- Operations leave the report alone, and so does everything else outside of evaluations. -/
theorem Moves.report_eq (h : Moves p e q) (hfair : p.Fair)
    (he : e.Operation ∨ ¬ Evaluating p.tasks ∧ e.verdict? = none ∧ ∀ guarded,
      e ≠ .opened (.evaluation guarded)) :
    q.machine.report = p.machine.report := by
  cases h.effect with
  | nothing event evaluating results inEval report => exact report
  | refused event => subst event; rcases he with he | ⟨-, he, -⟩ <;> cases he
  | opened event => subst event; exact he.elim False.elim fun ⟨_, _, he⟩ => absurd rfl (he _)
  | rejected event compiling before =>
    subst event
    exact he.elim False.elim fun ⟨hnone, _⟩ =>
      absurd (before ▸ (evaluating_of_cons _ _).cons _) hnone
  | failed event running =>
    rcases he with he | ⟨hnone, -⟩
    · rcases event with rfl | ⟨f, callee, rfl⟩ <;> cases he
    · exact absurd (hfair.ordered.evaluating running) hnone
  | evaluated event | recovered event | abandoned event =>
    subst event; rcases he with he | ⟨-, he, -⟩ <;> cases he

/-! ## Evaluations as the host sees them -/

variable {source : String} {ε : Type}

section

variable {call : Callback σ} {fuel : Nat} {m n : Machine σ}

/-- An evaluation that fails is reported on. -/
theorem report_evalSource {f : Failure} (h : evalSource call fuel source m = .failed f n) :
    n.report ≠ "" := by
  rw [evalSource_apply] at h
  split at h
  · unfold execute at h
    dsimp only at h
    split at h
    · cases h
    · cases h
      exact runtimeReport_ne_empty _ _ _
    · cases h
    · cases h
  · cases h
    exact staticReport_ne_empty _ _ _
  · cases h
  · cases h

theorem report_eval {result : Except Failure Value}
    (h : (eval call fuel source m : Outcome σ ε _) = .ok result n) :
    n.report = "" ↔ ∃ v, result = .ok v := by
  cases hin : m.inEval with
  | true =>
    rw [eval_of_inEval hin] at h
    cases h
    simp
  | false =>
    rw [eval_of_not_inEval hin] at h
    split at h <;> cases h <;> rw [Machine.conclude_report]
    · simp
    · rename_i hrun
      simp [report_evalSource hrun]

theorem Failure.code_ne_zero (f : Failure) : f.code ≠ 0 := by
  cases f <;> decide

theorem report_guardedEval {source : SizedText} {code : Nat} {v : Option Value}
    (h : (guardedEval call fuel source m : Outcome σ ε _) = .ok (code, v) n) :
    n.report = "" ↔ code = 0 := by
  unfold guardedEval at h
  split at h
  · cases h
    simp [Failure.code_ne_zero]
  · split at h
    · rename_i result _ heval
      cases h
      rw [report_eval heval]
      cases result <;> simp [resultCode, Failure.code_ne_zero]
    · cases h
    · cases h
      simp [Machine.recover, Failure.code_ne_zero]
    · cases h

end

/-- A chronicle in which an evaluation comes to an end. -/
theorem Narrates.ends {p₀ p q r : Point σ} {v : Verdict} (h : Narrates p q)
    (hp : Chronicle p₀ hist p) (moves : Moves q e r) (passes : ¬ q.Compiling)
    (hv : e.verdict? = some v) :
    ∃ hist', Chronicle p₀ hist' r ∧ hist.points p <:+ hist'.points r ∧ hist'.verdict = some v := by
  obtain ⟨hist', hq, hsuffix⟩ := h hp
  refine ⟨_, hq.move moves fun hrejects => passes hrejects.1, hsuffix.trans (List.suffix_cons _ _),
    ?_⟩
  rw [History.verdict_cons, hv, Option.some_or]

section

variable {p : Point σ} {hist : History σ} {ts : List (Task σ)} {m n : Machine σ} {depth fuel : Nat}

theorem HostTurn.not_compiling (hts : HostTurn ts) (m : Machine σ) :
    ¬ (⟨ts, false, m⟩ : Point σ).Compiling := by
  rintro ⟨ts', m', h⟩
  cases h
  exact hts

variable (h : Chronicle p hist ⟨ts, false, m⟩) (hts : HostTurn ts)

include h hts

/-- The chronicle tells how an evaluation has ended that runs to its end. -/
theorem Chronicle.evaluates (hin : m.inEval = false)
    (guarded : Bool) (depth fuel : Nat) (source : String) :
    (evalSource (Host.run depth) fuel source m.beginEval).Leaves
      (fun v n => ∃ hist', Chronicle p hist' ⟨ts, false, n.conclude (.ok v)⟩ ∧
        hist.points ⟨ts, false, m⟩ <:+ hist'.points ⟨ts, false, n.conclude (.ok v)⟩ ∧
        hist'.verdict = some .passed)
      (fun f n => ∃ hist', Chronicle p hist' ⟨ts, false, n.conclude (.error f)⟩ ∧
        hist.points ⟨ts, false, m⟩ <:+ hist'.points ⟨ts, false, n.conclude (.error f)⟩ ∧
        hist'.verdict = some .failed)
      fun n => Narrates ⟨ts, false, m⟩ ⟨.evaluation guarded :: ts, true, n⟩ := by
  have hopen := Conduct.host (C := .chronicle σ) hts (.evaluate hts guarded hin)
  have hrun :=
    Conduct.evalSource (C := .chronicle σ) ((Conduct.chronicle σ).run depth) guarded ts fuel
      source m.beginEval
  cases hr : evalSource (Host.run depth) fuel source m.beginEval with
  | ok v n | failed f n =>
    rw [hr] at hrun
    exact Narrates.ends ((Conduct.chronicle σ).trans hopen hrun) h .conclude
      (by rintro ⟨_, _, h⟩; cases h) rfl
  | unwound n => rw [hr] at hrun; exact (Conduct.chronicle σ).trans hopen hrun
  | exhausted => trivial

theorem Chronicle.of_eval {result : Except Failure Value}
    (heval : (eval (Host.run depth) fuel source m : Outcome σ ε _) = .ok result n) :
    ∃ hist', Chronicle p hist' ⟨ts, false, n⟩ ∧
      hist.points ⟨ts, false, m⟩ <:+ hist'.points ⟨ts, false, n⟩ ∧
      hist'.verdict = some (.on result) := by
  cases hin : m.inEval with
  | true =>
    rw [eval_of_inEval hin] at heval
    cases heval
    exact Narrates.ends ((Conduct.chronicle σ).refl _) h (.refuse hts hin) (hts.not_compiling m) rfl
  | false =>
    have hrun := h.evaluates hts hin false depth fuel source
    rw [eval_of_not_inEval hin] at heval
    split at heval <;> rename_i hr <;> rw [hr] at hrun <;> cases heval
    · exact hrun
    · exact hrun

/-- One that is unwound goes down as lost. -/
theorem Chronicle.of_eval_unwound
    (heval : (eval (Host.run depth) fuel source m : Outcome σ ε _) = .unwound n) :
    ∃ hist', Chronicle p hist' ⟨ts, true, n⟩ ∧
      hist.points ⟨ts, false, m⟩ <:+ hist'.points ⟨ts, true, n⟩ ∧ hist'.verdict = some .lost := by
  cases hin : m.inEval with
  | true =>
    rw [eval_of_inEval hin] at heval
    cases heval
  | false =>
    have hrun := h.evaluates hts hin false depth fuel source
    rw [eval_of_not_inEval hin] at heval
    split at heval <;> rename_i hr <;> rw [hr] at hrun <;> cases heval
    exact Narrates.ends hrun h (.abandon _ (by simp)) (by rintro ⟨_, _, h⟩; cases h) rfl

theorem Chronicle.of_guardedEval {source : SizedText} {code : Nat} {v : Option Value}
    (heval : (guardedEval (Host.run depth) fuel source m : Outcome σ ε _) = .ok (code, v) n) :
    ∃ hist', Chronicle p hist' ⟨ts, false, n⟩ ∧
      hist.points ⟨ts, false, m⟩ <:+ hist'.points ⟨ts, false, n⟩ ∧
      hist'.verdict = some (if code = 0 then .passed else .failed) := by
  unfold guardedEval at heval
  split at heval
  · cases heval
    rw [if_neg (Failure.code_ne_zero _)]
    exact Narrates.ends ((Conduct.chronicle σ).refl _) h (.decode hts) (hts.not_compiling m) rfl
  · rename_i text _
    split at heval
    · rename_i result _ hr
      cases heval
      obtain ⟨hist', hn, hsuffix, hverdict⟩ := h.of_eval hts hr
      refine ⟨hist', hn, hsuffix, hverdict.trans ?_⟩
      cases result with
      | ok v => rfl
      | error f => rw [resultCode, if_neg f.code_ne_zero]; rfl
    · cases heval
    · rename_i hr
      cases heval
      rw [if_neg (Failure.code_ne_zero _)]
      -- The unwinding came from inside of the evaluation.
      cases hin : m.inEval with
      | true =>
        rw [eval_of_inEval hin] at hr
        cases hr
      | false =>
        have hrun := h.evaluates hts hin true depth fuel text
        rw [eval_of_not_inEval hin] at hr
        split at hr <;> rename_i hr' <;> rw [hr'] at hrun <;> cases hr
        exact Narrates.ends hrun h .recover (by rintro ⟨_, _, h⟩; cases h) rfl
    · cases heval

end

/-- What the report tells, with what has happened since the point `p`. -/
structure Reported (p : Point σ) (hist : History σ) (q : Point σ) : Prop where
  /-- When no evaluation is in progress, and the last one was not lost, the report is empty if and
  only if there was none or the last one has succeeded. -/
  report : ¬ Evaluating q.tasks → hist.verdict ≠ some .lost →
    (q.machine.report = "" ↔ hist.verdict = none ∨ hist.verdict = some .passed)
  /-- If it was lost, the report is what was in it when it was given up. -/
  lost : ¬ Evaluating q.tasks → hist.verdict = some .lost →
    ∃ p, (p, .abandoned (.evaluation false)) ∈ hist ∧ q.machine.report = p.machine.report
  /-- No evaluation was lost as long as the machine does not count as evaluating. -/
  found : q.machine.inEval = false → ¬ Evaluating q.tasks ∧ hist.verdict ≠ some .lost
  /-- Operations leave the report alone, in evaluations too, and outside of them so does everything
  else. -/
  kept : ∀ {p e r}, (p, e, r) ∈ hist.moves q → (e.Operation ∨
    ¬ Evaluating p.tasks ∧ e.verdict? = none ∧ ∀ guarded, e ≠ .opened (.evaluation guarded)) →
    r.machine.report = p.machine.report
  /-- An evaluation that the host makes next goes down as what its result is. -/
  eval : q.unwinding = false → HostTurn q.tasks →
    ∀ {depth fuel : Nat} {source : String} {result : Except Failure Value} {n : Machine σ},
      (eval (Host.run depth) fuel source q.machine : Outcome σ Empty _) = .ok result n →
      (n.report = "" ↔ ∃ v, result = .ok v) ∧
      ∃ hist', Chronicle p hist' ⟨q.tasks, false, n⟩ ∧
        hist.points q <:+ hist'.points ⟨q.tasks, false, n⟩ ∧ hist'.verdict = some (.on result)
  /-- If it is unwound, it goes down as lost. -/
  unwound : q.unwinding = false → HostTurn q.tasks → ∀ {depth fuel : Nat} {source : String}
    {n : Machine σ},
    (ScriptMachine.eval (Host.run depth) fuel source q.machine : Outcome σ Empty _) = .unwound n →
    ∃ hist', Chronicle p hist' ⟨q.tasks, true, n⟩ ∧
      hist.points q <:+ hist'.points ⟨q.tasks, true, n⟩ ∧ hist'.verdict = some .lost
  /-- A guarded one goes down as what its result code is. -/
  guardedEval : q.unwinding = false → HostTurn q.tasks →
    ∀ {depth fuel : Nat} {source : SizedText} {code : Nat} {v : Option Value} {n : Machine σ},
      (guardedEval (Host.run depth) fuel source q.machine : Outcome σ Empty _) = .ok (code, v) n →
      (n.report = "" ↔ code = 0) ∧
      ∃ hist', Chronicle p hist' ⟨q.tasks, false, n⟩ ∧
        hist.points q <:+ hist'.points ⟨q.tasks, false, n⟩ ∧
        hist'.verdict = some (if code = 0 then .passed else .failed)
  /-- Other requests that the host makes next leave the report alone. -/
  request : ∀ {r : Request}, r.Plain → ∀ {call : Callback σ} {fuel : Nat} {a : r.Reply}
    {n : Machine σ}, r.perform call fuel q.machine = .ok a n → n.report = q.machine.report
  /-- Whatever the host does next is part of the chronicle, however it ends. -/
  goesOn : q.unwinding = false → HostTurn q.tasks →
    ∀ (fuel : Nat) (h : Host σ), (h.run fuel q.machine).Proceeds Narrates q q.tasks

/-- An evaluation was lost only if one was given up. -/
theorem History.abandoned_of_verdict (h : hist.verdict = some .lost) :
    ∃ p, (p, .abandoned (.evaluation false)) ∈ hist := by
  obtain ⟨⟨p, e⟩, hmem, he⟩ := List.exists_of_findSome?_eq_some h
  refine ⟨p, ?_⟩
  cases e with
  | evaluated result => cases result <;> cases he
  | abandoned task =>
    cases task with
    | evaluation guarded =>
      cases guarded with
      | false => exact hmem
      | true => cases he
    | _ => cases he
  | _ => cases he

/-- **The error report tells the last evaluation's outcome**, at every point where none is
running. -/
theorem Chronicle.reported_last {options : Options} {host : σ} {hist : History σ} {q : Point σ}
    (h : Chronicle (.new options host) hist q) : Reported (.new options host) hist q where
  report := h.told.report
  lost := h.told.lost
  found hin := by
    refine ⟨(h.path.fair.idle hin).1.not_evaluating, fun hlost => ?_⟩
    obtain ⟨p, hp⟩ := History.abandoned_of_verdict hlost
    cases hin.symm.trans (h.path.hushed_of_abandoned hp).machine.inEval
  kept hmem he := by
    obtain ⟨⟨hist', hp⟩, moves⟩ := h.path.of_mem_moves hmem
    exact moves.report_eq hp.fair he
  eval hunwinding hturn depth fuel source result n heval := by
    obtain ⟨ts, unwinding, m⟩ := q
    cases hunwinding
    exact ⟨report_eval heval, h.of_eval hturn heval⟩
  unwound hunwinding hturn depth fuel source n heval := by
    obtain ⟨ts, unwinding, m⟩ := q
    cases hunwinding
    exact h.of_eval_unwound hturn heval
  guardedEval hunwinding hturn depth fuel source code v n heval := by
    obtain ⟨ts, unwinding, m⟩ := q
    cases hunwinding
    exact ⟨report_guardedEval heval, h.of_guardedEval hturn heval⟩
  request hr call fuel a n hperform := congrArg (·.report) (hr.standing hperform)
  goesOn hunwinding hturn fuel program := by
    obtain ⟨ts, unwinding, m⟩ := q
    cases hunwinding
    exact (Conduct.chronicle σ).run fuel ts program m hturn

/-- A program that leaves a loop that there is not. -/
theorem Chronicle.reported_last_break : ∃ (hist : History Unit) (n : Machine Unit),
    Chronicle (.new {} ()) hist ⟨[], false, n⟩ ∧ n.inEval = false ∧ hist.verdict = some .failed ∧
      n.report ≠ "" ∧ Reported (.new {} ()) hist ⟨[], false, n⟩ := by
  obtain ⟨_, n, heval, rfl, hin, hreport⟩ := Outcome.exists_of_value?
    (o := eval (ε := Empty) (Host.run 1) 0 "break" (Machine.new {} () : Machine Unit))
    (fun r n => r = .error .compile ∧ n.inEval = false ∧ n.report ≠ "") (by decide +kernel)
  obtain ⟨-, hist, hn, -, hverdict⟩ :=
    (Chronicle.reported_last (.start (p := .new {} ()))).eval rfl trivial heval
  exact ⟨hist, n, hn, hin, hverdict, hreport, hn.reported_last⟩

/-- The machine that an unwinding leaves. -/
def Outcome.unwound? {α : Type} : Outcome σ ε α → Option (Machine σ)
  | .unwound m => some m
  | _ => none

theorem Outcome.eq_unwound_of_unwound? {α : Type} {o : Outcome σ ε α} {m : Machine σ}
    (h : o.unwound? = some m) : o = .unwound m := by
  cases o with
  | unwound m' => cases h; rfl
  | ok a m' | failed e m' | exhausted => cases h

/-- A loader gives up, and so does the evaluation that has called it: nothing is in progress any
more and the report is empty, but the last evaluation has not succeeded. -/
theorem Chronicle.unreported_of_unwound : ∃ (before hist : History Unit) (m n : Machine Unit),
    Chronicle (.new {} ()) before ⟨[], false, m⟩ ∧
      (eval (Host.run 1) 0 "import a" m : Outcome Unit Empty _) = .unwound n ∧
      Chronicle (.new {} ()) hist ⟨[], false, n⟩ ∧ hist.verdict = some .lost ∧ n.report = "" := by
  let loader : Loader Unit := fun _ => .unwind
  let m : Machine Unit := (Machine.new {} ()).addLoader "a" loader
  have hm : Chronicle (.new {} ()) _ ⟨[], false, m⟩ :=
    .move .start (.register hostTurn_nil "a" loader) fun h => hostTurn_nil.not_compiling _ h.1
  obtain ⟨n, hunwound, hreport⟩ :=
    (Option.any_eq_true (fun n : Machine Unit => decide (n.report = ""))
      (eval (Host.run 1) 0 "import a" m : Outcome Unit Empty _).unwound?).1 (by decide +kernel)
  have heval := Outcome.eq_unwound_of_unwound? hunwound
  obtain ⟨hist, hn, -, hverdict⟩ := hm.of_eval_unwound hostTurn_nil heval
  have hescaped := hn.move .escape (by rintro ⟨⟨_, _, h⟩, -⟩; cases h)
  refine ⟨_, _, m, n, hm, heval, hescaped, ?_, of_decide_eq_true hreport⟩
  exact (History.verdict_cons _ _ _).trans hverdict

end ScriptMachine
