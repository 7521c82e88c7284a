import ScriptMachine.Proofs.History
import ScriptMachine.Proofs.Resolution
/-!
# Following runs

A run of a host program, with everything that it evaluates, compiles and loads, is made of moves. A
relation between points that all moves stay in thus leads from the beginning of a run to its end.

* `Conduct`: such a relation, which may know more of the end of a compilation;
* `Conduct.run`: **runs of host programs stay in it**, however they end;
* `Conduct.evalSource`, `Conduct.steps`: evaluations, and the machines that the instructions of a
  program pass through.
-/

namespace ScriptMachine

variable {σ ε α : Type}

/-- Where a run leads to, if it was begun at a point and leaves so much in progress. -/
def Outcome.Proceeds (reaches : Point σ → Point σ → Prop) (p : Point σ) (ts : List (Task σ))
    (o : Outcome σ ε α) : Prop :=
  o.Leaves (fun _ n => reaches p ⟨ts, false, n⟩) (fun _ n => reaches p ⟨ts, false, n⟩)
    fun n => reaches p ⟨ts, true, n⟩

/-- Callbacks stay in a relation, wherever the host has its turn. -/
def Callback.Proceeds (reaches : Point σ → Point σ → Prop) (call : Callback σ) : Prop :=
  ∀ ts h m, HostTurn ts → (call h m).Proceeds reaches ⟨ts, false, m⟩ ts

/-- The compiler has its turn. -/
def Point.Compiling (p : Point σ) : Prop := ∃ ts m, p = ⟨.compilation :: ts, false, m⟩

/-- A relation that leads from points to later ones. It has all moves; for the ends of compilations
more is known of them: when they began, and what they have drafted or why they were turned down. -/
structure Conduct (σ : Type) where
  /-- A point leads to another one. -/
  reaches : Point σ → Point σ → Prop
  refl : ∀ p, reaches p p
  trans : ∀ {p q r}, reaches p q → reaches q r → reaches p r
  move : ∀ {p q : Point σ} {e : Event σ}, Moves p e q → (p.Compiling → p.tasks <:+ q.tasks) →
    reaches p q
  /-- A compilation for the host. -/
  compiled : ∀ {ts : List (Task σ)} {d : Draft σ} {depth : Nat} {source name : String}
    {m : Machine σ} {chunk : Chunk},
    reaches ⟨.compilation :: ts, false, m⟩ ⟨.compilation :: ts, false, d.machine⟩ →
    (Draft.start source name m).Later (Host.run depth) d →
    compileSource (Host.run depth) source name m = .ok chunk d.commit → HostTurn ts →
    reaches ⟨.compilation :: ts, false, m⟩ ⟨ts, false, d.commit⟩
  /-- The compilation of a program that is to run. -/
  started : ∀ {guarded : Bool} {ts : List (Task σ)} {d : Draft σ} {depth : Nat}
    {source name : String} {m : Machine σ} {chunk : Chunk},
    reaches ⟨.compilation :: .evaluation guarded :: ts, false, m⟩
      ⟨.compilation :: .evaluation guarded :: ts, false, d.machine⟩ →
    (Draft.start source name m).Later (Host.run depth) d →
    compileSource (Host.run depth) source name m = .ok chunk d.commit →
    reaches ⟨.compilation :: .evaluation guarded :: ts, false, m⟩
      ⟨.program d.commit.frames.size d.commit.stack.size :: .evaluation guarded :: ts, false,
        Core.start chunk d.commit⟩
  rejected : ∀ {ts : List (Task σ)} {depth : Nat} {source name : String} {m n : Machine σ}
    {e : SyntaxError}, reaches ⟨.compilation :: ts, false, m⟩ ⟨.compilation :: ts, false, n⟩ →
    compileSource (Host.run depth) source name m = .failed e n → HostTurn ts →
    reaches ⟨.compilation :: ts, false, m⟩ ⟨ts, false, n⟩
  /-- The host is told why a program does not run. -/
  reported : ∀ {guarded : Bool} {ts : List (Task σ)} {depth : Nat} {source name : String}
    {m n : Machine σ} {e : SyntaxError},
    reaches ⟨.compilation :: .evaluation guarded :: ts, false, m⟩
      ⟨.compilation :: .evaluation guarded :: ts, false, n⟩ →
    compileSource (Host.run depth) source name m = .failed e n →
    reaches ⟨.compilation :: .evaluation guarded :: ts, false, m⟩
      ⟨.result (.error (.ofStage e.stage)) :: .evaluation guarded :: ts, false,
        { n with report := staticReport name source e }⟩

namespace Conduct

variable {C : Conduct σ} {p : Point σ} {ts : List (Task σ)} {m : Machine σ}

/-- A run that goes on where another one has come to. -/
theorem leaves_trans {q : Point σ} {o : Outcome σ ε α} {ok : α → Machine σ → Point σ}
    {failed : ε → Machine σ → Point σ} {unwound : Machine σ → Point σ} (h : C.reaches p q)
    (ho : o.Leaves (fun a n => C.reaches q (ok a n)) (fun e n => C.reaches q (failed e n)) fun n =>
      C.reaches q (unwound n)) :
    o.Leaves (fun a n => C.reaches p (ok a n)) (fun e n => C.reaches p (failed e n)) fun n =>
      C.reaches p (unwound n) :=
  ho.mono (fun _ _ => C.trans h) (fun _ _ => C.trans h) fun _ => C.trans h

/-- One more move, if the compiler does not have its turn. -/
theorem next {q r : Point σ} {e : Event σ} (h : C.reaches p q) (moves : Moves q e r)
    (hq : ∀ ts m, q ≠ ⟨.compilation :: ts, false, m⟩ := by simp) : C.reaches p r :=
  C.trans h (C.move moves fun ⟨ts, m, h⟩ => absurd h (hq ts m))

/-- The host's next move. -/
theorem host {r : Point σ} {e : Event σ} (hts : HostTurn ts) (moves : Moves ⟨ts, false, m⟩ e r) :
    C.reaches ⟨ts, false, m⟩ r := by
  refine C.next (C.refl _) moves ?_
  rintro ts' m' h
  cases h
  exact hts.elim

section Runs

variable {depth : Nat} (hcall : Callback.Proceeds C.reaches (Host.run depth))

include hcall

/-- One step of a compilation. -/
theorem draft {d k : Draft σ} (h : d.Next (Host.run depth) k) (ts : List (Task σ)) :
    C.reaches ⟨.compilation :: ts, false, d.machine⟩ ⟨.compilation :: ts, false, k.machine⟩ := by
  cases h with
  | string s => exact C.move (.makeString s) fun _ => List.suffix_rfl
  | function f => exact C.move (.makeFunction f) fun _ => List.suffix_rfl
  | declare name top free | within func | ready new free found => exact C.refl _
  | @load name index handle loader v n new free found loads =>
    have hload := hcall (.loader name index loader :: .compilation :: ts) (loader handle)
      (d.machine.beginLoad index) trivial
    rw [loads] at hload
    exact C.next (C.trans (C.move (.load found) fun _ => List.suffix_cons _ _) hload) .sealed

theorem drafts {d k : Draft σ} (h : d.Later (Host.run depth) k) (ts : List (Task σ)) :
    C.reaches ⟨.compilation :: ts, false, d.machine⟩ ⟨.compilation :: ts, false, k.machine⟩ := by
  induction h with
  | refl => exact C.refl _
  | tail _ step ih => exact C.trans ih (draft hcall step ts)

/-- Compilations; what is left to be done at the end is to put the new variables and imports in
place. -/
theorem compileSource (ts : List (Task σ)) (source name : String) (m : Machine σ) :
    (compileSource (Host.run depth) source name m).Leaves
      (fun _ n => ∃ d, n = d.commit ∧ (Draft.start source name m).Later (Host.run depth) d)
      (fun _ n => C.reaches ⟨.compilation :: ts, false, m⟩ ⟨.compilation :: ts, false, n⟩)
      fun n => C.reaches ⟨.compilation :: ts, false, m⟩ ⟨ts, true, n⟩ := by
  obtain ⟨e, hrun⟩ | ⟨tokens, program, -, -, hrun⟩ := compileSource_cases (σ := σ) source name
  · rw [hrun]
    exact C.refl _
  · rw [hrun, Run.bind_apply]
    have hends := Draft.concludes_bindProgram (Host.run depth) source name program m
    generalize bindProgram (Host.run depth) source name program m = o at hends
    cases hends with
    | ok k later h => exact ⟨k, rfl, later⟩
    | failed k later => exact drafts hcall later ts
    | exhausted => trivial
    | @unwound k name index handle loader n later found gives =>
      have hload := hcall (.loader name index loader :: .compilation :: ts) (loader handle)
        (k.machine.beginLoad index) trivial
      rw [gives] at hload
      -- The loader and the compilation are given up, one after the other.
      have hbegin :=
        C.trans (drafts hcall later ts) (C.move (.load found) fun _ => List.suffix_cons _ _)
      exact C.next (C.next (C.trans hbegin hload) (.abandon _ (by simp))) (.abandon _ (by simp))

/-- The compilation of a program that is to run. -/
theorem prepare (guarded : Bool) (ts : List (Task σ)) (source name : String) (m : Machine σ) :
    (ScriptMachine.compileSource (Host.run depth) source name m).Leaves
      (fun chunk n => C.reaches ⟨.compilation :: .evaluation guarded :: ts, false, m⟩
        ⟨.program n.frames.size n.stack.size :: .evaluation guarded :: ts, false,
          Core.start chunk n⟩)
      (fun e n => C.reaches ⟨.compilation :: .evaluation guarded :: ts, false, m⟩
        ⟨.result (.error (.ofStage e.stage)) :: .evaluation guarded :: ts, false,
          { n with report := staticReport name source e }⟩)
      fun n => C.reaches ⟨.compilation :: .evaluation guarded :: ts, false, m⟩
        ⟨.evaluation guarded :: ts, true, n⟩ := by
  have hcompile := compileSource hcall (.evaluation guarded :: ts) source name m
  cases hc : ScriptMachine.compileSource (Host.run depth) source name m with
  | ok chunk n =>
    rw [hc] at hcompile
    obtain ⟨d, rfl, later⟩ := hcompile
    exact C.started (drafts hcall later _) later hc
  | failed e n => rw [hc] at hcompile; exact C.reported hcompile hc
  | unwound n => rw [hc] at hcompile; exact hcompile
  | exhausted => trivial

/-- One instruction, with the native function that it calls. -/
theorem advances {calls height : Nat} {n : Machine σ} (h : Advances (Host.run depth) calls m n) :
    C.reaches ⟨.program calls height :: ts, false, m⟩ ⟨.program calls height :: ts, false, n⟩ := by
  cases h with
  | next h => exact C.next (C.refl _) (.step h)
  | @native f args callee v before after _ asks runs resumes =>
    have hrun := hcall (.native f callee :: .program calls height :: ts) (f.code args)
      before.enterNative trivial
    rw [runs] at hrun
    exact C.next (C.trans (C.next (C.refl _) (.call asks)) hrun) (.resume resumes)

/-- The machines that a program passes through. -/
theorem steps (ts : List (Task σ)) (height : Nat) {calls k : Nat} {n : Machine σ}
    (h : Steps (Host.run depth) calls k m n) :
    C.reaches ⟨.program calls height :: ts, false, m⟩ ⟨.program calls height :: ts, false, n⟩ := by
  induction h with
  | refl m => exact C.refl _
  | cons head _ ih => exact C.trans (advances hcall head) ih

/-- Running programs. -/
theorem runSteps (ts : List (Task σ)) (calls height fuel : Nat) (m : Machine σ) :
    (runSteps (Host.run depth) calls fuel m).Leaves
      (fun v n => C.reaches ⟨.program calls height :: ts, false, m⟩
        ⟨.result (.ok v) :: ts, false, n.settle calls height⟩)
      (fun e n => C.reaches ⟨.program calls height :: ts, false, m⟩
        ⟨.result (.error e) :: ts, false, (n.reportFailure calls e).settle calls height⟩)
      fun n => C.reaches ⟨.program calls height :: ts, false, m⟩ ⟨ts, true, n⟩ := by
  have hstart := C.refl ⟨.program calls height :: ts, false, m⟩
  induction fuel generalizing m with
  | zero => trivial
  | succ fuel ih =>
    rw [ScriptMachine.runSteps]
    cases hstep : m.step calls with
    | next n => exact leaves_trans (advances hcall (.next hstep)) (ih n (C.refl _))
    | done v n => exact C.next hstart (.finish hstep)
    | failed e n => exact C.next hstart (.fail hstep)
    | native f args callee n =>
      have hopen := C.next hstart (.call hstep)
      have hrun := hcall (.native f callee :: .program calls height :: ts) (f.code args)
        n.enterNative trivial
      simp only
      -- The host has its turn in between; only if it comes back does the program go on.
      cases hr : Host.run depth (f.code args) n.enterNative with
      | exhausted => trivial
      | failed e _ => exact e.elim
      | unwound n' =>
        rw [hr] at hrun
        exact C.next (C.next (C.trans hopen hrun) (.abandon _ (by simp))) (.abandon _ (by simp))
      | ok v n' =>
        rw [hr] at hrun
        simp only
        cases hresume : n'.leaveNative.resume f.name callee v with
        | ok n'' =>
          exact leaves_trans (advances hcall (.native hstep hr hresume)) (ih n'' (C.refl _))
        | error e => exact C.next (C.trans hopen hrun) (.spoil hresume)

/-- Evaluations, up to their result. -/
theorem evalSource (guarded : Bool) (ts : List (Task σ)) (fuel : Nat) (source : String)
    (m : Machine σ) : (evalSource (Host.run depth) fuel source m).Leaves
      (fun v n => C.reaches ⟨.compilation :: .evaluation guarded :: ts, false, m⟩
        ⟨.result (.ok v) :: .evaluation guarded :: ts, false, n⟩)
      (fun e n => C.reaches ⟨.compilation :: .evaluation guarded :: ts, false, m⟩
        ⟨.result (.error e) :: .evaluation guarded :: ts, false, n⟩)
      fun n => C.reaches ⟨.compilation :: .evaluation guarded :: ts, false, m⟩
        ⟨.evaluation guarded :: ts, true, n⟩ := by
  have hprepare := prepare hcall guarded ts source m.options.chunkName m
  rw [evalSource_apply]
  cases hc : ScriptMachine.compileSource (Host.run depth) source m.options.chunkName m with
  | exhausted => trivial
  | failed e n | unwound n => rw [hc] at hprepare; exact hprepare
  | ok chunk n =>
    rw [hc] at hprepare
    have hrun :=
      runSteps hcall (.evaluation guarded :: ts) n.frames.size n.stack.size fuel
        (Core.start chunk n)
    simp only
    unfold execute
    dsimp only
    cases hr : ScriptMachine.runSteps (Host.run depth) n.frames.size fuel (Core.start chunk n) with
    | ok v n' | failed e n' | unwound n' => rw [hr] at hrun; exact C.trans hprepare hrun
    | exhausted => trivial

variable (hts : HostTurn ts) (fuel : Nat)

include hts

theorem eval (source : String) (m : Machine σ) :
    (eval (Host.run depth) fuel source m : Outcome σ ε _).Proceeds C.reaches ⟨ts, false, m⟩ ts := by
  cases hin : m.inEval with
  | true =>
    rw [eval_of_inEval hin]
    exact C.host hts (.refuse hts hin)
  | false =>
    have hrun :=
      leaves_trans (C.host hts (.evaluate hts false hin)) (evalSource hcall false ts fuel source _)
    rw [eval_of_not_inEval hin]
    split <;> rename_i hr <;> rw [hr] at hrun
    · exact C.next hrun .conclude
    · exact C.next hrun .conclude
    · exact C.next hrun (.abandon _ (by simp))
    · trivial

theorem guardedEval (source : SizedText) (m : Machine σ) :
    (guardedEval (Host.run depth) fuel source m : Outcome σ Empty _).Proceeds C.reaches
      ⟨ts, false, m⟩ ts := by
  unfold ScriptMachine.guardedEval
  split
  · exact C.host hts (.decode hts)
  · rename_i text _
    cases hin : m.inEval with
    | true =>
      rw [eval_of_inEval hin]
      exact C.host hts (.refuse hts hin)
    | false =>
      have hrun :=
        leaves_trans (C.host hts (.evaluate hts true hin)) (evalSource hcall true ts fuel text _)
      rw [eval_of_not_inEval hin]
      cases hr : ScriptMachine.evalSource (Host.run depth) fuel text m.beginEval with
      | ok v n | failed e n => rw [hr] at hrun; exact C.next hrun .conclude
      | unwound n => rw [hr] at hrun; exact C.next hrun .recover
      | exhausted => trivial

theorem perform (r : Request) (m : Machine σ) :
    (r.perform (Host.run depth) fuel m).Proceeds C.reaches ⟨ts, false, m⟩ ts := by
  have hplain : r.Plain →
      (r.perform (Host.run depth) fuel m).Proceeds C.reaches ⟨ts, false, m⟩ ts := by
    intro hr
    obtain ⟨a, n, ho⟩ := hr.performed (Host.run depth) fuel m
    rw [ho]
    exact C.host hts (.reply hts hr ho)
  cases r with
  | eval source => exact eval hcall hts fuel source m
  | evalBytes source => exact guardedEval hcall hts fuel source m
  | compile source name =>
    have hopen := C.host (m := m) hts (.compile hts)
    have hcompile := compileSource hcall ts source name m
    show Outcome.Proceeds _ _ ts
      (Run.attempt (ScriptMachine.compileSource (Host.run depth) source name) m)
    unfold Run.attempt
    cases hc : ScriptMachine.compileSource (Host.run depth) source name m with
    | ok chunk n =>
      rw [hc] at hcompile
      obtain ⟨d, rfl, later⟩ := hcompile
      exact C.trans hopen (C.compiled (drafts hcall later ts) later hc hts)
    | failed e n =>
      rw [hc] at hcompile
      exact C.trans hopen (C.rejected hcompile hc hts)
    | unwound n => rw [hc] at hcompile; exact C.trans hopen hcompile
    | exhausted => trivial
  | _ => exact hplain trivial

theorem interpret (h : Host σ) (m : Machine σ) :
    (h.interpret (Host.run depth) fuel m).Proceeds C.reaches ⟨ts, false, m⟩ ts := by
  induction h generalizing m with
  | finish v => exact C.refl _
  | unwind => exact C.host hts (.unwind hts)
  | ask r next ih =>
    have hperform := perform hcall hts fuel r m
    unfold Host.interpret
    split <;> rename_i hr <;> rw [hr] at hperform
    · exact leaves_trans hperform (ih _ _)
    · exact hperform
    · trivial
  | read next ih => exact ih _ m
  | write s next ih => exact leaves_trans (C.host hts (.write hts s)) (ih _)
  | addLoader name loader next _ ih =>
    exact leaves_trans (C.host hts (.register hts name loader)) (ih _)
  | setFunction handle name arity body next _ ih =>
    exact leaves_trans (C.host hts (.install hts handle name arity body)) (ih _ _)

end Runs

/-- **Runs of host programs stay in the relation**, wherever the host has its turn. -/
theorem run (C : Conduct σ) (fuel : Nat) : Callback.Proceeds C.reaches (Host.run fuel) := by
  induction fuel with
  | zero => exact fun _ _ _ _ => trivial
  | succ fuel ih => exact fun ts h m hts => interpret ih hts fuel h m

/-- What moves preserve leads from points to later ones. -/
def preserving (P : Point σ → Prop)
    (moves : ∀ {p q : Point σ} {e : Event σ}, Moves p e q → P p → P q) : Conduct σ where
  reaches p q := P p → P q
  refl _ := id
  trans h h' := h' ∘ h
  move hmoves _ := moves hmoves
  compiled {_ d _ source name _ chunk} h _ _ hts hp :=
    moves (.compiled hts d.build source name chunk) (h hp)
  started {_ _ _ _ _ _ _ chunk} h _ _ hp := moves (.start rfl chunk) (h hp)
  rejected {_ _ source name _ _ e} h _ hts hp := moves (.rejected hts source name e) (h hp)
  reported {_ _ _ _ _ _ _ e} h _ hp := moves (.reject e _) (h hp)

end Conduct

end ScriptMachine
