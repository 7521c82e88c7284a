import ScriptMachine.Proofs.Containment
/-!
# Correctness of compilation

What the code of a program does is what the program says: running the code of a program that
compiles agrees with evaluating the resolved program by recursion on its tree.

* `Machine.execute_agrees_eval`: **compiled programs run as they are evaluated.**
-/

namespace ScriptMachine

variable {σ : Type} {call : Callback σ} {entry : Nat}

/-! ## Ends of runs -/

/-- A run that comes to its end has kept within the limits. -/
theorem Safe.of_runSteps_ok {fuel : Nat} {m m' : Machine σ} {v : Value}
    (h : runSteps call entry fuel m = .ok v m') : Safe call entry m := by
  rintro n k hs ⟨k', hstep, -⟩
  have hmore : runSteps call entry (n + (fuel + 1)) m = .ok v m' := by
    rw [runSteps_of_le (by rw [h]; exact nofun) (by omega : fuel ≤ n + (fuel + 1)), h]
  rw [hs.runSteps_eq, runSteps, hstep] at hmore
  cases hmore

/-- An evaluation that agrees with a run at every fuel ends if and only if the run does. -/
theorem Core.Agrees.ends_iff {chunk : Chunk} {m : Machine σ} {o : Nat → Outcome σ Failure Value}
    (h : ∀ fuel, Agrees call chunk m fuel (o fuel)) :
    (∃ fuel, o fuel ≠ .exhausted) ↔ ∃ fuel, execute call fuel chunk m ≠ .exhausted := by
  constructor
  · rintro ⟨fuel, hne⟩
    have hagrees := h fuel
    cases ho : o fuel with
    | exhausted => exact absurd ho hne
    | ok v n =>
      rw [ho] at hagrees
      obtain ⟨k, hk⟩ := hagrees
      exact ⟨k, by rw [hk]; exact nofun⟩
    | failed f n =>
      rw [ho] at hagrees
      obtain ⟨k, report, hk⟩ := hagrees
      exact ⟨k, by rw [hk]; exact nofun⟩
    | unwound n =>
      rw [ho] at hagrees
      obtain ⟨k, s, fr, hk⟩ := hagrees
      exact ⟨k, by rw [hk]; exact nofun⟩
  · rintro ⟨fuel, hne⟩
    refine ⟨fuel, fun ho => hne ?_⟩
    have hagrees := h fuel
    rwa [ho] at hagrees

/-! ## Compiled programs -/

/-- **Compiled programs run as they are evaluated.** -/
theorem Machine.execute_agrees_eval {m m' : Machine σ} (hm : m.Reachable)
    (hgc : m.options.gcStepObjects = 0) (depth : Nat) {source name : String} {program : Program}
    {chunk : Chunk}
    (hcompile : compileProgram (Host.run depth) source name program m.beginEval = .ok chunk m')
    (hsafe : Safe (Host.run depth) m'.frames.size (Core.start chunk m')) :
    ∃ d : Core.Func, bindProgram (Host.run depth) source name program m.beginEval = .ok d m' ∧
      d.chunk = chunk ∧ ∀ sources : Core.Declarations,
        (∀ fuel, Core.Agrees (Host.run depth) chunk m' fuel
          (d.eval (Host.run depth) sources fuel m')) ∧
        ((∃ fuel, d.eval (Host.run depth) sources fuel m' ≠ .exhausted) ↔
          ∃ fuel, execute (Host.run depth) fuel chunk m' ≠ .exhausted) := by
  rw [compileProgram_eq, Run.bind_apply] at hcompile
  cases hbind : bindProgram (Host.run depth) source name program m.beginEval with
  | failed e n => rw [hbind] at hcompile; cases hcompile
  | unwound n => rw [hbind] at hcompile; cases hcompile
  | exhausted => rw [hbind] at hcompile; cases hcompile
  | ok d n =>
    rw [hbind] at hcompile
    cases hcompile
    obtain ⟨hscoped, hlocals, hgrows⟩ := scoped_of_bindProgram (Host.grows_run depth) hbind
    have heval := inEval_of_bindProgram rfl hbind
    have hready : Ready m' m' :=
      ⟨rfl, rfl, rfl, heval, by rw [hgrows.options]; exact hgc, hgrows.heap.sourced hm.sourced⟩
    refine ⟨d, rfl, rfl, fun sources => ?_⟩
    have hagrees :=
      Core.Func.agrees_eval (Host.contained_run depth) sources hscoped hlocals hready hsafe
    exact ⟨hagrees, Core.Agrees.ends_iff hagrees⟩

/-- A program with a function, a loop and an operator that may skip its operand. -/
def pickProgram : Program :=
  [.func {} "pick" [{ name := "flag", pos := {} }]
      [.branch (.name {} "flag") [.ret {} (some (.string {} "yes"))] .nothing],
   .assign {} "more" (.boolean {} true) false,
   .loop (.name {} "more") [.assign {} "more" (.boolean {} false) false],
   .expr (.call {} (.name {} "pick") [.logical {} .or (.name {} "more") (.boolean {} true)])]

theorem Machine.execute_agrees_eval_pick :
    ∃ (chunk : Chunk) (m' : Machine Unit),
      compileProgram (Host.run 2) "" "" pickProgram
        (Machine.new { gcStepObjects := 0 } ()).beginEval = .ok chunk m' ∧
      Safe (Host.run 2) m'.frames.size (Core.start chunk m') ∧
      ∃ d : Core.Func, d.chunk = chunk ∧ ∀ sources fuel,
        Core.Agrees (Host.run 2) chunk m' fuel (d.eval (Host.run 2) sources fuel m') := by
  obtain ⟨chunk, m', hcompile, hends⟩ := Outcome.exists_of_value?
    (o := compileProgram (Host.run 2) "" "" pickProgram
      (Machine.new { gcStepObjects := 0 } () : Machine Unit).beginEval)
    (fun c n => (runSteps (Host.run 2) n.frames.size 100 (Core.start c n)).value?.isSome = true)
      (by decide +kernel)
  obtain ⟨⟨v, q⟩, hends⟩ := Option.isSome_iff_exists.1 hends
  have hsafe := Safe.of_runSteps_ok (Outcome.eq_ok_of_value? hends)
  obtain ⟨d, -, hchunk, hagrees⟩ :=
    Machine.execute_agrees_eval (.new { gcStepObjects := 0 } ()) (by decide) 2 hcompile hsafe
  exact ⟨chunk, m', hcompile, hsafe, d, hchunk, fun sources => (hagrees sources).1⟩

end ScriptMachine
