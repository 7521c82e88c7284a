import ScriptMachine.Proofs.Reading
import ScriptMachine.Proofs.Resolution
/-!
# Where messages point

Every place that the grammar puts into a tree or into an error is the place of a token, and every
place that a compilation puts into an error comes from the tree.

* `parse_points`, `compileProgram_blames`: **whole programs**;
* `parse_stops`, `compileProgram_stage`: the reasons of the grammar, and those of a compilation.
-/

namespace ScriptMachine

variable {σ : Type} {Q : Position → Prop}

/-- Tokens that end with the input, in places of which something holds. -/
structure Grammar.Fit (Q : Position → Prop) (ts : List Token) : Prop where
  ends : ∃ t ∈ ts, t.kind = .endOfInput
  places (t : Token) (h : t ∈ ts) : Q t.pos

/-- A program, or the error that there is none, has its places from the tokens. -/
theorem parse_points {tokens : List Token} (h : Grammar.Fit Q tokens) :
    (∀ program, parse tokens = .ok program → Stmt.AllAt Q program) ∧ ∀ e, parse tokens = .error e →
    Q e.pos := by
  have hstatements :=
    (Grammar.sound_levels Grammar.maxNesting).statements Grammar.maxExprDepth false
      (tokens.length + 1) tokens (Nat.lt_succ_self _)
  rw [parse_eq]
  generalize (Grammar.levels Grammar.maxNesting).statements Grammar.maxExprDepth false
    (tokens.length + 1) tokens = result at hstatements ⊢
  cases hstatements with
  | @error e taken rest split before place =>
    refine ⟨nofun, fun e he => ?_⟩
    cases he
    -- The end of the input is not among the tokens before the error, so there is a token at the
    -- error.
    obtain ⟨t, ht, heof⟩ := h.ends
    rw [split, List.mem_append] at ht
    cases rest with
    | nil => exact absurd heof (before t (ht.resolve_right nofun))
    | cons u rest =>
      rw [place]
      exact h.places u (by simp [split])
  | ok split _ hlines =>
    refine ⟨fun program hok => ?_, nofun⟩
    cases hok
    exact hlines.1.places fun t ht => h.places t (by simp [split, ht])

/-- Where there is no program, the grammar stopped at one of the tokens, or behind all of them. -/
theorem parse_stops {tokens : List Token} {e : SyntaxError} (h : parse tokens = .error e) :
    ∃ taken rest, tokens = taken ++ rest ∧ Grammar.Stops (Grammar.peek rest).kind e.fault := by
  have hstatements :=
    (Grammar.sound_levels Grammar.maxNesting).statements Grammar.maxExprDepth false
      (tokens.length + 1) tokens (Nat.lt_succ_self _)
  rw [parse_eq] at h
  generalize (Grammar.levels Grammar.maxNesting).statements Grammar.maxExprDepth false
    (tokens.length + 1) tokens = result at hstatements h
  cases hstatements with
  | error split _ _ stops =>
    cases h
    exact ⟨_, _, split, stops⟩
  | ok => exact nomatch h

variable (call : Callback σ) (source name : String) {program : Program} {m k : Machine σ}
    {e : SyntaxError}

/-- A program is rejected only in places of its tree, and for reasons of the last stage. -/
theorem compileProgram_rejects (h : Stmt.AllAt Q program)
    (hfailed : compileProgram call source name program m = .failed e k) :
    Q e.pos ∧ e.stage = .compile := by
  have hends : Draft.Concludes (.places call Q) _ _ (bindProgram call source name program m) :=
    Draft.concludes_watch h trivial
  rw [compileProgram_eq, Run.bind_apply] at hfailed
  generalize bindProgram call source name program m = o at hends hfailed
  cases hends with
  | failed n later _ place stage =>
    cases hfailed
    exact ⟨place, stage⟩
  | ok n later hok | unwound later found gives | exhausted => exact nomatch hfailed

theorem compileProgram_blames (h : Stmt.AllAt Q program)
    (hfailed : compileProgram call source name program m = .failed e k) : Q e.pos :=
  (compileProgram_rejects call source name h hfailed).1

theorem compileProgram_stage (hfailed : compileProgram call source name program m = .failed e k) :
    e.stage = .compile :=
  (compileProgram_rejects call source name
    (Stmt.allAt_of_forall (Q := fun _ => True) (fun _ => trivial) program) hfailed).2

end ScriptMachine
