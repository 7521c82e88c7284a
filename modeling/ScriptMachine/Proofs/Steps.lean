import ScriptMachine.Execute
/-!
# Chains of instructions

The states that a run of bytecode passes through. An instruction that calls a native function and
the return from that function count as one step.

* `Advances`, `Steps`: one step, and a number of them;
* `Steps.runSteps_eq`: a run goes on from wherever its steps lead;
* `Fails`, `fails_of_runSteps`: how a run may fail;
* `Overflows`, `Safe`: the limits on stack and calls, and runs that keep within them.
-/

namespace ScriptMachine

variable {σ : Type} {call : Callback σ} {entry : Nat} {m m' m'' : Machine σ}

/-- The innermost call goes on at another instruction. -/
theorem Machine.frames_jump {outer : Array Frame} {f : Frame} (h : m.frames = outer.push f)
    (target : Nat) : (m.jump target).frames = outer.push { f with pc := target } := by
  simp only [Machine.jump, h, Array.size_push, Nat.add_sub_cancel]
  apply Array.ext
  · simp
  · intro i hi hi'
    rw [Array.getElem_modify]
    by_cases heq : outer.size = i
    · subst heq
      simp
    · have hlt : i < outer.size := by simp at hi'; omega
      simp [heq, Array.getElem_push_lt hlt]

/-- The machine on which a native function runs. -/
abbrev Machine.enterNative (m : Machine σ) : Machine σ :=
  { m with nativeDepth := m.nativeDepth + 1 }

/-- The machine that the result of a native function is handed to. -/
abbrev Machine.leaveNative (m : Machine σ) : Machine σ :=
  { m with nativeDepth := m.nativeDepth - 1 }

/-- A machine at the beginning of an evaluation. -/
abbrev Machine.beginEval (m : Machine σ) : Machine σ := { m with report := "", inEval := true }

/-- The machine with a program's code about to run. -/
abbrev Core.start (chunk : Chunk) (m : Machine σ) : Machine σ :=
  { m with frames := m.frames.push { chunk, base := m.stack.size } }

/-- The machine that a step leaves. -/
def Step.machine : Step σ → Machine σ
  | .next m | .done _ m | .failed _ m | .native _ _ _ m => m

/-- The machine that a plain step leads to. -/
def Step.next? (s : Step σ) : Option (Machine σ) :=
  match s with
  | .next m => some m
  | .done _ _ => none
  | .failed _ _ => none
  | .native _ _ _ _ => none

/-- The native function that a step asks for, with its arguments, the place of the callee and the
machine. -/
def Step.native? (s : Step σ) : Option (NativeFunction (Native σ) × List Value × Nat × Machine σ) :=
  match s with
  | .next _ => none
  | .done _ _ => none
  | .failed _ _ => none
  | .native f args callee m => some (f, args, callee, m)

theorem Step.eq_next_of_next? {s : Step σ} (h : s.next? = some m) : s = .next m := by
  cases s with
  | next m' => cases h; rfl
  | done v m' | failed f m' | native f args callee m' => cases h

theorem Step.eq_native_of_native? {s : Step σ}
    {q : NativeFunction (Native σ) × List Value × Nat × Machine σ} (h : s.native? = some q) :
    s = .native q.1 q.2.1 q.2.2.1 q.2.2.2 := by
  cases s with
  | next m' | done v m' | failed f m' => cases h
  | native f args callee m' => cases h; rfl

/-- One instruction leads from a machine to another, with the native function that it calls. -/
inductive Advances (call : Callback σ) (entry : Nat) (m : Machine σ) : Machine σ → Prop
  | next {m' : Machine σ} (h : m.step entry = .next m') : Advances call entry m m'
  | native {f : NativeFunction (Native σ)} {args : List Value} {callee : Nat} {v : Value}
    {before after m' : Machine σ} (asks : m.step entry = .native f args callee before)
    (runs : call (f.code args) before.enterNative = .ok v after)
    (resumes : after.leaveNative.resume f.name callee v = .ok m') :
    Advances call entry m m'

/-- A number of instructions lead from a machine to another. -/
inductive Steps (call : Callback σ) (entry : Nat) : Nat → Machine σ → Machine σ → Prop
  | refl (m : Machine σ) : Steps call entry 0 m m
  | cons {n : Nat} {m m' m'' : Machine σ} (head : Advances call entry m m')
    (tail : Steps call entry n m' m'') : Steps call entry (n + 1) m m''

/-- The next instruction fails, or the native function that it calls returns a value that is
refused. -/
inductive Fails (call : Callback σ) (entry : Nat) (m : Machine σ) (e : Failure) : Machine σ → Prop
  | step {m' : Machine σ} (h : m.step entry = .failed e m') : Fails call entry m e m'
  | resume {f : NativeFunction (Native σ)} {args : List Value} {callee : Nat} {v : Value}
    {before after m' : Machine σ} (asks : m.step entry = .native f args callee before)
    (runs : call (f.code args) before.enterNative = .ok v after)
    (refuses : after.leaveNative.resume f.name callee v = .error (e, m')) :
    Fails call entry m e m'

theorem Advances.runSteps_eq (h : Advances call entry m m') (fuel : Nat) :
    runSteps call entry (fuel + 1) m = runSteps call entry fuel m' := by
  cases h with
  | next h => rw [runSteps, h]
  | native asks runs resumes => rw [runSteps, asks]; simp only [runs, resumes]

namespace Steps

variable {n k : Nat}

theorem single (h : Advances call entry m m') : Steps call entry 1 m m' := .cons h (.refl m')

theorem trans (h : Steps call entry n m m') (h' : Steps call entry k m' m'') :
    Steps call entry (n + k) m m'' := by
  induction h with
  | refl m => rwa [Nat.zero_add]
  | cons head _ ih => rw [Nat.add_right_comm]; exact .cons head (ih h')

/-- A run goes on from wherever its steps lead. -/
theorem runSteps_eq (h : Steps call entry n m m') (fuel : Nat) :
    runSteps call entry (n + fuel) m = runSteps call entry fuel m' := by
  induction h with
  | refl m => rw [Nat.zero_add]
  | cons head _ ih => rw [Nat.add_right_comm, head.runSteps_eq, ih]

end Steps

/-- A run that fails does so at one of its instructions. -/
theorem fails_of_runSteps {fuel : Nat} {e : Failure}
    (h : runSteps call entry fuel m = .failed e m') :
    ∃ n p, n < fuel ∧ Steps call entry n m p ∧ Fails call entry p e m' := by
  induction fuel generalizing m with
  | zero => cases h
  | succ fuel ih =>
    have hnext {p : Machine σ} (head : Advances call entry m p)
        (h : runSteps call entry fuel p = .failed e m') :
            ∃ n p, n < fuel + 1 ∧ Steps call entry n m p ∧ Fails call entry p e m' := by
      obtain ⟨n, q, hlt, hsteps, hfails⟩ := ih h
      exact ⟨n + 1, q, Nat.succ_lt_succ hlt, .cons head hsteps, hfails⟩
    rw [runSteps] at h
    cases hstep : m.step entry with
    | next p => simp only [hstep] at h; exact hnext (.next hstep) h
    | done v p => simp only [hstep] at h; cases h
    | failed f p =>
      simp only [hstep] at h
      cases h
      exact ⟨0, m, Nat.succ_pos _, .refl m, .step hstep⟩
    | native f args callee before =>
      simp only [hstep] at h
      split at h
      · rename_i v after hruns
        split at h
        · rename_i p hresumes
          exact hnext (.native hstep hruns hresumes) h
        · rename_i hrefuses
          cases h
          exact ⟨0, m, Nat.succ_pos _, .refl m, .resume hstep hruns hrefuses⟩
      · cases h
      · cases h

theorem Fails.runSteps_eq {e : Failure} (h : Fails call entry m e m') (fuel : Nat) :
    runSteps call entry (fuel + 1) m = .failed e m' := by
  cases h with
  | step h => rw [runSteps, h]
  | resume asks runs refuses => rw [runSteps, asks]; simp only [runs, refuses]

/-! ## Fuel -/

/-- A run that ends within its fuel ends in the same way with more. -/
theorem runSteps_succ {fuel : Nat} (h : runSteps call entry fuel m ≠ .exhausted) :
    runSteps call entry (fuel + 1) m = runSteps call entry fuel m := by
  induction fuel generalizing m with
  | zero => exact absurd rfl h
  | succ fuel ih =>
    rw [runSteps] at h
    rw [runSteps, runSteps]
    cases hstep : m.step entry with
    | next m' => simp only [hstep] at h ⊢; exact ih h
    | done v m' | failed f m' => rfl
    | native f args callee m₁ =>
      simp only [hstep] at h ⊢
      cases hcall : call (f.code args) m₁.enterNative with
      | unwound m₂ | exhausted => rfl
      | failed e m₂ => exact e.elim
      | ok v m₂ =>
        simp only [hcall] at h ⊢
        cases hres : m₂.leaveNative.resume f.name callee v with
        | error e => rfl
        | ok m₃ => simp only [hres] at h ⊢; exact ih h

theorem runSteps_of_le {fuel fuel' : Nat} (h : runSteps call entry fuel m ≠ .exhausted)
    (hle : fuel ≤ fuel') : runSteps call entry fuel' m = runSteps call entry fuel m := by
  induction hle with
  | refl => rfl
  | step _ ih => rw [runSteps_succ (by rwa [ih]), ih]

/-- A run that uses up its fuel uses up less as well. -/
theorem runSteps_exhausted_of_le {fuel fuel' : Nat} (h : runSteps call entry fuel' m = .exhausted)
    (hle : fuel ≤ fuel') : runSteps call entry fuel m = .exhausted := by
  refine Classical.byContradiction fun hne => ?_
  exact hne ((runSteps_of_le hne hle).symm.trans h)

/-! ## Limits -/

/-- The next instruction would break the limit on the stack or on calls. -/
def Overflows (entry : Nat) (m : Machine σ) : Prop :=
  ∃ m', m.step entry = .failed .panic m' ∧ m'.message = "Stack overflow."

/-- No instruction of a run breaks a limit. -/
def Safe (call : Callback σ) (entry : Nat) (m : Machine σ) : Prop :=
  ∀ n m', Steps call entry n m m' → ¬ Overflows entry m'

theorem Safe.not_overflows (h : Safe call entry m) : ¬ Overflows entry m := h 0 m (.refl m)

theorem Safe.of_steps {n : Nat} (h : Safe call entry m) (hs : Steps call entry n m m') :
    Safe call entry m' :=
  fun k m'' hk => h (n + k) m'' (hs.trans hk)

end ScriptMachine
