import ScriptMachine.Compile
/-!
# Outcomes and the laws of runs

Ways to look at the end of a run: going on from its result (`Outcome.andThen`), and what holds of
the machine that it leaves (`Outcome.All`, `Outcome.onMachine`). Runs obey the laws of a monad, so
programs on a machine can be regrouped.
-/

namespace ScriptMachine

namespace Outcome

variable {σ ε α β γ : Type}

/-- Goes on from the result of a run. -/
def andThen (o : Outcome σ ε α) (f : α → Machine σ → Outcome σ ε β) : Outcome σ ε β :=
  match o with
  | .ok a m => f a m
  | .failed e m => .failed e m
  | .unwound m => .unwound m
  | .exhausted => .exhausted

/-- The end of a run with another result. -/
def map (f : α → β) (o : Outcome σ ε α) : Outcome σ ε β := o.andThen fun a m => .ok (f a) m

@[simp] theorem andThen_ok (a : α) (m : Machine σ) (f : α → Machine σ → Outcome σ ε β) :
    (Outcome.ok a m).andThen f = f a m := rfl

@[simp] theorem andThen_failed (e : ε) (m : Machine σ) (f : α → Machine σ → Outcome σ ε β) :
    (Outcome.failed e m).andThen f = .failed e m := rfl

@[simp] theorem andThen_unwound (m : Machine σ) (f : α → Machine σ → Outcome σ ε β) :
    (Outcome.unwound m : Outcome σ ε α).andThen f = .unwound m := rfl

@[simp] theorem andThen_exhausted (f : α → Machine σ → Outcome σ ε β) :
    (Outcome.exhausted : Outcome σ ε α).andThen f = .exhausted := rfl

@[simp] theorem map_ok (f : α → β) (a : α) (m : Machine σ) :
    (Outcome.ok a m : Outcome σ ε α).map f = .ok (f a) m := rfl

theorem andThen_assoc (o : Outcome σ ε α) (f : α → Machine σ → Outcome σ ε β)
    (g : β → Machine σ → Outcome σ ε γ) :
    (o.andThen f).andThen g = o.andThen fun a m => (f a m).andThen g := by
  cases o <;> rfl

/-- The value of a run, and what it leaves. -/
def value? (o : Outcome σ ε α) : Option (α × Machine σ) :=
  match o with
  | .ok a m => some (a, m)
  | .failed _ _ => none
  | .unwound _ => none
  | .exhausted => none

variable {o : Outcome σ ε α}

theorem eq_ok_of_value? {a : α} {m : Machine σ} (h : o.value? = some (a, m)) : o = .ok a m := by
  cases o with
  | ok a' m' => cases h; rfl
  | failed e m' | unwound m' | exhausted => cases h

/-- A run that is known to give a value, and what is known of it and of the machine that it
leaves. -/
theorem exists_of_value? (P : α → Machine σ → Prop) [∀ a m, Decidable (P a m)]
    (h : o.value?.any (fun r => decide (P r.1 r.2)) = true) : ∃ a m, o = .ok a m ∧ P a m := by
  obtain ⟨⟨a, m⟩, hr, h⟩ := (Option.any_eq_true _ _).1 h
  exact ⟨a, m, eq_ok_of_value? hr, of_decide_eq_true h⟩

/-- Something holds of the machine that a run leaves. -/
def All (P : Machine σ → Prop) (o : Outcome σ ε α) : Prop :=
  match o with
  | .ok _ m => P m
  | .failed _ m => P m
  | .unwound m => P m
  | .exhausted => True

theorem All.mono {P Q : Machine σ → Prop} (h : o.All P) (hPQ : ∀ m, P m → Q m) : o.All Q := by
  cases o with
  | ok a m | failed e m | unwound m => exact hPQ m h
  | exhausted => trivial

/-- What holds at the end of a run, by the way it ends. -/
def Leaves (ok : α → Machine σ → Prop) (failed : ε → Machine σ → Prop) (unwound : Machine σ → Prop)
    (o : Outcome σ ε α) : Prop :=
  match o with
  | .ok a n => ok a n
  | .failed e n => failed e n
  | .unwound n => unwound n
  | .exhausted => True

theorem leaves_iff_all {P : Machine σ → Prop} : o.Leaves (fun _ => P) (fun _ => P) P ↔ o.All P := by
  cases o <;> rfl

theorem Leaves.mono {ok ok' : α → Machine σ → Prop} {failed failed' : ε → Machine σ → Prop}
    {unwound unwound' : Machine σ → Prop} (h : o.Leaves ok failed unwound)
    (hok : ∀ a n, ok a n → ok' a n) (hfailed : ∀ e n, failed e n → failed' e n)
    (hunwound : ∀ n, unwound n → unwound' n) : o.Leaves ok' failed' unwound' := by
  cases o with
  | ok a n => exact hok a n h
  | failed e n => exact hfailed e n h
  | unwound n => exact hunwound n h
  | exhausted => trivial

/-- The end of a run on a machine that differs in part. -/
def onMachine (f : Machine σ → Machine σ) (o : Outcome σ ε α) : Outcome σ ε α :=
  match o with
  | .ok a m => .ok a (f m)
  | .failed e m => .failed e (f m)
  | .unwound m => .unwound (f m)
  | .exhausted => .exhausted

theorem andThen_ok_self (o : Outcome σ ε α) : o.andThen .ok = o := by
  cases o <;> rfl

end Outcome

/-! ## Runs as a lawful monad -/

namespace Run

variable {σ ε α β : Type}

theorem bind_apply (x : Run σ ε α) (f : α → Run σ ε β) (m : Machine σ) :
    (x >>= f) m = (x m).andThen fun a m' => f a m' := by
  show (match x m with
    | .ok a m => f a m
    | .failed e m => .failed e m
    | .unwound m => .unwound m
    | .exhausted => .exhausted) = _
  cases x m <;> rfl

theorem pure_apply (a : α) (m : Machine σ) : (pure a : Run σ ε α) m = .ok a m := rfl

instance : LawfulMonad (Run σ ε) :=
  LawfulMonad.mk' _
    (fun x => by
      funext m
      show (x >>= fun a => pure (id a)) m = x m
      rw [bind_apply]
      exact Outcome.andThen_ok_self (x m))
    (fun _ _ => rfl)
    (fun x f g => by
      funext m
      rw [bind_apply, bind_apply, bind_apply, Outcome.andThen_assoc]
      simp only [bind_apply])

end Run

/-! ## Steps of a compilation -/

namespace CompileM

variable {σ α β : Type}

theorem bind_apply (x : CompileM σ α) (f : α → CompileM σ β) (b : Build) (m : Machine σ) :
    (x >>= f) b m = (x b m).andThen fun p m' => f p.1 p.2 m' := by
  show (x b >>= fun p => f p.1 p.2) m = _
  exact Run.bind_apply _ _ _

theorem pure_apply (a : α) (b : Build) (m : Machine σ) :
    (pure a : CompileM σ α) b m = .ok (a, b) m := rfl

theorem lift_apply (x : Run σ SyntaxError α) (b : Build) (m : Machine σ) :
    (StateT.lift x : CompileM σ α) b m = (x m).map fun a => (a, b) := by
  show (x >>= fun a => pure (a, b)) m = _
  exact Run.bind_apply _ _ _

theorem get_apply (b : Build) (m : Machine σ) : (get : CompileM σ Build) b m = .ok (b, b) m := rfl

theorem modify_apply (f : Build → Build) (b : Build) (m : Machine σ) :
    (modify f : CompileM σ PUnit) b m = .ok (⟨⟩, f b) m := rfl

end CompileM

/-- The machine on which the loader of a module runs. -/
abbrev Machine.beginLoad {σ : Type} (m : Machine σ) (index : Nat) : Machine σ :=
  { m with modules := m.modules.beginLoad index }

/-- The machine behind the load of a module. -/
abbrev Machine.finishLoad {σ : Type} (m : Machine σ) (index : Nat) : Machine σ :=
  { m with modules := m.modules.finishLoad index }

end ScriptMachine
