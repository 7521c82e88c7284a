import ScriptMachine.Proofs.Modules
/-!
# Between evaluations

Evaluations do not nest, so a program starts on an empty stack, and takes away what it has left at
its end. A host that gave up in the middle of an evaluation leaves a machine that counts as
evaluating for good.

* `Path.bare`: **the stack and the calls are empty between evaluations**;
* `Path.vacant`: modules that are still to be loaded have no functions.
-/

namespace ScriptMachine

variable {σ : Type}

/-! ## What is in progress -/

/-- Nothing is in progress but compilations and loaders. -/
def Quiet (ts : List (Task σ)) : Prop :=
  ∀ t ∈ ts, t = .compilation ∨ ∃ name index body, t = .loader name index body

/-- A program is running. -/
def Running (ts : List (Task σ)) : Prop := ∃ calls height, .program calls height ∈ ts

/-- What is in progress is in order: there is at most one evaluation, a program runs for it and from
an empty stack, and native functions run for the program. -/
def Ordered : List (Task σ) → Prop
  | [] => True
  | .compilation :: ts | .loader _ _ _ :: ts => Ordered ts
  | .evaluation _ :: ts => Quiet ts
  | .result _ :: ts => ∃ guarded rest, ts = .evaluation guarded :: rest ∧ Quiet rest
  | .program calls height :: ts =>
    calls = 0 ∧ height = 0 ∧ ∃ guarded rest, ts = .evaluation guarded :: rest ∧ Quiet rest
  | .native _ _ :: ts => (∃ calls height rest, ts = .program calls height :: rest) ∧ Ordered ts

section

variable {ts : List (Task σ)}

theorem Quiet.ordered (h : Quiet ts) : Ordered ts := by
  induction ts with
  | nil => trivial
  | cons t ts ih =>
    have hts : Ordered ts := ih fun t ht => h t (List.mem_cons_of_mem _ ht)
    rcases h t List.mem_cons_self with rfl | ⟨name, index, body, rfl⟩ <;> exact hts

theorem Quiet.not_running (h : Quiet ts) : ¬ Running ts := by
  rintro ⟨calls, height, hmem⟩
  rcases h _ hmem with h | ⟨_, _, _, h⟩ <;> cases h

variable {t : Task σ}

theorem Quiet.cons (h : Quiet ts)
    (ht : t = .compilation ∨ ∃ name index body, t = .loader name index body) : Quiet (t :: ts) := by
  intro t' ht'
  rcases List.mem_cons.1 ht' with rfl | ht'
  · exact ht
  · exact h t' ht'

theorem Quiet.tail (h : Quiet (t :: ts)) : Quiet ts :=
  fun t' ht' => h t' (List.mem_cons_of_mem _ ht')

theorem not_quiet (hmem : t ∈ ts)
    (ht : t ≠ .compilation ∧ ∀ name index body, t ≠ .loader name index body) : ¬ Quiet ts := by
  intro h
  rcases h t hmem with h | ⟨name, index, body, h⟩
  · exact ht.1 h
  · exact ht.2 name index body h

theorem Ordered.tail (h : Ordered (t :: ts)) : Ordered ts := by
  cases t with
  | compilation | loader name index body => exact h
  | evaluation guarded => exact h.ordered
  | native f callee => exact h.2
  | result result =>
    obtain ⟨guarded, rest, rfl, hrest⟩ := h
    exact hrest
  | program calls height =>
    obtain ⟨-, -, guarded, rest, rfl, hrest⟩ := h
    exact hrest

theorem running_cons (ht : ∀ calls height, t ≠ .program calls height) :
    Running (t :: ts) ↔ Running ts := by
  refine exists_congr fun calls => exists_congr fun height => ?_
  rw [List.mem_cons, or_iff_right (Ne.symm (ht calls height))]

end

/-! ## What is in progress, and the machine -/

/-- There are no values on the stack and no calls. -/
def Machine.Bare (m : Machine σ) : Prop := m.stack = #[] ∧ m.frames = #[]

/-- Machines that agree on stack and calls, and on whether they evaluate. -/
def Machine.Alike (m n : Machine σ) : Prop :=
  n.inEval = m.inEval ∧ n.stack = m.stack ∧ n.frames = m.frames

theorem Machine.Alike.bare {m n : Machine σ} (h : m.Alike n) (hm : m.Bare) : n.Bare :=
  ⟨h.2.1.trans hm.1, h.2.2.trans hm.2⟩

theorem Machine.bare_settle (m : Machine σ) : (m.settle 0 0).Bare := by
  constructor <;> simp [settle]

/-- What is in progress fits the machine: nothing but compilations and loaders if it does not
evaluate, and the stack is empty then, as it is before a program starts and after it. -/
structure Point.Fair (p : Point σ) : Prop where
  ordered : Ordered p.tasks
  idle : p.machine.inEval = false → Quiet p.tasks ∧ p.machine.Bare
  waiting : p.unwinding = false → ¬ Running p.tasks → Quiet p.tasks ∨ p.machine.Bare

namespace Point.Fair

variable {t : Task σ} {ts : List (Task σ)} {m n : Machine σ}

theorem alike (h : Fair ⟨ts, false, m⟩) (ha : m.Alike n) : Fair ⟨ts, false, n⟩ where
  ordered := h.ordered
  idle hin := (h.idle (ha.1.symm.trans hin)).imp_right ha.bare
  waiting hu hr := (h.waiting hu hr).imp_right ha.bare

theorem of_running (hin : m.inEval = true) (hordered : Ordered ts) (hrunning : Running ts) :
    Fair ⟨ts, false, m⟩ :=
  ⟨hordered, fun hfalse => (nomatch hin.symm.trans hfalse), fun _ hr => absurd hrunning hr⟩

theorem of_bare (hin : m.inEval = true) (hordered : Ordered ts) (hbare : m.Bare) :
    Fair ⟨ts, false, m⟩ :=
  ⟨hordered, fun hfalse => (nomatch hin.symm.trans hfalse), fun _ _ => .inr hbare⟩

theorem push (h : Fair ⟨ts, false, m⟩) (ha : m.Alike n)
    (ht : t = .compilation ∨ ∃ name index body, t = .loader name index body) :
    Fair ⟨t :: ts, false, n⟩ where
  ordered := by
    rcases ht with rfl | ⟨name, index, body, rfl⟩ <;> exact h.ordered
  idle hin := (h.idle (ha.1.symm.trans hin)).imp (·.cons ht) ha.bare
  waiting hu hr := by
    have hts : ¬ Running ts := by
      rintro ⟨calls, height, hmem⟩
      exact hr ⟨calls, height, List.mem_cons_of_mem _ hmem⟩
    exact (h.waiting hu hts).imp (·.cons ht) ha.bare

theorem pop (h : Fair ⟨t :: ts, false, m⟩) (ha : m.Alike n)
    (ht : ∀ calls height, t ≠ .program calls height := by simp) : Fair ⟨ts, false, n⟩ where
  ordered := h.ordered.tail
  idle hin := (h.idle (ha.1.symm.trans hin)).imp Quiet.tail ha.bare
  waiting hu hr := (h.waiting hu (mt (running_cons ht).1 hr)).imp Quiet.tail ha.bare

/-- A machine evaluates while anything but compilations and loaders is in progress. -/
theorem inEval (h : Fair ⟨ts, false, m⟩) (hmem : t ∈ ts)
    (ht : t ≠ .compilation ∧ ∀ name index body, t ≠ .loader name index body := by simp) :
    m.inEval = true := by
  cases hin : m.inEval with
  | true => rfl
  | false => exact absurd (h.idle hin).1 (not_quiet hmem ht)

/-- Before a program starts and after it the stack is empty. -/
theorem bare {guarded : Bool} (h : Fair ⟨t :: .evaluation guarded :: ts, false, m⟩)
    (ht : ∀ calls height, t ≠ .program calls height := by simp) : m.Bare := by
  have hordered : Quiet ts := h.ordered.tail
  have hrunning : ¬ Running (t :: .evaluation guarded :: ts) := by
    rw [running_cons ht, running_cons (by simp)]
    exact hordered.not_running
  refine (h.waiting rfl hrunning).resolve_left (not_quiet (t := .evaluation guarded) ?_ (by simp))
  exact List.mem_cons_of_mem _ List.mem_cons_self

/-- A program ends on an empty stack. -/
theorem settle {result : Except Failure Value} {calls height : Nat}
    (h : Fair ⟨.program calls height :: ts, false, m⟩) (hin : n.inEval = true) :
    Fair ⟨.result result :: ts, false, n.settle calls height⟩ := by
  obtain ⟨rfl, rfl, guarded, rest, rfl, hrest⟩ := h.ordered
  exact .of_bare hin ⟨guarded, rest, rfl, hrest⟩ n.bare_settle

end Point.Fair

namespace Machine

theorem alike_of_standing {m n : Machine σ} (h : n.standing = m.standing) : m.Alike n :=
  ⟨congrArg (·.inEval) h, congrArg (·.stack) h, congrArg (·.frames) h⟩

theorem inEval_of_step {m : Machine σ} {calls : Nat} {s : Step σ} (steps : m.step calls = s) :
    s.machine.inEval = m.inEval :=
  congrArg (·.inEval) (surroundings_of_step steps)

theorem inEval_of_resume {m : Machine σ} {name : String} {callee : Nat} {v : Value}
    {c : Checked σ (Machine σ)} (resumes : m.resume name callee v = c) :
    (Step.ofChecked c).machine.inEval = m.inEval :=
  congrArg (·.inEval) (surroundings_of_resume resumes)

theorem alike_conclude (m : Machine σ) (result : Except Failure Value) :
    ({ m with inEval := false }).Alike (m.conclude result) :=
  have h := alike_of_standing (m.standing_conclude result)
  h

end Machine

/-- Moves keep what is in progress and the machine in step. -/
theorem Moves.fair {p q : Point σ} {e : Event σ} (h : Moves p e q) (hp : p.Fair) : q.Fair := by
  cases h with
  | reply _ plain performed => exact hp.alike (Machine.alike_of_standing (plain.standing performed))
  | write _ host | register _ name body | refuse _ evaluates | decode _ | makeString s
  | makeFunction f =>
    exact hp.alike ⟨rfl, rfl, rfl⟩
  | @install _ m _ handle name arity body =>
    refine hp.alike ?_
    unfold Machine.setFunction
    split <;> exact ⟨rfl, rfl, rfl⟩
  | evaluate _ guarded rests =>
    obtain ⟨hquiet, hbare⟩ := hp.idle rests
    exact ⟨hquiet, nofun, fun _ _ => .inr hbare⟩
  | compile _ => exact hp.push ⟨rfl, rfl, rfl⟩ (.inl rfl)
  | unwind _ => exact ⟨hp.ordered, hp.idle, nofun⟩
  | sealed => exact hp.pop ⟨rfl, rfl, rfl⟩
  | @resume _ m n f callee v resumes =>
    have hin := (Machine.inEval_of_resume resumes).trans (hp.inEval List.mem_cons_self)
    obtain ⟨⟨calls, height, rest, rfl⟩, hordered⟩ := hp.ordered
    exact .of_running hin hordered ⟨calls, height, List.mem_cons_self⟩
  | @spoil _ m n f callee v calls height e fails =>
    have hin : n.inEval = true :=
      (Machine.inEval_of_resume fails).trans (hp.inEval List.mem_cons_self)
    have hprogram : Point.Fair ⟨_ :: _, false, m⟩ := hp.pop ⟨rfl, rfl, rfl⟩
    exact Point.Fair.settle (n := n.reportFailure calls e) hprogram hin
  | load found => exact hp.push ⟨rfl, rfl, rfl⟩ (.inr ⟨_, _, _, rfl⟩)
  | compiled _ b source name chunk | rejected _ source name e =>
    exact hp.pop ⟨rfl, rfl, rfl⟩
  | @reject _ m guarded e report =>
    have hin : m.inEval = true := hp.inEval (List.mem_cons_of_mem _ List.mem_cons_self)
    exact .of_bare hin ⟨guarded, _, rfl, hp.ordered⟩ hp.bare
  | @start ts m n guarded b commits chunk =>
    have hin : m.inEval = true := hp.inEval (List.mem_cons_of_mem _ List.mem_cons_self)
    have hbare : m.Bare := hp.bare
    subst commits
    exact .of_running hin ⟨congrArg Array.size hbare.2, congrArg Array.size hbare.1, guarded, _,
      rfl, hp.ordered⟩ ⟨_, _, List.mem_cons_self⟩
  | @step _ m n calls height steps =>
    have hin := (Machine.inEval_of_step steps).trans (hp.inEval List.mem_cons_self)
    exact .of_running hin hp.ordered ⟨calls, height, List.mem_cons_self⟩
  | @call _ m n calls height f args callee steps =>
    have hin := (Machine.inEval_of_step steps).trans (hp.inEval List.mem_cons_self)
    exact .of_running hin ⟨⟨calls, height, _, rfl⟩, hp.ordered⟩
      ⟨calls, height, List.mem_cons_of_mem _ List.mem_cons_self⟩
  | finish steps =>
    exact hp.settle ((Machine.inEval_of_step steps).trans (hp.inEval List.mem_cons_self))
  | @fail _ m n calls height e steps =>
    exact Point.Fair.settle (n := n.reportFailure calls e) hp
      ((Machine.inEval_of_step steps).trans (hp.inEval List.mem_cons_self))
  | @conclude ts m result guarded =>
    have hbare : (m.conclude result).Bare := (m.alike_conclude result).bare hp.bare
    have hquiet : Quiet ts := hp.ordered.tail
    exact ⟨hquiet.ordered, fun _ => ⟨hquiet, hbare⟩, fun _ _ => .inl hquiet⟩
  | abandon task goes =>
    exact ⟨hp.ordered.tail, fun hin => (hp.idle hin).imp_left Quiet.tail, nofun⟩
  | recover =>
    have hquiet : Quiet _ := hp.ordered
    exact ⟨hquiet.ordered, fun _ => ⟨hquiet, rfl, rfl⟩, fun _ _ => .inl hquiet⟩
  | escape => exact ⟨trivial, hp.idle, fun _ _ => .inl nofun⟩

/-! ## Modules that are still to be loaded -/

namespace Registry

variable {l : Type} {r : Registry l}

/-- Modules that are still to be loaded have no functions. -/
def Vacant (r : Registry l) : Prop :=
  ∀ (i : Nat) e, r.entries[i]? = some e → e.state.status = .registered → e.functions = []

/-- A change of one module keeps that, if it does for the module. -/
theorem Vacant.modify (h : r.Vacant) {index : Nat} {f : ModuleEntry l → ModuleEntry l}
    (hf : ∀ e, r.entries[index]? = some e → (f e).state.status = .registered →
      (f e).functions = []) :
    ({ entries := r.entries.modify index f } : Registry l).Vacant := by
  intro i e he hstatus
  rw [Array.getElem?_modify] at he
  split at he
  · rename_i hi
    subst hi
    obtain ⟨e', he', rfl⟩ := Option.map_eq_some_iff.1 he
    exact hf e' he' hstatus
  · exact h i e he hstatus

theorem Vacant.addLoader (h : r.Vacant) (name : String) (body : l) :
    (r.addLoader name body).Vacant := by
  unfold Registry.addLoader
  split
  · intro i e he hstatus
    rw [Array.getElem?_push] at he
    split at he
    · cases he
      rfl
    · exact h i e he hstatus
  · refine h.modify fun e he hstatus => ?_
    cases hstate : e.state with
    | registered body' => exact h _ e he (by rw [hstate]; rfl)
    | loading | loaded => simp [hstate, ModuleState.status] at hstatus

variable {handle : ModuleHandle}

theorem accepts_iff : r.accepts handle = true ↔
    ∃ e, r.entries[handle.index.toNat]? = some e ∧ e.generation = handle.generation ∧
      e.state.status = .loading := by
  unfold accepts
  cases r.entries[handle.index.toNat]? with
  | none | some e => simp

theorem status_of_accepts (h : r.accepts handle = true) {e : ModuleEntry l}
    (he : r.entries[handle.index.toNat]? = some e) : e.state.status = .loading := by
  obtain ⟨e', he', -, hstatus⟩ := accepts_iff.1 h
  obtain rfl := Option.some.inj (he.symm.trans he')
  exact hstatus

theorem Vacant.install (h : r.Vacant) (haccepts : r.accepts handle = true) (name : String)
    (v : Value) : (r.install handle name v).Vacant := by
  refine h.modify fun e he hstatus => ?_
  have hstatus : e.state.status = .registered := hstatus
  rw [status_of_accepts haccepts he] at hstatus
  cases hstatus

end Registry

theorem Moves.vacant {p q : Point σ} {e : Event σ} (h : Moves p e q)
    (hp : p.machine.modules.Vacant) : q.machine.modules.Vacant := by
  obtain ⟨hmodules, -, -⟩ | ⟨name, body, -, -, hmodules⟩ | ⟨handle, name, v, -, -,
    haccepts, hmodules⟩ | ⟨name, index, handle, body, -, -, -, hmodules⟩ | ⟨name, index, body, -,
      -, hmodules⟩ |
    ⟨name, index, body, -, -, hmodules⟩ := h.modules_cases <;> rw [hmodules]
  · exact hp
  · exact hp.addLoader name body
  · exact hp.install haccepts name v
  · exact hp.modify fun _ _ h => nomatch h
  · exact hp.modify fun _ _ h => nomatch h
  · exact hp

namespace Path

variable {options : Options} {host : σ} {hist : History σ} {q : Point σ}

variable (h : Path (.new options host) hist q)

include h

theorem fair : q.Fair := by
  induction h with
  | start => exact ⟨trivial, fun _ => ⟨nofun, rfl, rfl⟩, fun _ _ => .inl nofun⟩
  | move _ moves ih => exact moves.fair ih

/-- **The stack and the calls are empty between evaluations.** -/
theorem bare (hin : q.machine.inEval = false) : q.machine.Bare :=
  (h.fair.idle hin).2

/-- Modules that are still to be loaded have no functions. -/
theorem vacant : q.machine.modules.Vacant := by
  induction h with
  | start => exact fun i e he => absurd he Machine.modules_new
  | move _ moves ih => exact moves.vacant ih

end Path

end ScriptMachine
