import ScriptMachine.Proofs.Conduct
/-!
# Runs of host programs

A run of a host program is made of moves. What a program adds at the end of its compilation is what
was drafted since the compilation began, at an earlier point of the same course of events.

* `Course`: a path on which compilations end with what they have drafted;
* `Host.conducts_run`: **runs of host programs continue the course of events**, wherever the host
  has its turn.
-/

namespace ScriptMachine

variable {σ ε α : Type}

/-! ## Courses -/

/-- Programs can name the same variables and imports. -/
structure Machine.SameNames (m n : Machine σ) : Prop where
  names : n.globals.names = m.globals.names
  imports : n.imports = m.imports

/-- All points so far, the last first. -/
def History.points (hist : History σ) (q : Point σ) : List (Point σ) := q :: hist.map Prod.fst

/-- A compilation that comes to a good end. It began at an earlier point, with the same tasks around
it. -/
structure History.Compiles (hist : History σ) (ts : List (Task σ)) (d : Draft σ) (fuel : Nat)
    (source name : String) (m : Machine σ) (chunk : Chunk) : Prop where
  began : ⟨.compilation :: ts, false, m⟩ ∈ hist.points ⟨.compilation :: ts, false, d.machine⟩
  later : (Draft.start source name m).Later (Host.run fuel) d
  compiled : compileSource (Host.run fuel) source name m = .ok chunk d.commit

/-- The points that runs lead to. Nothing gets a name but at the end of a compilation. -/
inductive Course (p : Point σ) : History σ → Point σ → Prop
  | start : Course p [] p
  | move {hist : History σ} {q r : Point σ} {e : Event σ} (before : Course p hist q)
    (moves : Moves q e r) (keeps : q.machine.SameNames r.machine) : Course p ((q, e) :: hist) r
  | compiled {hist : History σ} {ts : List (Task σ)} {d : Draft σ} {fuel : Nat}
    {source name : String} {m : Machine σ} {chunk : Chunk}
    (before : Course p hist ⟨.compilation :: ts, false, d.machine⟩)
    (compiles : hist.Compiles ts d fuel source name m chunk) (turn : HostTurn ts) :
    Course p ((⟨.compilation :: ts, false, d.machine⟩,
      .replied (.compile source name) (.ok chunk)) :: hist) ⟨ts, false, d.commit⟩
  | started {hist : History σ} {ts : List (Task σ)} {guarded : Bool} {d : Draft σ} {fuel : Nat}
    {source name : String} {m : Machine σ} {chunk : Chunk}
    (before : Course p hist ⟨.compilation :: .evaluation guarded :: ts, false, d.machine⟩)
    (compiles : hist.Compiles (.evaluation guarded :: ts) d fuel source name m chunk) :
    Course p ((⟨.compilation :: .evaluation guarded :: ts, false, d.machine⟩, .worked) :: hist)
      ⟨.program d.commit.frames.size d.commit.stack.size :: .evaluation guarded :: ts, false,
        Core.start chunk d.commit⟩

theorem Course.path {p q : Point σ} {hist : History σ} (h : Course p hist q) : Path p hist q := by
  induction h with
  | start => exact .start
  | move _ moves _ ih => exact ih.move moves
  | @compiled _ _ d _ source name _ chunk _ _ turn ih =>
    exact ih.move (.compiled turn d.build source name chunk)
  | started _ _ ih => exact ih.move (.start rfl _)

/-- Every point so far was led to. -/
theorem Course.of_mem {p q r : Point σ} {hist : History σ} (h : Course p hist q)
    (hr : r ∈ hist.points q) : ∃ hist', Course p hist' r := by
  induction h with
  | start => exact ⟨[], List.mem_singleton.1 hr ▸ .start⟩
  | move before moves keeps ih =>
    rcases List.mem_cons.1 hr with rfl | hr
    · exact ⟨_, before.move moves keeps⟩
    · exact ih hr
  | compiled before compiles turn ih =>
    rcases List.mem_cons.1 hr with rfl | hr
    · exact ⟨_, before.compiled compiles turn⟩
    · exact ih hr
  | started before compiles ih =>
    rcases List.mem_cons.1 hr with rfl | hr
    · exact ⟨_, before.started compiles⟩
    · exact ih hr

/-- However a point was led to, the course can be continued to another one. -/
def Continues (q r : Point σ) : Prop :=
  ∀ ⦃p : Point σ⦄ ⦃hist : History σ⦄, Course p hist q →
    ∃ hist', Course p hist' r ∧ hist.points q <:+ hist'.points r

namespace Continues

variable {p q r : Point σ}

theorem refl (q : Point σ) : Continues q q := fun _ _ h => ⟨_, h, List.suffix_rfl⟩

theorem trans (h : Continues p q) (h' : Continues q r) : Continues p r := by
  intro p₀ hist hp
  obtain ⟨hist₁, hq, hsuffix⟩ := h hp
  obtain ⟨hist₂, hr, hsuffix'⟩ := h' hq
  exact ⟨hist₂, hr, hsuffix.trans hsuffix'⟩

theorem move {e : Event σ} (h : Continues p q) (moves : Moves q e r)
    (keeps : q.machine.SameNames r.machine) : Continues p r := by
  intro p₀ hist hp
  obtain ⟨hist', hq, hsuffix⟩ := h hp
  exact ⟨_, hq.move moves keeps, hsuffix.trans (List.suffix_cons _ _)⟩

variable {ts : List (Task σ)} {d : Draft σ} {fuel : Nat} {source name : String} {m : Machine σ}
    {chunk : Chunk}

/-- The variables and imports of a program that compiles are put in place. -/
theorem compiled (h : Continues ⟨.compilation :: ts, false, m⟩ ⟨.compilation :: ts,
    false, d.machine⟩) (later : (Draft.start source name m).Later (Host.run fuel) d)
    (compiles : compileSource (Host.run fuel) source name m = .ok chunk d.commit)
    (turn : HostTurn ts) : Continues ⟨.compilation :: ts, false, m⟩ ⟨ts, false, d.commit⟩ := by
  intro p₀ hist hm
  obtain ⟨hist', hd, hsuffix⟩ := h hm
  have hcompiles : hist'.Compiles ts d fuel source name m chunk :=
    ⟨hsuffix.subset List.mem_cons_self, later, compiles⟩
  exact ⟨_, hd.compiled hcompiles turn, hsuffix.trans (List.suffix_cons _ _)⟩

/-- The same, if the program runs next. -/
theorem started {guarded : Bool}
    (h : Continues ⟨.compilation :: .evaluation guarded :: ts, false, m⟩
      ⟨.compilation :: .evaluation guarded :: ts, false, d.machine⟩)
    (later : (Draft.start source name m).Later (Host.run fuel) d)
    (compiles : compileSource (Host.run fuel) source name m = .ok chunk d.commit) :
    Continues ⟨.compilation :: .evaluation guarded :: ts, false, m⟩
      ⟨.program d.commit.frames.size d.commit.stack.size :: .evaluation guarded :: ts, false,
        Core.start chunk d.commit⟩ := by
  intro p₀ hist hm
  obtain ⟨hist', hd, hsuffix⟩ := h hm
  have hcompiles : hist'.Compiles (.evaluation guarded :: ts) d fuel source name m chunk :=
    ⟨hsuffix.subset List.mem_cons_self, later, compiles⟩
  exact ⟨_, hd.started hcompiles, hsuffix.trans (List.suffix_cons _ _)⟩

end Continues

/-! ## Changes that give no names -/

namespace Machine.SameNames

variable {m n : Machine σ}

theorem of_standing (h : n.standing = m.standing) : m.SameNames n :=
  ⟨congrArg (·.globals.names) h, congrArg (·.imports) h⟩

theorem conclude (m : Machine σ) (result : Except Failure Value) :
    m.SameNames (m.conclude result) :=
  have h := m.standing_conclude result
  ⟨congrArg (·.globals.names) h, congrArg (·.imports) h⟩

theorem of_step {calls : Nat} {s : Step σ} (steps : m.step calls = s) : m.SameNames s.machine :=
  ⟨(aside_names.upkeep _).of_step steps rfl, congrArg (·.imports) (surroundings_of_step steps)⟩

theorem of_resume {name : String} {callee : Nat} {v : Value} {c : Checked σ (Machine σ)}
    (resumes : m.resume name callee v = c) : m.SameNames (Step.ofChecked c).machine :=
  ⟨(aside_names.upkeep _).of_resume resumes rfl,
    congrArg (·.imports) (surroundings_of_resume resumes)⟩

theorem setFunction (m : Machine σ) (handle : ModuleHandle) (name : String) (arity : Nat)
    (body : Native σ) : m.SameNames (m.setFunction handle name arity body).2 := by
  unfold Machine.setFunction
  split <;> exact ⟨rfl, rfl⟩

end Machine.SameNames

/-- Names are given at the end of a compilation only. -/
theorem Moves.sameNames {p q : Point σ} {e : Event σ} (h : Moves p e q)
    (hp : p.Compiling → p.tasks <:+ q.tasks) : p.machine.SameNames q.machine := by
  cases h with
  | reply _ plain performed => exact .of_standing (plain.standing performed)
  | install => exact .setFunction _ _ _ _ _
  | resume resumes | spoil resumes =>
    have hback := Machine.SameNames.of_resume resumes
    exact ⟨hback.names, hback.imports⟩
  | step steps | call steps | finish steps | fail steps =>
    have hstep := Machine.SameNames.of_step steps
    exact ⟨hstep.names, hstep.imports⟩
  | conclude => exact .conclude _ _
  | compiled => exact absurd (hp ⟨_, _, rfl⟩).length_le (by simp)
  | start => cases (hp ⟨_, _, rfl⟩).eq_of_length rfl
  | write | register | refuse | decode | evaluate | compile | unwind | sealed | makeString
  | makeFunction | load
  | rejected | reject | abandon | recover | escape => exact ⟨rfl, rfl⟩

/-! ## Runs continue courses -/

/-- Where a run leads to, if it was begun at a point and leaves so much in progress. -/
def Point.Leads (p : Point σ) (ts : List (Task σ)) : Outcome σ ε α → Prop
  | .ok _ n | .failed _ n => Continues p ⟨ts, false, n⟩
  | .unwound n => Continues p ⟨ts, true, n⟩
  | .exhausted => True

/-- Callbacks continue the course of events. -/
def Callback.Conducts (call : Callback σ) : Prop :=
  ∀ ts h m, HostTurn ts → (⟨ts, false, m⟩ : Point σ).Leads ts (call h m)

theorem Point.leads_iff {p : Point σ} {ts : List (Task σ)} {o : Outcome σ ε α} :
    p.Leads ts o ↔ o.Proceeds Continues p ts := by
  cases o <;> rfl

theorem Callback.conducts_iff {call : Callback σ} : call.Conducts ↔ call.Proceeds Continues := by
  unfold Conducts Proceeds
  simp only [Point.leads_iff]

/-- Courses can be continued by all that runs do. -/
def Conduct.course (σ : Type) : Conduct σ where
  reaches := Continues
  refl := Continues.refl
  trans := Continues.trans
  move moves hp := (Continues.refl _).move moves (moves.sameNames hp)
  compiled := Continues.compiled
  started := Continues.started
  rejected {_ _ source name _ _ e} h _ hts := h.move (.rejected hts source name e) ⟨rfl, rfl⟩
  reported h _ := h.move (.reject _ _) ⟨rfl, rfl⟩

section Runs

variable {depth : Nat} (hcall : Callback.Conducts (Host.run depth : Callback σ)) {d k : Draft σ}

include hcall

/-- One step of a compilation. -/
theorem Draft.Next.continues (h : d.Next (Host.run depth) k) (ts : List (Task σ)) :
    Continues ⟨.compilation :: ts, false, d.machine⟩ ⟨.compilation :: ts, false, k.machine⟩ :=
  Conduct.draft (C := .course σ) (Callback.conducts_iff.1 hcall) h ts

theorem Draft.Later.continues (h : d.Later (Host.run depth) k) (ts : List (Task σ)) :
    Continues ⟨.compilation :: ts, false, d.machine⟩ ⟨.compilation :: ts, false, k.machine⟩ :=
  Conduct.drafts (C := .course σ) (Callback.conducts_iff.1 hcall) h ts

end Runs

/-- **Runs of host programs continue the course of events**, wherever the host has its turn. -/
theorem Host.conducts_run (fuel : Nat) : Callback.Conducts (run fuel : Callback σ) :=
  Callback.conducts_iff.2 ((Conduct.course σ).run fuel)

end ScriptMachine
