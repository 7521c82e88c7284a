import ScriptMachine.Proofs.Collections
/-!
# Garbage collection cannot be observed

A host evaluates programs, and releases results when it is done with them. Two machines that differ
only in when they collect garbage do the same for it: they are twins at the beginning, and each
command of the host leaves twins.

* `Session.Isomorphic`: sessions with the same variables and results up to the addresses of objects;
* `Session.unobservable`: **hosts see the same, whenever garbage is collected**.
-/

namespace ScriptMachine

variable {σ : Type}

/-! ## Sessions -/

/-- What the host may do: evaluate a program, or release one of the results that it holds. -/
inductive Command
  | eval (source : String)
  | release (index : Nat)

/-- What the host sees: success or a failure, the report, and all that was printed so far. -/
structure Observation where
  result : Except Failure Unit
  report : String
  output : String

/-- A machine in the hands of a host, with the results that were not released, the last first. -/
structure Session (σ : Type) where
  machine : Machine σ
  held : List Value := []

/-- What the host sees of a machine after a command. -/
def Machine.observe (m : Machine σ) (result : Except Failure Unit) : Observation :=
  ⟨result, m.report, m.output⟩

namespace Session

/-- A session with a new machine. -/
def start (options : Options) (host : σ) : Session σ := { machine := .new options host }

/-- What a command does, if it comes to an end. -/
def perform (fuel : Nat) (s : Session σ) : Command → Option (Observation × Session σ)
  | .eval source =>
    match (eval (Host.run fuel) fuel source s.machine : Outcome σ Empty (Except Failure Value)) with
    | .ok (.ok v) n => some (n.observe (.ok ()), { machine := n, held := v :: s.held })
    | .ok (.error e) n => some (n.observe (.error e), { s with machine := n })
    | .unwound _ | .exhausted => none
  | .release i =>
    match s.held[i]? with
    | some v =>
      let (result, n) := s.machine.release v
      some (n.observe result, { machine := n, held := s.held.eraseIdx i })
    | none => some (s.machine.observe (.ok ()), s)

/-- What the host sees after each of its commands, and what it has in its hands then. -/
def trace (fuel : Nat) : List Command → Session σ → List (Observation × Session σ)
  | [], _ => []
  | c :: cs, s =>
    match s.perform fuel c with
    | some r => r :: trace fuel cs r.2
    | none => []

/-- The machines that a session goes through: between commands, and at every instruction of a
program. -/
inductive Visits (fuel : Nat) : List Command → Session σ → Machine σ → Prop
  | now {cs : List Command} {s : Session σ} : Visits fuel cs s s.machine
  | runs {source : String} {cs : List Command} {s : Session σ} {chunk : Chunk} {n p : Machine σ}
    {k : Nat}
    (compiles : compileSource (Host.run fuel) source s.machine.options.chunkName
      s.machine.beginEval = .ok chunk n)
    (within : k ≤ fuel) (steps : Steps (Host.run fuel) n.frames.size k (Core.start chunk n) p) :
    Visits fuel (.eval source :: cs) s p
  | fails {source : String} {cs : List Command} {s : Session σ} {chunk : Chunk} {n p q : Machine σ}
    {k : Nat} {e : Failure}
    (compiles : compileSource (Host.run fuel) source s.machine.options.chunkName
      s.machine.beginEval = .ok chunk n)
    (within : k ≤ fuel) (steps : Steps (Host.run fuel) n.frames.size k (Core.start chunk n) p)
    (fails : Fails (Host.run fuel) n.frames.size p e q) : Visits fuel (.eval source :: cs) s q
  | later {c : Command} {cs : List Command} {s t : Session σ} {o : Observation} {p : Machine σ}
    (performs : s.perform fuel c = some (o, t)) (visits : Visits fuel cs t p) :
    Visits fuel (c :: cs) s p

/-- At no point of a session does the heap outgrow the addresses. -/
def Roomy (fuel : Nat) (cs : List Command) (s : Session σ) : Prop :=
  ∀ p, Visits fuel cs s p → p.heap.Fits

/-! ## Isomorphic sessions -/

/-- The objects that the host or its programs can get at. -/
inductive Reaches (s : Session σ) : ObjectId → Prop
  | global {slot : Nat} {v : Value} {id : ObjectId} (found : s.machine.globals.get? slot = some v)
    (object : v.asObject? = some id) : Reaches s id
  | result {v : Value} {id : ObjectId} (found : v ∈ s.held) (object : v.asObject? = some id) :
    Reaches s id
  | inside {id id' : ObjectId} {o : Object (Native σ)} {v : Value} (before : Reaches s id)
    (alive : s.machine.heap.get? id = some o) (found : v ∈ o.references)
    (object : v.asObject? = some id') :
    Reaches s id'

/-- Sessions with the same variables and results, up to a one-to-one pairing of the objects that can
be got at. These are alive, and have the same contents up to pairs; equality and texts are the same
on both sides. -/
structure Isomorphic (β : Pairing) (s s' : Session σ) : Prop where
  oneToOne : β.OneToOne
  left : ∀ id, (∃ id', β id id') ↔ s.Reaches id
  right : ∀ id', (∃ id, β id id') ↔ s'.Reaches id'
  object : ∀ {id id'}, β id id' → ∃ o o', s.machine.heap.get? id = some o ∧
    s'.machine.heap.get? id' = some o' ∧ o.Corresponds (Value.Mirrors β) Library.Built o'
  names : s.machine.globals.names = s'.machine.globals.names
  global : ∀ slot,
    Option.Rel (Value.Mirrors β) (s.machine.globals.get? slot) (s'.machine.globals.get? slot)
  results : List.Forall₂ (Value.Mirrors β) s.held s'.held
  equal : ∀ {u u' v v'}, Value.Mirrors β u u' → Value.Mirrors β v v' →
    s.machine.valuesEqual u v = s'.machine.valuesEqual u' v'
  text : ∀ {v v'}, Value.Mirrors β v v' → s.machine.display v = s'.machine.display v'

variable {s s' : Session σ} {β : Pairing}

/-- What can be got at on one side is paired with what can be got at on the other. -/
theorem Reaches.paired {id : ObjectId} (h : s.Reaches id)
    (hheap : s.machine.heap.Pairs β s'.machine.heap) (hglobal : ∀ slot,
      Option.Rel (Value.Mirrors β) (s.machine.globals.get? slot) (s'.machine.globals.get? slot))
    (hresults : List.Forall₂ (Value.Mirrors β) s.held s'.held) :
    ∃ id', β id id' ∧ s'.Reaches id' := by
  induction h with
  | @global slot v id found object =>
    obtain ⟨hnone, -⟩ | ⟨w, v', hw, hv', hvv⟩ := rel_cases (hglobal slot)
    · rw [hnone] at found
      cases found
    · obtain rfl := Option.some.inj (hw.symm.trans found)
      obtain ⟨id', hid', hβ⟩ := hvv.exists_of_asObject? object
      exact ⟨id', hβ, .global hv' hid'⟩
  | result found object =>
    obtain ⟨v', hv', hvv⟩ := exists_mem_of_forall₂ hresults found
    obtain ⟨id', hid', hβ⟩ := hvv.exists_of_asObject? object
    exact ⟨id', hβ, .result hv' hid'⟩
  | inside before alive found object ih =>
    obtain ⟨x', hx, hreaches⟩ := ih
    obtain ⟨o, o', ho, ho', hoo⟩ := hheap.object hx
    obtain rfl := Option.some.inj (ho.symm.trans alive)
    obtain ⟨v', hv', hvv⟩ := hoo.references.exists_of_mem found
    obtain ⟨id', hid', hβ⟩ := hvv.exists_of_asObject? object
    exact ⟨id', hβ, .inside hreaches ho' hv' hid'⟩

/-- Sessions whose machines are twins. -/
def Twins (s s' : Session σ) : Prop := ∃ β, s.machine.Twins s.held s'.held β s'.machine

/-- **Twins are isomorphic.** Of the pairs, those of objects that can be got at are left. -/
theorem Twins.isomorphic (h : s.Twins s') (hfits : s.machine.heap.Fits)
    (hfits' : s'.machine.heap.Fits) : ∃ β, s.Isomorphic β s' := by
  obtain ⟨β, h⟩ := h
  have hmirrors := h.mirrors hfits hfits'
  have hpaired {id : ObjectId} (hid : s.Reaches id) : ∃ id', β id id' ∧ s'.Reaches id' :=
    hid.paired hmirrors.heap hmirrors.global hmirrors.results
  have hpaired' {id' : ObjectId} (hid' : s'.Reaches id') : ∃ id, β id id' ∧ s.Reaches id :=
    hid'.paired hmirrors.heap.symm (fun slot => rel_symm (hmirrors.global slot)
      fun _ _ hv => hv.symm) (hmirrors.results.flip.imp fun _ _ hv => hv.symm)
  -- between values that can be got at, the pairing mirrors the same as before
  have hless {v v' : Value} (hv : v.Mirrors (β.keep s.Reaches s'.Reaches) v') : v.Mirrors β v' :=
    hv.mono fun _ _ _ _ hβ => hβ.1
  have hmore {v v' : Value} (hv : v.Mirrors β v')
      (hreaches : ∀ id, v.asObject? = some id → s.Reaches id)
          (hreaches' : ∀ id', v'.asObject? = some id' → s'.Reaches id') :
              v.Mirrors (β.keep s.Reaches s'.Reaches) v' :=
    hv.mono fun id id' hid hid' hβ => ⟨hβ, hreaches id hid, hreaches' id' hid'⟩
  let R : Lockstep σ := .mirror s.held s'.held
  have hrel : R.rel β s.machine s'.machine := h
  have hf : R.fits s.machine.heap s'.machine.heap := ⟨hfits, hfits'⟩
  refine ⟨β.keep s.Reaches s'.Reaches, ⟨hmirrors.heap.oneToOne.keep _ _, fun id => ?_,
    fun id' => ?_, ?_,
    congrArg Face.names h.face, fun slot => ?_, ?_, fun hu hv => ?_, fun hv => ?_⟩⟩
  · constructor
    · rintro ⟨id', -, hid, -⟩
      exact hid
    · intro hid
      obtain ⟨id', hβ, hid'⟩ := hpaired hid
      exact ⟨id', hβ, hid, hid'⟩
  · constructor
    · rintro ⟨id, -, -, hid'⟩
      exact hid'
    · intro hid'
      obtain ⟨id, hβ, hid⟩ := hpaired' hid'
      exact ⟨id, hβ, hid, hid'⟩
  · rintro id id' ⟨hβ, hid, hid'⟩
    obtain ⟨o, o', ho, ho', hoo⟩ := hmirrors.heap.object hβ
    exact ⟨o, o', ho, ho', hoo.mono fun v v' hv hv' hvv =>
      hmore hvv (fun _ hc => .inside hid ho hv hc) fun _ hc' => .inside hid' ho' hv' hc'⟩
  · exact rel_mono (hmirrors.global slot) fun v v' hv hv' hvv =>
      hmore hvv (fun _ hid => .global hv hid) fun _ hid' => .global hv' hid'
  · exact forall₂_mono_mem hmirrors.results fun v v' hv hv' hvv =>
      hmore hvv (fun _ hid => .result hv hid) fun _ hid' => .result hv' hid'
  · exact Lockstep.valuesEqual_eq hrel hf (hless hu) (hless hv)
  · exact Lockstep.display_eq hrel hf (hless hv)

/-! ## Commands -/

variable {source : String}

section Commands

variable {fuel : Nat} {c : Command} {cs : List Command}

theorem Roomy.fits (h : s.Roomy fuel cs) : s.machine.heap.Fits := h _ .now

theorem Roomy.spacious (h : s.Roomy fuel (.eval source :: cs)) {chunk : Chunk} {n : Machine σ}
    (hcompile : compileSource (Host.run fuel) source s.machine.options.chunkName
      s.machine.beginEval = .ok chunk n) :
    Spacious (Host.run fuel) n.frames.size fuel (Core.start chunk n) :=
  fun _ _ hk hsteps => ⟨h _ (.runs hcompile hk hsteps),
    fun _ _ hfails => h _ (.fails hcompile hk hsteps hfails)⟩

theorem Roomy.later {t : Session σ} {o : Observation} (h : s.Roomy fuel (c :: cs))
    (hperform : s.perform fuel c = some (o, t)) : t.Roomy fuel cs :=
  fun p hp => h p (.later hperform hp)

theorem observe_eq {m m' : Machine σ} {held held' : List Value} (h : m.Twins held held' β m')
    (result : Except Failure Unit) : m.observe result = m'.observe result := by
  unfold Machine.observe
  rw [show m.report = m'.report from congrArg Face.report h.face,
    show m.output = m'.output from congrArg Face.output h.face]

variable (h : s.Twins s')

include h

theorem Twins.perform_eval (hs : s.Roomy fuel (.eval source :: cs))
    (hs' : s'.Roomy fuel (.eval source :: cs)) :
      Option.Rel (fun r r' => r.1 = r'.1 ∧ r.2.Twins r'.2) (s.perform fuel (.eval source))
        (s'.perform fuel (.eval source)) := by
  obtain ⟨β, h⟩ := h
  have hin : s.machine.inEval = s'.machine.inEval := congrArg Face.inEval h.face
  unfold perform
  dsimp only
  cases hidle : s.machine.inEval with
  | true =>
    -- both machines refuse an evaluation within an evaluation
    rw [eval_of_inEval hidle, eval_of_inEval (hin.symm.trans hidle)]
    have hrefused : s.machine.refuseEval.Twins s.held s'.held β s'.machine.refuseEval :=
      h.of_contents
        (congrArg (fun f : Face => { f with
          message := reentrantMessage, report := "error: " ++ reentrantMessage ++ "\n" }) h.face)
        rfl rfl
    exact .some ⟨observe_eq hrefused _, β, hrefused⟩
  | false =>
    have hbegin : s.machine.beginEval.Twins s.held s'.held β s'.machine.beginEval :=
      h.of_contents (congrArg (fun f : Face => { f with report := "", inEval := true }) h.face)
        rfl rfl
    have hagrees := hbegin.agrees_evalSource (fun _ _ => hs.spacious) fun _ _ => hs'.spacious
    rw [eval_of_not_inEval hidle, eval_of_not_inEval (hin.symm.trans hidle)]
    simp only [Machine.beginEval] at hagrees
    generalize evalSource (Host.run fuel) fuel source s.machine.beginEval = r at hagrees ⊢
    generalize evalSource (Host.run fuel) fuel source s'.machine.beginEval = r' at hagrees ⊢
    cases hagrees with
    | exhausted | unwound => exact .none
    | @ok γ v v' n n' hv hn =>
      obtain ⟨γ', hn⟩ := Machine.Twins.conclude_ok hn hv
      exact .some ⟨observe_eq hn _, γ', hn⟩
    | @failed γ e n n' hn =>
      obtain ⟨γ', hn⟩ := Machine.Twins.conclude_error hn e
      exact .some ⟨observe_eq hn _, γ', hn⟩

theorem Twins.perform_release {i : Nat} (hfits : s.machine.heap.Fits)
    (hfits' : s'.machine.heap.Fits) :
      Option.Rel (fun r r' => r.1 = r'.1 ∧ r.2.Twins r'.2) (s.perform fuel (.release i))
        (s'.perform fuel (.release i)) := by
  obtain ⟨β, h⟩ := h
  have hlength := (h.mirrors hfits hfits').results.length_eq
  unfold perform
  dsimp only
  by_cases hi : i < s.held.length
  · have hv := List.getElem?_eq_getElem hi
    have hv' := List.getElem?_eq_getElem (hlength ▸ hi)
    obtain ⟨hok, hok', γ, hn⟩ := h.release hfits hfits' hv hv'
    rw [hv, hv']
    dsimp only
    rw [hok, hok']
    exact .some ⟨observe_eq hn _, γ, hn⟩
  · rw [List.getElem?_eq_none (Nat.le_of_not_lt hi),
      List.getElem?_eq_none (hlength ▸ Nat.le_of_not_lt hi)]
    exact .some ⟨observe_eq h _, β, h⟩

/-- **Commands do the same in twin sessions.** -/
theorem Twins.perform (hs : s.Roomy fuel (c :: cs)) (hs' : s'.Roomy fuel (c :: cs)) :
    Option.Rel (fun r r' => r.1 = r'.1 ∧ r.2.Twins r'.2) (s.perform fuel c)
      (s'.perform fuel c) := by
  cases c with
  | eval source => exact h.perform_eval hs hs'
  | release i => exact h.perform_release hs.fits hs'.fits

/-- Twin sessions show the same after every command. -/
theorem Twins.trace (hs : s.Roomy fuel cs) (hs' : s'.Roomy fuel cs) :
    List.Forall₂ (fun r r' => r.1 = r'.1 ∧ ∃ β, r.2.Isomorphic β r'.2) (trace fuel cs s)
      (trace fuel cs s') := by
  -- the sessions change from command to command, but stay twins with room
  induction cs generalizing s s' with
  | nil => exact .nil
  | cons c cs ih =>
    have hperform := h.perform hs hs'
    unfold Session.trace
    generalize hr : s.perform fuel c = r at hperform ⊢
    generalize hr' : s'.perform fuel c = r' at hperform ⊢
    cases hperform with
    | none => exact .nil
    | @some r r' hrr =>
      have ht := hs.later hr
      have ht' := hs'.later hr'
      exact .cons ⟨hrr.1, hrr.2.isomorphic ht.fits ht'.fits⟩ (ih hrr.2 ht ht')

end Commands

/-! ## Room -/

section Room

variable {fuel : Nat} {c : Command} {cs : List Command} {o : Observation} {t : Session σ}

theorem roomy_nil (hfits : s.machine.heap.Fits) : s.Roomy fuel [] := by
  intro p hp
  cases hp with
  | now => exact hfits

theorem eval_of_perform (h : s.perform fuel (.eval source) = some (o, t)) :
    ∃ r, (eval (Host.run fuel) fuel source s.machine : Outcome σ Empty _) = .ok r t.machine := by
  unfold perform at h
  dsimp only at h
  split at h <;> cases h
  · exact ⟨_, ‹_›⟩
  · exact ⟨_, ‹_›⟩

theorem grows_of_perform (h : s.perform fuel c = some (o, t)) : s.machine.Grows t.machine := by
  cases c with
  | eval source =>
    obtain ⟨r, hr⟩ := eval_of_perform h
    have hgrows := grows_eval (ε := Empty) (Host.grows_run fuel) fuel source s.machine
    rwa [hr] at hgrows
  | release i =>
    unfold perform at h
    dsimp only at h
    split at h <;> cases h
    · exact s.machine.service_grows.release (.refl _) _
    · exact .refl _

/-- What a run passes through grows on to its end. -/
theorem grows_of_steps {entry k : Nat} {m n : Machine σ} (hk : k ≤ fuel)
    (h : Steps (Host.run fuel) entry k m n) :
    (runSteps (Host.run fuel) entry fuel m).All n.Grows := by
  have hrest := grows_runSteps (Host.grows_run fuel) entry (fuel - k) n
  rwa [← h.runSteps_eq, Nat.add_sub_cancel' hk] at hrest

/-- A step that fails is the last one. -/
theorem grows_of_fails {entry k : Nat} {m n q : Machine σ} {e : Failure} (hk : k ≤ fuel)
    (hsteps : Steps (Host.run fuel) entry k m n) (h : Fails (Host.run fuel) entry n e q) :
    (runSteps (Host.run fuel) entry fuel m).All q.Grows := by
  rw [show runSteps (Host.run fuel) entry fuel m = runSteps (Host.run fuel) entry (fuel - k) n by
    rw [← hsteps.runSteps_eq, Nat.add_sub_cancel' hk]]
  cases fuel - k with
  | zero => trivial
  | succ left =>
    rw [h.runSteps_eq]
    exact .refl q

/-- What the run of a program leaves grows on to the end of the command. -/
theorem grows_of_run {chunk : Chunk} {n p : Machine σ} (hidle : s.machine.inEval = false)
    (hperform : s.perform fuel (.eval source) = some (o, t))
    (hcompile : compileSource (Host.run fuel) source s.machine.options.chunkName
      s.machine.beginEval = .ok chunk n)
    (hrun : (runSteps (Host.run fuel) n.frames.size fuel (Core.start chunk n)).All p.Grows) :
    p.Grows t.machine := by
  obtain ⟨r, hr⟩ := eval_of_perform hperform
  rw [Machine.beginEval] at hcompile
  rw [eval_of_not_inEval hidle, evalSource_apply] at hr
  simp only [hcompile, Core.execute_eq] at hr
  generalize runSteps (Host.run fuel) n.frames.size fuel (Core.start chunk n) = x at hr hrun
  cases x with
  | ok v q | failed e q =>
    rw [← (Outcome.ok.inj hr).2]
    refine hrun.trans (.trans ?_ (Machine.grows_conclude _ _))
    exact .of_eq rfl rfl rfl
  | unwound q | exhausted => cases hr

/-- A command that ends with room had room all along. -/
theorem roomy_of_perform (hidle : s.machine.inEval = false)
    (hperform : s.perform fuel c = some (o, t)) (hlater : t.Roomy fuel cs) :
    s.Roomy fuel (c :: cs) := by
  have hend {p : Machine σ} (h : p.Grows t.machine) : p.heap.Fits := hlater.fits.of_le h.heap.size
  intro p hp
  cases hp with
  | now => exact hend (grows_of_perform hperform)
  | runs compiles within steps =>
    exact hend (grows_of_run hidle hperform compiles (grows_of_steps within steps))
  | fails compiles within steps fails =>
    exact hend (grows_of_run hidle hperform compiles (grows_of_fails within steps fails))
  | later performs visits =>
    cases hperform.symm.trans performs
    exact hlater p visits

end Room

/-! ## The theorem -/

/-- **Garbage collection cannot be observed.** Let a host give the same commands to two machines
that differ only in when they collect garbage, and whose heaps do not outgrow the addresses. After
each of them it sees the same failure or success, the same report and the same printed text, and the
values of variables and the results in its hands are the same up to the addresses of objects. -/
theorem unobservable (options : Options) (step step' : Nat) (onRelease onRelease' : Bool)
    (host : σ) (fuel : Nat) (commands : List Command)
    (hroom : (start { options with gcStepObjects := step, collectOnRelease := onRelease }
      host).Roomy fuel commands)
    (hroom' : (start { options with gcStepObjects := step', collectOnRelease := onRelease' }
      host).Roomy fuel commands) :
    List.Forall₂ (fun r r' => r.1 = r'.1 ∧ ∃ β, r.2.Isomorphic β r'.2)
      (trace fuel commands
        (start { options with gcStepObjects := step, collectOnRelease := onRelease } host))
      (trace fuel commands
        (start { options with gcStepObjects := step', collectOnRelease := onRelease' } host)) :=
  Twins.trace (Machine.twins_new host rfl) hroom hroom'

/-- Lists that a loop makes, of which the last is kept, and then released. -/
def listCommands : List Command :=
  [.eval "var x = []\nvar i = 0\nwhile i < 3:\n  x = [i, \"a\"]\n  i = i + 1\nx", .release 0]

/-- One machine collects garbage while the loop runs and uses slots again, the other one does not,
so the last list comes to lie at different addresses. -/
theorem unobservable_lists :
    (start { ({} : Options) with gcStepObjects := 2, collectOnRelease := true } ()).Roomy 60
      listCommands ∧
    (start { ({} : Options) with gcStepObjects := 0, collectOnRelease := false } ()).Roomy 60
      listCommands ∧
    List.Forall₂ (fun r r' => r.1 = r'.1 ∧ ∃ β, r.2.Isomorphic β r'.2)
      (trace 60 listCommands
        (start { ({} : Options) with gcStepObjects := 2, collectOnRelease := true } ()))
      (trace 60 listCommands
        (start { ({} : Options) with gcStepObjects := 0, collectOnRelease := false } ())) ∧
    (trace 60 listCommands
      (start { ({} : Options) with gcStepObjects := 2, collectOnRelease := true } ())).map
        (·.2.held) = [[.ofObject ⟨6, 1⟩], []] ∧
    (trace 60 listCommands
      (start { ({} : Options) with gcStepObjects := 0, collectOnRelease := false } ())).map
        (·.2.held) = [[.ofObject ⟨9, 0⟩], []] := by
  have hroom (options : Options) (h : (((start options ()).perform 60 listCommands[0]).any fun r =>
      (r.2.perform 60 listCommands[1]).any fun r' => !r.2.machine.inEval &&
        decide r'.2.machine.heap.Fits) = true) :
      (start options ()).Roomy 60 listCommands := by
    obtain ⟨⟨o, t⟩, heval, h⟩ := (Option.any_eq_true _ _).1 h
    obtain ⟨⟨o', t'⟩, hrelease, h⟩ := (Option.any_eq_true _ _).1 h
    obtain ⟨hidle, hfits⟩ := Bool.and_eq_true_iff.1 h
    exact roomy_of_perform rfl heval
      (roomy_of_perform (by simpa using hidle) hrelease (roomy_nil (of_decide_eq_true hfits)))
  have hleft :=
    hroom { ({} : Options) with gcStepObjects := 2, collectOnRelease := true } (by decide +kernel)
  have hright :=
    hroom { ({} : Options) with gcStepObjects := 0, collectOnRelease := false } (by decide +kernel)
  exact ⟨hleft, hright,
    unobservable {} 2 0 true false () 60 listCommands hleft hright, by decide +kernel,
    by decide +kernel⟩

end Session

end ScriptMachine
