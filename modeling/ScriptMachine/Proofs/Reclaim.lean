import ScriptMachine.Proofs.Verdict
/-!
# What collections free

When a machine is at rest, all that can be got at are variables, the functions of modules, what the
host has pinned, and what these lead to. A collection then frees everything else and nothing more.

* `Machine.Reaches`: what can be got at;
* `Machine.Bare.reclaims`: **a collection at rest keeps exactly that**;
* `Course.reclaims_all`: the collections of evaluations and of the host's operations.
-/

namespace ScriptMachine

variable {σ : Type}

/-- The last pin comes off. -/
theorem Heap.unpin_of_pins_eq_one {ν : Type} {h : Heap ν} {id : ObjectId} (hp : h.pins id = 1) :
    (h.unpin id).1 = .ok 0 := by
  unfold Heap.pins at hp
  unfold Heap.unpin
  cases hs : h.slot? id with
  | none => rw [hs] at hp; cases hp
  | some s =>
    rw [hs] at hp
    dsimp only at hp ⊢
    rw [if_neg (by omega), hp]

namespace Machine

/-! ## What can be got at -/

/-- A live object that can be got at when nothing runs: it is the value of a variable, a function of
a module or pinned, or an item of a list or a constant of a function that can be got at. -/
inductive Reaches (m : Machine σ) : ObjectId → Prop
  | global {slot : Nat} {v : Value} {id : ObjectId} (found : m.globals.get? slot = some v)
    (object : v.asObject? = some id) (alive : m.heap.contains id = true) : Reaches m id
  | installed {e : ModuleEntry (Loader σ)} {name : String} {v : Value} {id : ObjectId}
    (entry : e ∈ m.modules.entries) (found : (name, v) ∈ e.functions)
    (object : v.asObject? = some id)
    (alive : m.heap.contains id = true) : Reaches m id
  | pinned {id : ObjectId} (pins : 0 < m.heap.pins id) : Reaches m id
  | item {id id' : ObjectId} {items : Array Value} {v : Value} (before : Reaches m id)
    (list : m.heap.get? id = some (.list items)) (found : v ∈ items)
    (object : v.asObject? = some id')
    (alive : m.heap.contains id' = true) : Reaches m id'
  | constant {id id' : ObjectId} {f : ScriptFunction} {v : Value} (before : Reaches m id)
    (function : m.heap.get? id = some (.function f)) (found : v ∈ f.chunk.constants)
    (object : v.asObject? = some id') (alive : m.heap.contains id' = true) : Reaches m id'

variable {m n : Machine σ} {id : ObjectId}

theorem Reaches.contains (h : m.Reaches id) : m.heap.contains id = true := by
  cases h with
  | global _ _ alive | installed _ _ _ alive | item _ _ _ _ alive | constant _ _ _ _ alive =>
    exact alive
  | pinned pins => exact Heap.contains_of_pins_pos pins

theorem Reaches.child (h : m.Reaches id) {o : Object (Native σ)} (ho : m.heap.get? id = some o)
    {child : ObjectId} (hchild : child ∈ o.children) (alive : m.heap.contains child = true) :
    m.Reaches child := by
  obtain ⟨v, hv, hobject⟩ := List.mem_filterMap.1 hchild
  have hv : v ∈ o.references := Array.mem_toList_iff.1 hv
  cases o with
  | list items => exact .item h ho hv hobject alive
  | function f => exact .constant h ho hv hobject alive
  | string s | native f => simp [Object.references] at hv

theorem Reaches.refers (h : m.Reaches id) : m.Refers id := by
  induction h with
  | global found object _ => exact .global found object
  | installed entry found object _ => exact .installed entry found object
  | pinned pins => exact .pinned pins
  | item _ list found object _ ih => exact .item ih list found object
  | constant _ function found object _ ih => exact .constant ih function found object

/-- What can be got at in a machine can be got at in another one with the same variables, modules
and pins, in which it is alive. -/
theorem Reaches.transfer (h : m.Reaches id) (hglobals : n.globals = m.globals)
    (hmodules : n.modules = m.modules) (hpins : ∀ id, n.heap.pins id = m.heap.pins id)
    (hget : ∀ id, m.Reaches id → n.heap.get? id = m.heap.get? id) : n.Reaches id := by
  have halive {id : ObjectId} (h : m.Reaches id) : n.heap.contains id = true := by
    obtain ⟨o, ho⟩ := Heap.contains_iff.1 h.contains
    exact Heap.contains_iff.2 ⟨o, (hget id h).trans ho⟩
  induction h with
  | global found object alive =>
    exact .global (hglobals ▸ found) object (halive (.global found object alive))
  | installed entry found object alive =>
    exact .installed (hmodules ▸ entry) found object (halive (.installed entry found object alive))
  | pinned pins => exact .pinned ((hpins _).symm ▸ pins)
  | item before list found object alive ih =>
    exact .item ih ((hget _ before).trans list) found object
      (halive (.item before list found object alive))
  | constant before function found object alive ih =>
    exact .constant ih ((hget _ before).trans function) found object
      (halive (.constant before function found object alive))

/-! ## Collections -/

/-- From one machine to the other, everything is freed that cannot be got at, and nothing else. -/
structure Reclaims (m n : Machine σ) : Prop where
  /-- What is alive now was alive and could be got at, and is what it was. -/
  kept : ∀ id o, n.heap.get? id = some o ↔ m.heap.get? id = some o ∧ m.Reaches id
  /-- What is alive now is what can be got at now. -/
  exact_iff : ∀ id, n.heap.contains id = true ↔ n.Reaches id
  /-- It is all that the machine refers to, dead or alive, if all that it has referred to was
  alive. -/
  refers : m.NoDangling → ∀ id, n.heap.contains id = true ↔ n.Refers id
  globals : n.globals = m.globals
  modules : n.modules = m.modules
  pins : ∀ id, n.heap.pins id = m.heap.pins id

/-- What a collection keeps can be got at, if there are no values on the stack and no calls. -/
theorem Bare.reaches_of_kept (hbare : m.Bare) (ht : m.heap.Tidy) (hfits : m.heap.Fits)
    (hk : m.heap.Kept m.roots id) (halive : m.heap.contains id = true) : m.Reaches id := by
  let K (id : ObjectId) : Prop := m.heap.contains id = true → m.Reaches id
  have hK : K id := by
    refine ht.of_kept hfits (fun v hv id hid => ?_) (fun id hpins _ => .pinned hpins)
      (fun id o hid ho child hchild halive => ?_) hk
    · intro halive
      rcases Policy.mem_roots.1 hv with hv | hv | hv | ⟨f, hf, hv⟩
      · obtain ⟨slot, hslot⟩ := Globals.get?_of_mem_values hv
        exact .global hslot hid halive
      · obtain ⟨e, he, hv⟩ := List.mem_flatMap.1 hv
        obtain ⟨f, hf, rfl⟩ := List.mem_map.1 hv
        exact .installed (Array.mem_toList_iff.1 he) hf hid halive
      · rw [hbare.1] at hv
        cases Array.not_mem_empty v hv
      · rw [hbare.2] at hf
        cases Array.not_mem_empty f hf
    · exact (hid (Heap.contains_iff.2 ⟨o, ho⟩)).child ho hchild halive
  exact hK halive

/-- What can be got at is kept. -/
theorem Reaches.kept (h : m.Reaches id) (ht : m.heap.Tidy) : m.heap.Kept m.roots id := by
  induction h with
  | global found object alive =>
    obtain ⟨o, ho⟩ := Heap.contains_iff.1 alive
    exact Heap.kept_of_mem_roots (Policy.mem_roots.2 (.inl (Globals.mem_values_of_get? found)))
      object ho
  | installed entry found object alive =>
    obtain ⟨o, ho⟩ := Heap.contains_iff.1 alive
    refine Heap.kept_of_mem_roots (Policy.mem_roots.2 (.inr (.inl ?_))) object ho
    exact List.mem_flatMap.2 ⟨_, Array.mem_toList_iff.2 entry, List.mem_map.2 ⟨_, found, rfl⟩⟩
  | pinned pins => exact Heap.kept_of_pinned pins
  | item before holds found object alive ih | constant before holds found object alive ih =>
    obtain ⟨o, ho⟩ := Heap.contains_iff.1 alive
    exact ht.kept_of_child ih holds (List.mem_filterMap.2 ⟨_, Array.mem_toList_iff.2 found,
      object⟩) ho

/-- A collection keeps what the machine still refers to after it, if nothing dangles. -/
theorem contains_collect_of_refers (hlive : m.NoDangling) (ht : m.heap.Tidy)
    (hid : m.collect.2.Refers id) : m.collect.2.heap.contains id = true := by
  have hstays {id : ObjectId} (hid : m.Refers id) (hk : m.heap.Kept m.roots id) :
      m.collect.2.heap.contains id = true := by
    obtain ⟨o, ho⟩ := Heap.contains_iff.1 (hlive id hid)
    exact Heap.contains_iff.2 ⟨o, Heap.get?_collect_eq_some_iff.2 ⟨ho, hk⟩⟩
  suffices h : m.Refers id ∧ m.heap.Kept m.roots id from hstays h.1 h.2
  refine hid.closed (K := fun id => m.Refers id ∧ m.heap.Kept m.roots id)
    (fun v hv id hobject => ?_) (fun id hpins => ?_) (fun id o v child _ hk ho hv hobject => ?_)
  · have hid : m.Refers id := .of_mem_roots hv hobject
    obtain ⟨o, ho⟩ := Heap.contains_iff.1 (hlive id hid)
    exact ⟨hid, Heap.kept_of_mem_roots hv hobject ho⟩
  · have hpins : 0 < m.heap.pins id := (m.heap.pins_collect_eq m.roots id) ▸ hpins
    exact ⟨.pinned hpins, Heap.kept_of_pinned hpins⟩
  · have ho := (Heap.get?_collect_eq_some_iff.1 ho).1
    have hchild := hk.1.child ho hv hobject
    obtain ⟨o', ho'⟩ := Heap.contains_iff.1 (hlive child hchild)
    refine ⟨hchild, ht.kept_of_child hk.2 ho ?_ ho'⟩
    exact List.mem_filterMap.2 ⟨v, Array.mem_toList_iff.2 hv, hobject⟩

/-- **A collection at rest keeps exactly what can be got at.** -/
theorem Bare.reclaims (hbare : m.Bare) (ht : m.heap.Tidy) (hfits : m.heap.Fits) :
    m.Reclaims m.collect.2 := by
  have hkept (id : ObjectId) (o : Object (Native σ)) :
      m.collect.2.heap.get? id = some o ↔ m.heap.get? id = some o ∧ m.Reaches id := by
    refine Heap.get?_collect_eq_some_iff.trans (and_congr_right fun ho => ?_)
    exact ⟨fun hk => hbare.reaches_of_kept ht hfits hk (Heap.contains_iff.2 ⟨o, ho⟩),
      fun h => h.kept ht⟩
  have hpins (id : ObjectId) : m.collect.2.heap.pins id = m.heap.pins id :=
    m.heap.pins_collect_eq m.roots id
  have hexact (id : ObjectId) : m.collect.2.heap.contains id = true ↔ m.collect.2.Reaches id := by
    refine ⟨fun halive => ?_, Reaches.contains⟩
    obtain ⟨o, ho⟩ := Heap.contains_iff.1 halive
    refine ((hkept id o).1 ho).2.transfer rfl rfl hpins fun id hid => ?_
    obtain ⟨o, ho⟩ := Heap.contains_iff.1 hid.contains
    exact ((hkept id o).2 ⟨ho, hid⟩).trans ho.symm
  refine ⟨hkept, hexact, fun hlive id => ⟨fun halive => ((hexact id).1 halive).refers,
    fun hid => ?_⟩, rfl, rfl, hpins⟩
  exact contains_collect_of_refers hlive ht hid

/-- So does one that the host asks for. -/
theorem Bare.reclaims_collectGarbage (hbare : m.Bare) (ht : m.heap.Tidy) (hfits : m.heap.Fits)
    (hin : m.inEval = false) : m.Reclaims m.collectGarbage.2 := by
  have hcollect : m.collectGarbage = m.collect := if_neg (by rw [hin]; decide)
  exact hcollect ▸ hbare.reclaims ht hfits

/-- A machine that is about to hand over the result of an evaluation, which is pinned. -/
def handOver (m : Machine σ) : Except Failure Value → Machine σ
  | .ok v =>
    { m with
      inEval := false, heap := v.asObject?.elim m.heap fun id => (m.heap.pin id).2, report := "" }
  | .error _ => { m with inEval := false }

theorem conclude_eq (m : Machine σ) (result : Except Failure Value) :
    m.conclude result = (m.handOver result).collect.2 := by
  cases result with
  | error f => rfl
  | ok v =>
    unfold conclude handOver
    dsimp only
    cases v.asObject? <;> rfl

theorem tidy_handOver (ht : m.heap.Tidy) (result : Except Failure Value) :
    (m.handOver result).heap.Tidy := by
  cases result with
  | error f => exact ht
  | ok v =>
    unfold handOver
    dsimp only
    cases v.asObject? with
    | none => exact ht
    | some id => exact ht.pin id

theorem bare_handOver (hbare : m.Bare) (result : Except Failure Value) :
    (m.handOver result).Bare := by
  cases result <;> exact hbare

/-- The collection at the end of an evaluation. -/
theorem Bare.reclaims_conclude (hbare : m.Bare) {result : Except Failure Value}
    (ht : m.heap.Fits → m.heap.Tidy) (hfits : (m.conclude result).heap.Fits) :
    (m.handOver result).Reclaims (m.conclude result) := by
  rw [conclude_eq] at hfits ⊢
  have hfits : (m.handOver result).heap.Fits :=
    hfits.of_le (Nat.le_of_eq (Heap.size_collect _ _).symm)
  have hsize : m.heap.slots.size ≤ (m.handOver result).heap.slots.size := by
    cases result with
    | error f => exact Nat.le_refl _
    | ok v =>
      unfold handOver
      dsimp only
      cases v.asObject? with
      | none => exact Nat.le_refl _
      | some id => exact Nat.le_of_eq (m.heap.size_pin id).symm
  exact (bare_handOver hbare result).reclaims (tidy_handOver (ht (hfits.of_le hsize)) result) hfits

end Machine

/-! ## Collections in the course of events -/

/-- At the end of an evaluation there are no values on the stack and no calls left. -/
theorem Path.reclaims_conclude {options : Options} {host : σ} {hist : History σ}
    {ts : List (Task σ)} {result : Except Failure Value} {guarded : Bool} {m : Machine σ}
    (h : Path (.new options host) hist ⟨.result result :: .evaluation guarded :: ts, false, m⟩)
    (hfits : (m.conclude result).heap.Fits) : (m.handOver result).Reclaims (m.conclude result) :=
  (h.fair.bare (by simp)).reclaims_conclude h.tidy hfits

/-- At the end of one that the host makes, too. -/
theorem Course.reclaims_eval {options : Options} {host : σ} {hist : History σ} {q : Point σ}
    (h : Course (.new options host) hist q) (hunwinding : q.unwinding = false)
    (hturn : HostTurn q.tasks) (hin : q.machine.inEval = false) {depth fuel : Nat}
    {source : String} {result : Except Failure Value} {n : Machine σ}
    (heval : (eval (Host.run depth) fuel source q.machine : Outcome σ Empty _) = .ok result n)
    (hfits : n.heap.Fits) :
    ∃ k, evalSource (Host.run depth) fuel source q.machine.beginEval =
      result.casesOn (fun f => .failed f k) (fun v => .ok v k) ∧
      (k.handOver result).Reclaims n := by
  obtain ⟨ts, unwinding, m⟩ := q
  cases hunwinding
  have hopen := Conduct.host (C := .course σ) hturn (.evaluate hturn false hin)
  have hrun := Conduct.evalSource (C := .course σ) ((Conduct.course σ).run depth) false ts fuel
    source m.beginEval
  rw [eval_of_not_inEval hin] at heval
  split at heval <;> rename_i k hk <;> rw [hk] at hrun <;> cases heval
  · obtain ⟨hist', hcourse, -⟩ := (hopen.trans hrun) h
    exact ⟨k, hk, hcourse.path.reclaims_conclude hfits⟩
  · obtain ⟨hist', hcourse, -⟩ := (hopen.trans hrun) h
    exact ⟨k, hk, hcourse.path.reclaims_conclude hfits⟩

/-- What is freed when the machine is at rest, with what has happened up to a point. -/
structure Reclaimed (hist : History σ) (q : Point σ) : Prop where
  /-- Every evaluation that has come to its end has freed exactly what could not be got at, from the
  machine with the result that it hands over. -/
  evaluated : ∀ {p r : Point σ} {result : Except Failure Value},
    (p, .evaluated result, r) ∈ hist.moves q →
    r.machine.heap.Fits → (p.machine.handOver result).Reclaims r.machine
  /-- So does an evaluation that the host makes next, outside of any other, if it comes back. -/
  eval : q.unwinding = false → HostTurn q.tasks → q.machine.inEval = false →
    ∀ {depth fuel : Nat} {source : String} {result : Except Failure Value} {n : Machine σ},
      (eval (Host.run depth) fuel source q.machine : Outcome σ Empty _) = .ok result n →
      n.heap.Fits →
      ∃ k, evalSource (Host.run depth) fuel source q.machine.beginEval =
        result.casesOn (fun f => .failed f k) (fun v => .ok v k) ∧ (k.handOver result).Reclaims n
  /-- And a guarded one, if it was not unwound. -/
  guardedEval : q.unwinding = false → HostTurn q.tasks → q.machine.inEval = false →
    ∀ {depth fuel : Nat} {source : SizedText} {text : String} {result : Except Failure Value}
      {n : Machine σ}, source.decode? = some text →
      (ScriptMachine.eval (Host.run depth) fuel text q.machine : Outcome σ Empty _) = .ok result n →
      n.heap.Fits →
      (guardedEval (Host.run depth) fuel source q.machine : Outcome σ Empty _) =
        .ok (resultCode result, result.toOption) n ∧ ∀ id, n.heap.contains id = true ↔ n.Reaches id
  /-- One whose text cannot be read has freed nothing. -/
  unread : ∀ {depth fuel : Nat} {source : SizedText} {result : Nat × Option Value} {n : Machine σ},
    source.decode? = none →
      (ScriptMachine.guardedEval (Host.run depth) fuel source q.machine : Outcome σ Empty _) =
      .ok result n → result.1 ≠ 0 ∧ n.heap = q.machine.heap
  /-- A collection that the host asks for. -/
  collect : q.machine.inEval = false → q.machine.heap.Fits →
    q.machine.Reclaims q.machine.collectGarbage.2
  /-- The release of the last pin on an object. -/
  release : q.machine.inEval = false → q.machine.heap.Fits →
    q.machine.options.collectOnRelease = true →
    ∀ {v : Value} {id : ObjectId}, v.asObject? = some id → q.machine.heap.pins id = 1 →
      (q.machine.release v).1 = .ok () ∧
      ({ q.machine with heap := (q.machine.heap.unpin id).2 }).Reclaims (q.machine.release v).2
  /-- Outside of evaluations the machine does not count as evaluating, unless one was given up. -/
  outside : ¬ Evaluating q.tasks →
    (q.machine.inEval = true ↔ ∃ p, (p, .abandoned (.evaluation false)) ∈ hist)
  /-- After that nothing is freed any more: by no collection that the host asks for, and not by
  anything else. -/
  stuck : ∀ p, (p, .abandoned (.evaluation false)) ∈ hist → ¬ Evaluating q.tasks ∧
    q.machine.collectGarbage = (0, q.machine) ∧
    q.machine.heap.collections = p.machine.heap.collections

/-- **No leak and no premature free at rest**: the objects that are alive after an evaluation, after
a collection for the host and after the release of a last pin are those that can be got at, as long
as no evaluation was given up that nobody has recovered from. -/
theorem Course.reclaims_all {options : Options} {host : σ} {hist : History σ} {q : Point σ}
    (h : Course (.new options host) hist q) : Reclaimed hist q := by
  refine ⟨fun {p r result} hmem hfits => ?_, h.reclaims_eval, fun hunwinding hturn hin => ?_,
    fun hdecode hr => ?_, fun hin hfits => ?_, fun hin hfits hcollects v id hid hpins => ?_,
    fun hnone => h.path.inEval_iff.trans (or_iff_right hnone), fun p hp => ?_⟩
  · obtain ⟨⟨hist', hp⟩, moves⟩ := h.path.of_mem_moves hmem
    cases moves with
    | conclude => exact hp.reclaims_conclude hfits
  · intro depth fuel source text result n hdecode hr hfits
    obtain ⟨k, -, hreclaims⟩ := h.reclaims_eval hunwinding hturn hin hr hfits
    refine ⟨?_, hreclaims.exact_iff⟩
    unfold guardedEval
    rw [hdecode]
    simp only [hr]
  · unfold ScriptMachine.guardedEval at hr
    rw [hdecode] at hr
    cases hr
    exact ⟨Failure.token.code_ne_zero, rfl⟩
  · exact (h.path.bare hin).reclaims_collectGarbage (h.path.tidy hfits) hfits hin
  · have hunpin : (q.machine.heap.unpin id).1 = .ok 0 := Heap.unpin_of_pins_eq_one hpins
    have hbare : ({ q.machine with heap := (q.machine.heap.unpin id).2 }).Bare := h.path.bare hin
    rw [Machine.release_of_unpin hid hunpin, hcollects]
    exact ⟨rfl, hbare.reclaims_collectGarbage ((h.path.tidy hfits).unpin id)
      (hfits.of_le (Nat.le_of_eq (Heap.size_unpin _ _))) hin⟩
  · obtain ⟨hquiet, hin, hcollections⟩ := h.path.hushed_of_abandoned hp
    exact ⟨hquiet.not_evaluating, if_pos hin, hcollections⟩

/-- A program with a text that is rejected after the text was made. Nothing refers to the text, so
it is freed. -/
theorem Course.reclaims_all_unused : Course (.new {} ()) [] (.new {} () : Point Unit) ∧
    Reclaimed [] (.new {} () : Point Unit) ∧ ∃ (source : String) (k n : Machine Unit),
      (eval (Host.run 1) 0 source (.new {} ()) : Outcome Unit Empty _) = .ok (.error .compile) n ∧
      n.heap.Fits ∧
      evalSource (Host.run 1) 0 source (Machine.new {} ()).beginEval = .failed .compile k ∧
      (k.handOver (.error .compile)).Reclaims n ∧ k.heap.contains ⟨5, 0⟩ = true ∧
      n.heap.contains ⟨5, 0⟩ = false := by
  have hreclaimed := Course.reclaims_all (.start : Course (.new {} ()) [] (.new {} () : Point Unit))
  let m : Machine Unit := .new {} ()
  obtain ⟨_, n, heval, rfl, hfits, hgone⟩ := Outcome.exists_of_value?
    (o := eval (ε := Empty) (Host.run 1) 0 "\"text\"\nbreak" m)
    (fun r n => r = .error .compile ∧ n.heap.Fits ∧ n.heap.contains ⟨5, 0⟩ = false)
      (by decide +kernel)
  have halive : (evalSource (Host.run 1) 0 "\"text\"\nbreak" m.beginEval).failure?.any
      (·.2.heap.contains ⟨5, 0⟩) = true := by decide +kernel
  obtain ⟨k, hsource, hreclaims⟩ := hreclaimed.eval rfl trivial rfl heval hfits
  have halive := (congrArg (·.failure?.any (·.2.heap.contains ⟨5, 0⟩)) hsource).symm.trans halive
  exact ⟨.start, hreclaimed, _, k, n, heval, hfits, hsource, hreclaims, halive, hgone⟩

/-- A loader gives up in the middle of a compilation, and so does the evaluation around it. Nothing
is in progress any more, but the machine counts as evaluating: a collection for the host frees
nothing, not even a text that was made for the program. -/
theorem Course.leaks_of_unwound : ∃ (hist : History Unit) (m n : Machine Unit) (id : ObjectId),
    (eval (Host.run 1) 0 "x = 'abc'\nfunc f():\n    import a\n" m : Outcome Unit Empty _) =
      .unwound n ∧
      Course (.new {} ()) hist ⟨[], false, n⟩ ∧ n.heap.Fits ∧ n.collectGarbage = (0, n) ∧
      n.heap.contains id = true ∧ ¬ n.Reaches id := by
  let loader : Loader Unit := fun _ => .unwind
  let m : Machine Unit := (Machine.new {} ()).addLoader "a" loader
  have hm : Course (.new {} ()) _ ⟨[], false, m⟩ :=
    Course.start.move (.register hostTurn_nil "a" loader) ⟨rfl, rfl⟩
  -- For any source text, so that nothing is computed here.
  have hcourse (source : String) {n : Machine Unit}
      (h : (eval (Host.run 1) 0 source m : Outcome Unit Empty _) = .unwound n) :
      ∃ hist, Course (.new {} ()) hist ⟨[], false, n⟩ := by
    have hrun := Conduct.eval (ε := Empty) ((Conduct.course Unit).run 1) hostTurn_nil 0 source m
    rw [h] at hrun
    obtain ⟨hist, hn, -⟩ := Continues.move hrun .escape ⟨rfl, rfl⟩ hm
    exact ⟨hist, hn⟩
  obtain ⟨n, hunwound, hfacts⟩ := (Option.any_eq_true
    (fun n : Machine Unit => decide (n.heap.Fits ∧ n.inEval = true ∧ n.heap.contains ⟨5, 0⟩ = true ∧
      n.heap.pins ⟨5, 0⟩ = 0 ∧ (n.roots.all (·.asObject?.all (· != ⟨5, 0⟩)) &&
        n.heap.slots.all (·.object.all (·.references.all (·.asObject?.all (· != ⟨5, 0⟩))))) = true))
    (eval (Host.run 1) 0 "x = 'abc'\nfunc f():\n    import a\n" m :
      Outcome Unit Empty _).unwound?).1
    (by decide +kernel)
  obtain ⟨hfits, hin, halive, hpins, hall⟩ := of_decide_eq_true hfacts
  have hlost : ¬ n.Reaches ⟨5, 0⟩ := by
    intro hreaches
    have hne :=
      hreaches.refers.all (K := (· != ⟨5, 0⟩)) (fun id hpos => bne_iff_ne.2 fun heq => ?_) hall
    · simp at hne
    · rw [heq, hpins] at hpos
      cases hpos
  have heval := Outcome.eq_unwound_of_unwound? hunwound
  obtain ⟨hist, hn⟩ := hcourse _ heval
  exact ⟨hist, m, n, ⟨5, 0⟩, heval, hn, hfits, if_pos hin, halive, hlost⟩

end ScriptMachine
