import Mathlib.Data.List.Perm.Basic
import ScriptMachine.Proofs.Correctness
import ScriptMachine.Proofs.Custody
import ScriptMachine.Proofs.Instructions
import ScriptMachine.Proofs.Mirror
/-!
# Twins stay twins

Whatever a host does with two machines that collect garbage at different times, they stay twins.

* `Lockstep.Agrees`: runs that end in the same way, on twins;
* `Machine.Twins.agrees_runSteps`, `Machine.Twins.agrees_evalSource`: **programs end in the same way
  on twins**.
-/

namespace ScriptMachine

variable {σ : Type} {m m' n n' : Machine σ} {β : Pairing} {held held' : List Value}

/-! ## The core library -/

/-- Two runs that end in the same way, on twins. -/
inductive Lockstep.Agrees {ε : Type} (R : Lockstep σ) : Outcome σ ε Value → Outcome σ ε Value → Prop
  | ok {w : R.World} {v v' : Value} {m m' : Machine σ} (val : R.val w v v') (rel : R.rel w m m') :
    Agrees R (.ok v m) (.ok v' m')
  | failed {w : R.World} {e : ε} {m m' : Machine σ} (rel : R.rel w m m') :
    Agrees R (.failed e m) (.failed e m')
  | unwound {w : R.World} {m m' : Machine σ} (rel : R.rel w m m') :
    Agrees R (.unwound m) (.unwound m')
  | exhausted : Agrees R .exhausted .exhausted

namespace Library

section

variable (fuel : Nat) (args : List Value) (m : Machine σ)

theorem run_printValue :
    Host.run (fuel + 1) (printValue args) m =
      .ok .none { m with output := m.output ++ m.display (argument args) ++ "\n" } := rfl

theorem run_raiseValue :
    Host.run (fuel + 1) (raiseValue args) m =
      .ok .interrupt { m with message := m.display (argument args) } := rfl

theorem run_typeOf :
    Host.run (fuel + 1) (typeOf args) m =
      .ok (m.createString (m.typeName (argument args))).1
        (m.createString (m.typeName (argument args))).2 := rfl

end

variable {fuel : Nat} {args : List Value}

theorem run_stringOf_of_some {s : String} (h : m.asString? (argument args) = some s) :
    Host.run (fuel + 1) (stringOf args) m = .ok (argument args) m := by
  simp only [Host.run, stringOf, HostM.toHost, HostM.ask, bind, pure, Host.interpret,
    Request.perform, Run.gets, h]

theorem run_stringOf_of_none (h : m.asString? (argument args) = none) :
    Host.run (fuel + 1) (stringOf args) m =
      .ok (m.createString (m.display (argument args))).1
        (m.createString (m.display (argument args))).2 := by
  simp only [Host.run, stringOf, HostM.toHost, HostM.ask, bind, Host.interpret, Request.perform,
    Run.gets, Run.lift, h]

theorem run_lengthOf_of_string {s : String} (h : m.asString? (argument args) = some s) :
    Host.run (fuel + 1) (lengthOf args) m = .ok (.ofDouble (.ofNat s.utf8ByteSize)) m := by
  simp only [Host.run, lengthOf, HostM.toHost, HostM.ask, bind, pure, Host.interpret,
    Request.perform, Run.gets, h]

variable (h : m.asString? (argument args) = none)

include h

theorem run_lengthOf_of_list {items : Array Value}
    (hitems : m.listItems? (argument args) = some items) :
    Host.run (fuel + 1) (lengthOf args) m = .ok (.ofDouble (.ofNat items.size)) m := by
  simp only [Host.run, lengthOf, HostM.toHost, HostM.ask, bind, pure, Host.interpret,
    Request.perform, Run.gets, h, hitems]

theorem run_lengthOf_of_none (hitems : m.listItems? (argument args) = none) :
    Host.run (fuel + 1) (lengthOf args) m = .ok .interrupt { m with message :=
      "bad argument to 'len' (string or list expected, got " ++ m.typeName (argument args) ++
        ")" } := by
  simp only [Host.run, lengthOf, HostM.toHost, HostM.ask, bind, Host.interpret, Request.perform,
    Run.gets, Run.lift, h, hitems]

end Library

namespace Machine

/-- Changes of pins, by which every result in the hands of the host has one. -/
theorem Mirrors.setHeap (h : m.Mirrors held held' β m') {heap heap' : Heap (Native σ)}
    {kept kept' : List Value} (htidy : heap.Tidy) (htidy' : heap'.Tidy)
    (hget : ∀ id, heap.get? id = m.heap.get? id) (hget' : ∀ id, heap'.get? id = m'.heap.get? id)
    (hresults : List.Forall₂ (Value.Mirrors β) kept kept')
    (hpins : ∀ id, kept.countP (·.refersTo id) ≤ heap.pins id)
    (hpins' : ∀ id, kept'.countP (·.refersTo id) ≤ heap'.pins id) :
    Mirrors kept kept' β { m with heap } { m' with heap := heap' } :=
  { h with
    heap := h.heap.of_get? htidy htidy' hget hget'
    results := hresults
    pins := hpins
    pins' := hpins' }

theorem Mirrors.pin (h : m.Mirrors held held' β m') (id id' : ObjectId) :
    Mirrors held held' β { m with heap := (m.heap.pin id).2 } { m' with
      heap := (m'.heap.pin id').2 } := by
  refine h.setHeap (h.heap.tidy.pin id) (h.heap.tidy'.pin id') (m.heap.get?_pin id)
    (m'.heap.get?_pin id') h.results (fun x => Nat.le_trans (h.pins x) ?_)
      fun x => Nat.le_trans (h.pins' x) ?_
  · rw [Heap.pins_pin]
    exact Nat.le_add_right _ _
  · rw [Heap.pins_pin]
    exact Nat.le_add_right _ _

variable (h : m.Twins held held' β m')

include h

theorem Twins.pinForHost {v v' : Value} (hv : v.Mirrors β v') :
    (m.pinForHost v).Twins held held' β (m'.pinForHost v') := by
  have hdepth : m.nativeDepth = m'.nativeDepth := congrArg Face.nativeDepth h.face
  unfold Machine.pinForHost
  obtain ⟨rfl, hid⟩ | ⟨id, id', hid, hid', -⟩ := hv.cases
  · rw [hid]
    exact h
  · rw [hid, hid']
    dsimp only
    by_cases hzero : m.nativeDepth = 0
    · rw [if_pos hzero, if_pos (hdepth ▸ hzero)]
      refine ⟨h.face, h.modules, h.modules', fun hfits hfits' => (h.mirrors ?_ ?_).pin id id'⟩
      · exact hfits.of_le (Nat.le_of_eq (m.heap.size_pin id).symm)
      · exact hfits'.of_le (Nat.le_of_eq (m'.heap.size_pin id').symm)
    · rw [if_neg hzero, if_neg (hdepth ▸ hzero)]
      exact h

/-- Native functions make strings for scripts. -/
theorem Twins.createString (s : String) :
    ∃ β', (m.createString s).2.Twins held held' β' (m'.createString s).2 ∧
      (m.createString s).1.Mirrors β' (m'.createString s).1 := by
  have hnew : (m.alloc (.string s)).1.Mirrors
      (β.add (m.heap.alloc (.string s)).1 (m'.heap.alloc (.string s)).1) (m'.alloc (.string s)).1 :=
        .object (.inr ⟨rfl, rfl⟩)
  exact ⟨_, (h.alloc .string).pinForHost hnew, hnew⟩

/-- Built-in functions end in the same way on twins. -/
theorem Twins.agrees_native (hfits : m.heap.Fits) (hfits' : m'.heap.Fits)
    {c c' : Native σ} (hcode : Library.Built c c') {args args' : Array Value}
    (hargs : Pointwise (Value.Mirrors β) args args') (fuel : Nat) :
    (Lockstep.mirror held held').Agrees (Host.run fuel (c args.toList) m)
      (Host.run fuel (c' args'.toList) m') := by
  let R : Lockstep σ := .mirror held held'
  obtain ⟨rfl, e, he, rfl⟩ := hcode
  cases fuel with
  | zero => exact .exhausted
  | succ fuel =>
    have hrel : R.rel β m m' := h
    have hf : R.fits m.heap m'.heap := ⟨hfits, hfits'⟩
    have hv : R.val β (Library.argument args.toList) (Library.argument args'.toList) := by
      have hfirst (xs : Array Value) : Library.argument xs.toList = xs.getD 0 .none := by
        obtain ⟨xs⟩ := xs
        cases xs <;> rfl
      rw [hfirst, hfirst]
      exact hargs.getD 0 (.simple Value.asObject?_none)
    have hdisplay := Lockstep.display_eq hrel hf hv
    have hstring := Lockstep.asString?_eq hrel hf hv
    have htype := Lockstep.typeName_eq hrel hf hv
    simp only [Library.core, List.mem_cons, List.not_mem_nil, or_false] at he
    rcases he with rfl | rfl | rfl | rfl | rfl
    · simp only [Library.run_printValue, hdisplay]
      have hface := congrArg (fun f : Face => { f with
        output := f.output ++ m'.display (Library.argument args'.toList) ++ "\n" }) h.face
      have hprinted : R.rel β
          { m with output := m.output ++ m'.display (Library.argument args'.toList) ++ "\n" }
          { m' with output := m'.output ++ m'.display (Library.argument args'.toList) ++ "\n" } :=
        h.of_contents hface rfl rfl
      exact .ok (w := β) (.simple Value.asObject?_none) hprinted
    · simp only [Library.run_raiseValue, hdisplay]
      exact .ok (w := β) (.simple Value.asObject?_interrupt) (R.setMessage hrel _)
    · obtain hnone | ⟨s, hs⟩ :=
        Option.eq_none_or_eq_some (m'.asString? (Library.argument args'.toList))
      · obtain ⟨hx, hy⟩ | ⟨xs, ys, hx, hy, hitems⟩ := rel_cases (Lockstep.listItems? hrel hf hv)
        · simp only [Library.run_lengthOf_of_none (hstring.trans hnone) hx,
            Library.run_lengthOf_of_none hnone hy, htype]
          exact .ok (w := β) (.simple Value.asObject?_interrupt) (R.setMessage hrel _)
        · simp only [Library.run_lengthOf_of_list (hstring.trans hnone) hx,
            Library.run_lengthOf_of_list hnone hy, hitems.size_eq]
          exact .ok (Lockstep.val_ofDouble β _) hrel
      · simp only [Library.run_lengthOf_of_string (hstring.trans hs),
          Library.run_lengthOf_of_string hs]
        exact .ok (Lockstep.val_ofDouble β _) hrel
    · simp only [Library.run_typeOf, htype]
      obtain ⟨β', htwins, hnew⟩ := h.createString (m'.typeName (Library.argument args'.toList))
      exact .ok hnew htwins
    · obtain hnone | ⟨s, hs⟩ :=
        Option.eq_none_or_eq_some (m'.asString? (Library.argument args'.toList))
      · simp only [Library.run_stringOf_of_none (hstring.trans hnone),
          Library.run_stringOf_of_none hnone, hdisplay]
        obtain ⟨β', htwins, hnew⟩ := h.createString (m'.display (Library.argument args'.toList))
        exact .ok hnew htwins
      · simp only [Library.run_stringOf_of_some (hstring.trans hs), Library.run_stringOf_of_some hs]
        exact .ok hv hrel

end Machine

/-! ## Runs -/

/-- At no point of a run does the heap outgrow the addresses. -/
def Spacious (call : Callback σ) (entry fuel : Nat) (m : Machine σ) : Prop :=
  ∀ k p, k ≤ fuel → Steps call entry k m p → p.heap.Fits ∧ ∀ e q, Fails call entry p e q →
    q.heap.Fits

section Runs

variable {call : Callback σ} {entry fuel : Nat}

theorem Spacious.fits (h : Spacious call entry fuel m) : m.heap.Fits :=
  (h 0 m (Nat.zero_le _) (.refl m)).1

theorem Spacious.advances (h : Spacious call entry (fuel + 1) m) (hadv : Advances call entry m n) :
    Spacious call entry fuel n :=
  fun k p hk hsteps => h (k + 1) p (Nat.succ_le_succ hk) (.cons hadv hsteps)

/-- The heap that a native function leaves. -/
theorem Spacious.of_native (h : Spacious call entry (fuel + 1) m) {f : NativeFunction (Native σ)}
    {args : List Value} {callee : Nat} {v : Value} {before after : Machine σ}
    (hasks : m.step entry = .native f args callee before)
    (hruns : call (f.code args) before.enterNative = .ok v after) : after.heap.Fits := by
  have hresume := grows_of_resume after f.name callee v
  cases hr : after.leaveNative.resume f.name callee v with
  | ok n =>
    rw [hr] at hresume
    exact (h.advances (.native hasks hruns hr)).fits.of_le hresume.heap.size
  | error e =>
    rw [hr] at hresume
    exact ((h 0 m (Nat.zero_le _) (.refl m)).2 e.1 e.2 (.resume hasks hruns hr)).of_le
      hresume.heap.size

/-- **Twins run in the same way.** -/
theorem Machine.Twins.agrees_runSteps {depth : Nat} (h : m.Twins held held' β m')
    (hm : Spacious (Host.run depth) entry fuel m) (hm' : Spacious (Host.run depth) entry fuel m') :
    (Lockstep.mirror held held').Agrees (runSteps (Host.run depth) entry fuel m)
      (runSteps (Host.run depth) entry fuel m') := by
  let R : Lockstep σ := .mirror held held'
  induction fuel generalizing m m' β with
  | zero => exact .exhausted
  | succ fuel ih =>
    -- the pairing changes from step to step: collections take pairs away, new objects are paired
    have hrel : R.rel β m m' := h
    have htakes := Lockstep.takes_step hrel ⟨hm.fits, hm'.fits⟩ entry
    rw [runSteps, runSteps]
    generalize hstep : m.step entry = s at htakes ⊢
    generalize hstep' : m'.step entry = s' at htakes ⊢
    cases htakes with
    | next hn => exact ih hn (hm.advances (.next hstep)) (hm'.advances (.next hstep'))
    | done hv hn => exact .ok hv hn
    | failed hn => exact .failed hn
    | @native β' f f' args args' callee n n' hname hcode hargs hn =>
      have hn : n.Twins held held' β' n' := hn
      have hin : Machine.Twins held held' β' n.enterNative
          n'.enterNative :=
        hn.of_contents (congrArg (fun f : Face => { f with nativeDepth := f.nativeDepth + 1 })
          hn.face) rfl rfl
      have hfits : n.heap.Fits := Machine.heap_of_step_native hstep ▸ hm.fits
      have hfits' : n'.heap.Fits := Machine.heap_of_step_native hstep' ▸ hm'.fits
      have hagrees := hin.agrees_native hfits hfits' hcode hargs depth
      dsimp only
      generalize hruns : Host.run depth (f.code args.toList) n.enterNative = o
        at hagrees ⊢
      generalize hruns' : Host.run depth (f'.code args'.toList) n'.enterNative = o'
        at hagrees ⊢
      cases hagrees with
      | exhausted => exact .exhausted
      | unwound hafter => exact .unwound hafter
      | @failed _ e => exact e.elim
      | @ok γ v v' after after' hv hafter =>
        have hafter : after.Twins held held' γ after' := hafter
        have hout : R.rel γ after.leaveNative
            after'.leaveNative :=
          hafter.of_contents
            (congrArg (fun f : Face => { f with nativeDepth := f.nativeDepth - 1 }) hafter.face)
            rfl rfl
        have hfits : after.heap.Fits := hm.of_native hstep hruns
        have hfits' : after'.heap.Fits := hm'.of_native hstep' hruns'
        have hchecks := Lockstep.checks_resume hout ⟨hfits, hfits'⟩ f.name callee hv fun _ =>
          congrArg Face.message hafter.face
        rw [← hname]
        dsimp only
        generalize hr : after.leaveNative.resume f.name callee v = c at hchecks ⊢
        generalize hr' : after'.leaveNative.resume f.name callee v' = c'
          at hchecks ⊢
        cases hchecks with
        | ok hnext =>
          exact ih hnext (hm.advances (.native hstep hruns hr))
            (hm'.advances (.native hstep' hruns' (hname ▸ hr')))
        | error hfailed => exact .failed hfailed

end Runs

/-! ## Reports -/

theorem Pointwise.forall₂ {α α' : Type} {r : α → α' → Prop} {xs : Array α} {ys : Array α'}
    (h : Pointwise r xs ys) : List.Forall₂ r xs.toList ys.toList := by
  refine List.forall₂_iff_get.2 ⟨h.size_eq, fun i hi hi' => ?_⟩
  have hrel := h i
  rw [Array.getElem?_eq_getElem hi, Array.getElem?_eq_getElem hi'] at hrel
  cases hrel with
  | some hab => exact hab

section Reports

variable {val : Value → Value → Prop}

theorem Frame.Corresponds.location_eq {f f' : Frame} (h : f.Corresponds val f') :
    f.location = f'.location := by
  unfold Frame.location Frame.position
  rw [h.chunk.shape, h.pc]
  rfl

theorem Frame.Corresponds.traceLine_eq {f f' : Frame} (h : f.Corresponds val f') :
    f.traceLine = f'.traceLine := by
  unfold Frame.traceLine Frame.position
  rw [h.chunk.shape, h.pc]
  rfl

/-- Reports tell of calls by their code and their places. -/
theorem runtimeReport_eq (e : Failure) (message : String) {calls calls' : List Frame}
    (h : List.Forall₂ (Frame.Corresponds val) calls calls') :
    runtimeReport e message calls = runtimeReport e message calls' := by
  have htrace : calls.map Frame.traceLine = calls'.map Frame.traceLine := by
    induction h with
    | nil => rfl
    | cons hf _ ih => rw [List.map_cons, List.map_cons, hf.traceLine_eq, ih]
  unfold runtimeReport
  rw [htrace, h.length_eq]
  cases h with
  | nil => rfl
  | cons hf _ => simp only [hf.location_eq]

end Reports

/-! ## Results in the hands of the host -/

section Results

variable {heap : Heap (Native σ)} {v : Value} {id : ObjectId}

theorem refersTo_eq_false (h : v.asObject? = none) (id : ObjectId) : v.refersTo id = false := by
  simp [Value.refersTo, h]

/-- A new result with its pin. -/
theorem countP_le_pins_pin (hpins : ∀ x, held.countP (·.refersTo x) ≤ heap.pins x)
    (hid : v.asObject? = some id) (halive : heap.contains id = true) (x : ObjectId) :
    (v :: held).countP (·.refersTo x) ≤ (heap.pin id).2.pins x := by
  have hx := hpins x
  rw [List.countP_cons, Heap.pins_pin]
  simp only [Value.refersTo_iff, hid, Option.some.injEq, halive, and_true]
  by_cases heq : id = x
  · rw [if_pos heq, if_pos heq.symm]
    omega
  · rw [if_neg heq]
    omega

theorem countP_eraseIdx {α : Type} {p : α → Bool} {xs : List α} {i : Nat} {a : α}
    (h : xs[i]? = some a) : (xs.eraseIdx i).countP p + (if p a then 1 else 0) = xs.countP p := by
  obtain ⟨hi, rfl⟩ := List.getElem?_eq_some_iff.1 h
  rw [← (List.getElem_cons_eraseIdx_perm hi).countP_eq p, List.countP_cons]

end Results

/-! ## Evaluations -/

namespace Machine.Twins

variable {depth fuel : Nat} {chunk chunk' : Chunk}

variable (h : m.Twins held held' β m')

include h

/-- Programs end in the same way on twins, with the same report. -/
theorem agrees_execute (hc : chunk.Corresponds (Value.Mirrors β) chunk')
    (hm : Spacious (Host.run depth) m.frames.size fuel (Core.start chunk m))
    (hm' : Spacious (Host.run depth) m'.frames.size fuel (Core.start chunk' m')) :
    (Lockstep.mirror held held').Agrees (execute (Host.run depth) fuel chunk m)
      (execute (Host.run depth) fuel chunk' m') := by
  have hmirrors := h.mirrors hm.fits hm'.fits
  have hstart : (Core.start chunk m).Twins held held' β (Core.start chunk' m') :=
    ⟨h.face, h.modules, h.modules', fun _ _ => { hmirrors with
      frames := hmirrors.frames.push ⟨hc, rfl, hmirrors.stack.size_eq⟩ }⟩
  have hframes := hmirrors.frames.size_eq
  have hstack := hmirrors.stack.size_eq
  rw [← hframes] at hm'
  rw [Core.execute_eq, Core.execute_eq, ← hframes, ← hstack]
  have hagrees := hstart.agrees_runSteps hm hm'
  generalize hruns : runSteps (Host.run depth) m.frames.size fuel (Core.start chunk m) =
    o at hagrees ⊢
  generalize hruns' : runSteps (Host.run depth) m.frames.size fuel (Core.start chunk' m') =
    o' at hagrees ⊢
  cases hagrees with
  | exhausted => exact .exhausted
  | unwound hn => exact .unwound hn
  | @ok γ v v' n n' hv hn =>
    have hn : n.Twins held held' γ n' := hn
    exact .ok (w := γ) hv ⟨hn.face, hn.modules, hn.modules', fun hf hf' => { hn.mirrors hf hf' with
      stack := (hn.mirrors hf hf').stack.shrink _
      frames := (hn.mirrors hf hf').frames.shrink _ }⟩
  | @failed γ e n n' hn =>
    have hn : n.Twins held held' γ n' := hn
    have hfits : n.heap.Fits := by
      obtain ⟨k, p, hk, hsteps, hfails⟩ := fails_of_runSteps hruns
      exact (hm k p (Nat.le_of_lt hk) hsteps).2 e n hfails
    have hfits' : n'.heap.Fits := by
      obtain ⟨k, p, hk, hsteps, hfails⟩ := fails_of_runSteps hruns'
      exact (hm' k p (Nat.le_of_lt hk) hsteps).2 e n' hfails
    have hcalls :=
      List.rel_reverse (List.forall₂_drop m.frames.size (hn.mirrors hfits hfits').frames.forall₂)
    have hmessage : n.message = n'.message := congrArg Face.message hn.face
    have hreport : runtimeReport e n.message (n.frames.toList.drop m.frames.size).reverse =
        runtimeReport e n'.message (n'.frames.toList.drop m.frames.size).reverse := by
      rw [hmessage]
      exact runtimeReport_eq e _ hcalls
    refine .failed (w := γ) ⟨?_, hn.modules, hn.modules', fun hf hf' => { hn.mirrors hf hf' with
      stack := (hn.mirrors hf hf').stack.shrink _
      frames := (hn.mirrors hf hf').frames.shrink _ }⟩
    rw [hreport]
    exact congrArg (fun f : Face => { f with
      report := runtimeReport e n'.message (n'.frames.toList.drop m.frames.size).reverse }) hn.face

/-- Compilations end in the same way on twins, since there are no modules to load. -/
theorem ends_compileSource (call : Callback σ) (source name : String) :
    (Link.mirror held held').Ends β
      (fun β' c c' n n' => n.Twins held held' β' n' ∧ c.Corresponds (Value.Mirrors β') c')
      (compileSource call source name m) (compileSource call source name m') := by
  have hcalls : (Link.mirror held held').Calls call call := by
    intro name γ n n' index handle loader hn hlookup
    have hn : n.Twins held held' γ n' := hn
    obtain ⟨e, he, -⟩ := Registry.mem_entries_of_lookup hlookup
    rw [hn.modules] at he
    exact absurd he (Array.not_mem_empty e)
  refine (Link.ends_compileSource source name (fun name _ => hcalls name) h (Nat.zero_le _)).mono ?_
  rintro γ c c' n n' - ⟨hn, -, -, d, d', rfl, rfl, -, hmatches⟩
  exact ⟨hn, hmatches.corresponds faithful_mirrors⟩

theorem agrees_evalSource {source : String}
    (hm : ∀ c n, compileSource (Host.run depth) source m.options.chunkName m = .ok c n →
      Spacious (Host.run depth) n.frames.size fuel (Core.start c n))
    (hm' : ∀ c n, compileSource (Host.run depth) source m'.options.chunkName m' = .ok c n →
      Spacious (Host.run depth) n.frames.size fuel (Core.start c n)) :
    (Lockstep.mirror held held').Agrees (evalSource (Host.run depth) fuel source m)
      (evalSource (Host.run depth) fuel source m') := by
  have hname : m.options.chunkName = m'.options.chunkName := congrArg (·.options.chunkName) h.face
  have hends := h.ends_compileSource (Host.run depth) source m.options.chunkName
  rw [evalSource_apply, evalSource_apply, ← hname]
  rw [← hname] at hm'
  generalize compileSource (Host.run depth) source m.options.chunkName m = o at hends hm ⊢
  generalize compileSource (Host.run depth) source m.options.chunkName m' = o' at hends hm' ⊢
  cases hends with
  | exhausted => exact .exhausted
  | unwound _ hn => exact .unwound hn
  | ok _ hpost => exact hpost.1.agrees_execute hpost.2 (hm _ _ rfl) (hm' _ _ rfl)
  | @failed γ e n n' _ hn =>
    have hn : n.Twins held held' γ n' := hn
    have hreported : (Lockstep.mirror held held').rel γ
        { n with report := staticReport m.options.chunkName source e }
        { n' with report := staticReport m.options.chunkName source e } :=
      hn.of_contents (congrArg (fun f : Face => { f with
        report := staticReport m.options.chunkName source e }) hn.face) rfl rfl
    exact .failed (w := γ) hreported

theorem collectGarbage : ∃ β', m.collectGarbage.2.Twins held held' β' m'.collectGarbage.2 := by
  obtain ⟨keep, hkeep⟩ := m.thins_collectGarbage
  obtain ⟨keep', hkeep'⟩ := m'.thins_collectGarbage
  exact ⟨_, h.thin hkeep hkeep'⟩

theorem conclude_error (e : Failure) :
    ∃ β', (m.conclude (.error e)).Twins held held' β' (m'.conclude (.error e)) := by
  have hidle : Machine.Twins held held' β { m with inEval := false } { m' with inEval := false } :=
    h.of_contents (congrArg (fun f : Face => { f with inEval := false }) h.face) rfl rfl
  exact hidle.collectGarbage

/-- The result of an evaluation is pinned for the host. -/
theorem conclude_ok {v v' : Value} (hv : v.Mirrors β v') :
    ∃ β', (m.conclude (.ok v)).Twins (v :: held) (v' :: held') β' (m'.conclude (.ok v')) := by
  have hface := congrArg (fun f : Face => { f with inEval := false, report := "" }) h.face
  unfold Machine.conclude
  obtain ⟨rfl, hid⟩ | ⟨id, id', hid, hid', hβ⟩ := hv.cases
  · simp only [hid]
    refine collectGarbage (β := β) ⟨hface, h.modules, h.modules', fun hf hf' => ?_⟩
    have hmirrors := h.mirrors hf hf'
    have hcount (kept : List Value) (x : ObjectId) :
        (v :: kept).countP (·.refersTo x) = kept.countP (·.refersTo x) := by
      rw [List.countP_cons, refersTo_eq_false hid x]
      rfl
    exact { hmirrors with
      results := .cons hv hmirrors.results
      pins := fun x => hcount held x ▸ hmirrors.pins x
      pins' := fun x => hcount held' x ▸ hmirrors.pins' x }
  · simp only [hid, hid']
    refine collectGarbage (β := β) ⟨hface, h.modules, h.modules', fun hf hf' => ?_⟩
    have hmirrors := h.mirrors (hf.of_le (Nat.le_of_eq (m.heap.size_pin id).symm))
      (hf'.of_le (Nat.le_of_eq (m'.heap.size_pin id').symm))
    obtain ⟨o, o', ho, ho', -⟩ := hmirrors.heap.object hβ
    have hpinned :=
      hmirrors.setHeap (hmirrors.heap.tidy.pin id) (hmirrors.heap.tidy'.pin id')
        (m.heap.get?_pin id) (m'.heap.get?_pin id') (.cons hv hmirrors.results)
      (countP_le_pins_pin hmirrors.pins hid (Heap.contains_iff.2 ⟨o, ho⟩))
      (countP_le_pins_pin hmirrors.pins' hid' (Heap.contains_iff.2 ⟨o', ho'⟩))
    exact { hpinned with }

end Machine.Twins

/-! ## Releases -/

namespace Machine

/-- A release takes a pin off, and may collect garbage. -/
theorem thins_release {v : Value} {id : ObjectId} (hid : v.asObject? = some id)
    (hp : 0 < m.heap.pins id) : (m.release v).1 = .ok () ∧
      ∃ keep, Thins { m with heap := (m.heap.unpin id).2 } (m.release v).2 keep := by
  obtain ⟨left, hleft, -⟩ := Heap.pins_unpin hp
  rw [release_of_unpin hid hleft]
  refine ⟨rfl, ?_⟩
  dsimp only
  split
  · exact thins_collectGarbage _
  · exact ⟨_, .refl _⟩

/-- The pins of the results that are left. -/
theorem countP_le_pins_unpin {heap : Heap (Native σ)} {v : Value} {id : ObjectId} {i : Nat}
    (hpins : ∀ x, held.countP (·.refersTo x) ≤ heap.pins x) (hv : held[i]? = some v)
    (hid : v.asObject? = some id)
    (x : ObjectId) : (held.eraseIdx i).countP (·.refersTo x) ≤ (heap.unpin id).2.pins x := by
  obtain ⟨-, -, hunpin⟩ :=
    Heap.pins_unpin (Mirrors.pins_pos (hpins id) (List.mem_of_getElem? hv) hid)
  have herase := countP_eraseIdx (p := (·.refersTo x)) hv
  have hx := hpins x
  rw [← hunpin x, ← herase] at hx
  simp only [Value.refersTo_iff, hid, Option.some.injEq, eq_comm (a := id)] at hx
  omega

/-- Results are released in the same way on twins. -/
theorem Twins.release (h : m.Twins held held' β m') (hfits : m.heap.Fits) (hfits' : m'.heap.Fits)
    {i : Nat} {v v' : Value} (hv : held[i]? = some v) (hv' : held'[i]? = some v') :
    (m.release v).1 = .ok () ∧ (m'.release v').1 = .ok () ∧
      ∃ β', (m.release v).2.Twins (held.eraseIdx i) (held'.eraseIdx i) β' (m'.release v').2 := by
  have hmirrors := h.mirrors hfits hfits'
  have hvv : v.Mirrors β v' := by
    obtain ⟨hi, rfl⟩ := List.getElem?_eq_some_iff.1 hv
    obtain ⟨hi', rfl⟩ := List.getElem?_eq_some_iff.1 hv'
    exact hmirrors.results.get hi hi'
  have hresults : List.Forall₂ (Value.Mirrors β) (held.eraseIdx i) (held'.eraseIdx i) := by
    rw [List.eraseIdx_eq_take_drop_succ, List.eraseIdx_eq_take_drop_succ]
    exact List.rel_append (List.forall₂_take i hmirrors.results)
      (List.forall₂_drop (i + 1) hmirrors.results)
  obtain ⟨rfl, hid⟩ | ⟨id, id', hid, hid', hβ⟩ := hvv.cases
  · have hrelease (n : Machine σ) : n.release v = (.ok (), n) := by
      unfold Machine.release
      rw [hid]
    have hless (kept : List Value) (x : ObjectId) :
        (kept.eraseIdx i).countP (·.refersTo x) ≤ kept.countP (·.refersTo x) :=
      (List.eraseIdx_sublist kept i).countP_le
    rw [hrelease, hrelease]
    exact ⟨rfl, rfl, β, h.face, h.modules, h.modules', fun _ _ => { hmirrors with
      results := hresults
      pins := fun x => Nat.le_trans (hless held x) (hmirrors.pins x)
      pins' := fun x => Nat.le_trans (hless held' x) (hmirrors.pins' x) }⟩
  · obtain ⟨hok, keep, hkeep⟩ :=
      thins_release hid (Mirrors.pins_pos (hmirrors.pins id) (List.mem_of_getElem? hv) hid)
    obtain ⟨hok', keep', hkeep'⟩ :=
      thins_release hid' (Mirrors.pins_pos (hmirrors.pins' id') (List.mem_of_getElem? hv') hid')
    have hunpinned : Twins (held.eraseIdx i) (held'.eraseIdx i) β { m with
        heap := (m.heap.unpin id).2 } { m' with heap := (m'.heap.unpin id').2 } :=
      ⟨h.face, h.modules, h.modules', fun _ _ => hmirrors.setHeap (hmirrors.heap.tidy.unpin id)
        (hmirrors.heap.tidy'.unpin id') (m.heap.get?_unpin id) (m'.heap.get?_unpin id') hresults
        (countP_le_pins_unpin hmirrors.pins hv hid) (countP_le_pins_unpin hmirrors.pins' hv' hid')⟩
    exact ⟨hok, hok', _, hunpinned.thin hkeep hkeep'⟩

end Machine

/-! ## New machines -/

namespace Machine

theorem Twins.openBuiltins (h : m.Twins held held' β m') (l : Library σ)
    (hl : ∀ e ∈ l.entries, e ∈ (Library.core : Library σ).entries) :
    ∃ β', (m.openBuiltins l).Twins held held' β' (m'.openBuiltins l) := by
  unfold Machine.openBuiltins
  generalize l.entries = entries at hl
  induction entries generalizing β m m' with
  | nil => exact ⟨β, h⟩
  | cons e entries ih =>
    have hnew := h.alloc (o := .native ⟨e.name, e.arity, e.body⟩)
      (.native rfl rfl ⟨rfl, e, hl e List.mem_cons_self, rfl⟩)
    refine ih (β := β.add _ _) ⟨?_, hnew.modules, hnew.modules',
        fun hf hf' => { hnew.mirrors hf hf' with
      global := fun i => ?_ }⟩ fun e' he' => hl e' (List.mem_cons_of_mem _ he')
    · have hnames := Globals.names_defineBuiltin_congr (congrArg Face.names h.face) e.name
        (.ofObject (m.heap.alloc (.native ⟨e.name, e.arity, e.body⟩)).1)
        (.ofObject (m'.heap.alloc (.native ⟨e.name, e.arity, e.body⟩)).1)
      have hface := congrArg (fun f : Face => { f with names := (m.globals.defineBuiltin e.name
        (.ofObject (m.heap.alloc (.native ⟨e.name, e.arity, e.body⟩)).1)).names }) h.face
      exact hface.trans (by rw [hnames]; rfl)
    · have hslot : (m.globals.declare e.name).slot? e.name =
          (m'.globals.declare e.name).slot? e.name := by
        rw [Globals.slot?_eq, Globals.slot?_eq,
          Globals.names_declare_congr
            (congrArg Face.names h.face : m.globals.names = m'.globals.names)]
      have hrest := (hnew.mirrors hf hf').global i
      dsimp only
      rw [Globals.get?_defineBuiltin, Globals.get?_defineBuiltin]
      rw [show (m.alloc _).2.globals = m.globals from rfl, show (m'.alloc _).2.globals = m'.globals
        from rfl, hslot]
      split
      · exact .some (.object (.inr ⟨rfl, rfl⟩))
      · exact hrest

/-- Machines that are new differ in their options only. -/
theorem twins_new {options options' : Options} (host : σ)
    (h : { options with gcStepObjects := 0, collectOnRelease := false } =
      { options' with gcStepObjects := 0, collectOnRelease := false }) :
    ∃ β, (new options host).Twins [] [] β (new options' host) := by
  refine Twins.openBuiltins (β := fun _ _ => False) ⟨?_, rfl, rfl, fun _ _ => ?_⟩ _ fun _ he => he
  · exact congrArg (fun options => Face.mk options [] [] "" "" "" false 0) h
  · exact ⟨⟨.empty, .empty, ⟨fun h => h.elim, fun h => h.elim⟩, fun h => h.elim⟩, fun _ => .none,
      .empty, .empty, .nil, fun _ => Nat.zero_le _, fun _ => Nat.zero_le _⟩

end Machine

end ScriptMachine
