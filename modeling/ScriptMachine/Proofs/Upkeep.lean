import ScriptMachine.Library
import ScriptMachine.Proofs.Building
import ScriptMachine.Proofs.Outcome
import ScriptMachine.Proofs.Steps
/-!
# Properties that instructions and requests keep

An instruction is made of few changes to the machine, and each of them is made under conditions: a
value is pushed if the stack may grow, a call is opened for a function on the heap, and a variable
is assigned to if the code of a call in progress says so. A property that these changes keep is kept
by every instruction, and by most requests of the host.

* `Upkeep.step`, `Upkeep.resume`: **every instruction and every return from a native function keeps
  the property**;
* `Service`, `Service.plain`: **so does every request that is answered at once**;
* `Tenure`: evaluations and all other requests.
-/

namespace ScriptMachine

variable {σ : Type}

/-- A property of machines that is kept by the changes that instructions are made of. -/
structure Upkeep (P : Machine σ → Prop) : Prop where
  message : ∀ {m : Machine σ} (message : String), P m → P { m with message }
  /-- Values are taken off the stack or replaced. -/
  stack : ∀ {m : Machine σ} {stack : Array Value}, stack.size ≤ m.stack.size → P m →
    P { m with stack }
  push : ∀ {m : Machine σ} (v : Value), m.stack.size < m.options.maxStackSize → P m →
    P { m with stack := m.stack.push v }
  jump : ∀ {m : Machine σ} (target : Nat), P m → P (m.jump target)
  enter : ∀ {m : Machine σ} {id : ObjectId} {f : ScriptFunction} (base : Nat),
    m.heap.get? id = some (.function f) → m.frames.size < m.options.maxCallDepth → P m →
    P { m with frames := m.frames.push { chunk := f.chunk, base } }
  leave : ∀ {m : Machine σ}, P m → P { m with frames := m.frames.pop }
  setGlobal : ∀ {m : Machine σ} {f : Frame} {i : Instr} {slot : Nat} {v : Value}
    {globals : Globals}, f ∈ m.frames →
    i ∈ f.chunk.code → i.op = .setGlobal slot → m.globals.set? slot v = some globals → P m →
    P { m with globals }
  setItem : ∀ {m : Machine σ} (id : ObjectId) (i : Nat) (v : Value), P m →
    P { m with heap := m.heap.modify id fun o => o.setItem i v }
  string : ∀ {m : Machine σ} (s : String), P m → P (m.alloc (.string s)).2
  list : ∀ {m : Machine σ} (items : Array Value), P m → P (m.alloc (.list items)).2
  safePoint : ∀ {m : Machine σ}, P m → P m.safePoint

namespace Machine

variable {m : Machine σ}

theorem safePoint_of_collect {P : Machine σ → Prop} (h : P m) (hcollect : P m.collect.2) :
    P m.safePoint := by
  unfold safePoint
  split
  · exact hcollect
  · exact h

theorem size_shrink_le (stack : Array Value) (size : Nat) :
    (stack.shrink size).size ≤ stack.size := by
  rw [Array.size_shrink]
  exact Nat.min_le_right _ _

/-- The code of a call stays when it goes on at another instruction. -/
theorem mem_frames_jump {f : Frame} (h : f ∈ m.frames) (target : Nat) :
    ∃ f' ∈ (m.jump target).frames, f'.chunk = f.chunk := by
  obtain ⟨i, hi⟩ := Array.mem_iff_getElem?.1 h
  have hjump : (m.jump target).frames[i]? =
      if m.frames.size - 1 = i then some { f with pc := target } else some f := by
    show (m.frames.modify _ _)[i]? = _
    rw [Array.getElem?_modify, hi]
    rfl
  split at hjump
  · exact ⟨_, Array.mem_of_getElem? hjump, rfl⟩
  · exact ⟨_, Array.mem_of_getElem? hjump, rfl⟩

/-- A list index is looked up without a change, but for the message of a failure. -/
theorem listIndex_error {list index : Value} {e : Failure × Machine σ}
    (h : m.listIndex list index = .error e) : ∃ message, e.2 = { m with message } := by
  unfold listIndex at h
  split at h
  · cases h; exact ⟨_, rfl⟩
  · split at h
    · cases h; exact ⟨_, rfl⟩
    · split at h
      · split at h
        · cases h
        · cases h; exact ⟨_, rfl⟩
      · cases h; exact ⟨_, rfl⟩

end Machine

namespace Upkeep

variable {P : Machine σ → Prop} (hP : Upkeep P) {m : Machine σ}

include hP

theorem checked_push (h : P m) (v : Value) : P (Step.ofChecked (m.push v)).machine := by
  unfold Machine.push
  split
  · exact hP.message _ h
  · rename_i hlt
    exact hP.push v (Nat.lt_of_not_le hlt) h

theorem pushObject {o : Object (Native σ)} (h : P (m.alloc o).2) :
    P (Step.ofChecked (m.pushObject o)).machine := by
  have hpush := hP.checked_push h (m.alloc o).1
  show P (Step.ofChecked (do let m ← (m.alloc o).2.push (m.alloc o).1; return m.safePoint)).machine
  cases hr : (m.alloc o).2.push (m.alloc o).1 with
  | error e => rw [hr] at hpush; exact hpush
  | ok n => rw [hr] at hpush; exact hP.safePoint hpush

variable (h : P m)

include h

theorem binary (op : BinaryOp) (lhs rhs : Value) :
    P (Step.ofChecked (m.binary op lhs rhs)).machine := by
  unfold Machine.binary
  split
  · exact hP.checked_push h _
  · exact hP.checked_push h _
  · split
    · exact hP.checked_push h _
    · split
      · split
        · exact hP.pushObject (hP.string _ h)
        · split
          · exact hP.checked_push h _
          · exact hP.message _ h
      · exact hP.message _ h

theorem unary (op : UnaryOp) (v : Value) : P (Step.ofChecked (m.unary op v)).machine := by
  unfold Machine.unary
  split
  · exact hP.checked_push h _
  · split
    · exact hP.checked_push h _
    · exact hP.message _ h

theorem listIndex {list index : Value} {e : Failure × Machine σ}
    (hindex : m.listIndex list index = .error e) : P e.2 := by
  obtain ⟨message, he⟩ := Machine.listIndex_error hindex
  rw [he]
  exact hP.message message h

theorem getIndex (list index : Value) : P (Step.ofChecked (m.getIndex list index)).machine := by
  unfold Machine.getIndex
  cases hindex : m.listIndex list index with
  | error e => exact hP.listIndex h hindex
  | ok i =>
    simp only [bind, Except.bind]
    split
    · exact hP.checked_push h _
    · exact hP.message _ h

theorem setIndex (list index v : Value) : P (Step.ofChecked (m.setIndex list index v)).machine := by
  unfold Machine.setIndex
  cases hindex : m.listIndex list index with
  | error e => exact hP.listIndex h hindex
  | ok i =>
    simp only [bind, Except.bind]
    split
    · exact hP.setItem _ _ _ h
    · exact hP.message _ h

theorem newList (count : Nat) : P (Step.ofChecked (m.newList count)).machine := by
  unfold Machine.newList
  split
  · exact hP.message _ h
  · exact hP.pushObject (hP.list _ (hP.stack (Machine.size_shrink_le _ _) h))

/-- The locals of a function are pushed; all else stays. -/
theorem pushLocals (count : Nat) : P (Step.ofChecked (Machine.pushLocals count m)).machine ∧
    ∀ n, Machine.pushLocals count m = .ok n → n.heap = m.heap ∧ n.frames = m.frames ∧
    n.options = m.options := by
  induction count generalizing m with
  | zero => exact ⟨h, fun n hn => by cases hn; exact ⟨rfl, rfl, rfl⟩⟩
  | succ count ih =>
    unfold Machine.pushLocals Machine.push
    split
    · rename_i n hpush
      split at hpush
      · cases hpush
      · rename_i hlt
        obtain rfl := Except.ok.inj hpush
        exact ih (hP.push .none (Nat.lt_of_not_le hlt) h)
    · rename_i e hpush
      split at hpush
      · cases hpush
        exact ⟨hP.message _ h, nofun⟩
      · cases hpush

theorem checked_enter {id : ObjectId} {f : ScriptFunction}
    (hf : m.heap.get? id = some (.function f)) (callee : Nat) :
    P (Step.ofChecked (m.enter f callee)).machine := by
  unfold Machine.enter
  split
  · exact hP.message _ h
  · rename_i hlt
    obtain ⟨hlocals, hsame⟩ := hP.pushLocals h (f.chunk.locals - f.chunk.params)
    cases hr : Machine.pushLocals (f.chunk.locals - f.chunk.params) m with
    | error e => rw [hr] at hlocals; exact hlocals
    | ok n =>
      rw [hr] at hlocals
      obtain ⟨hheap, hframes, hoptions⟩ := hsame n hr
      refine hP.enter (callee + 1) (by rw [hheap]; exact hf) ?_ hlocals
      rw [hframes, hoptions]
      exact Nat.lt_of_not_le hlt

theorem call (argc : Nat) : P (m.call argc).machine := by
  unfold Machine.call
  split
  · exact hP.message _ h
  · dsimp only
    split
    · rename_i f hobject
      split
      · obtain ⟨id, -, hf⟩ : ∃ id, _ = some id ∧ m.heap.get? id = some (.function f) := by
          unfold Machine.object? at hobject
          split at hobject
          · exact ⟨_, rfl, hobject⟩
          · cases hobject
        exact hP.checked_enter h hf _
      · exact hP.message _ h
    · split
      · exact h
      · exact hP.message _ h
    · exact hP.message _ h

theorem ret (calls : Nat) (v : Value) : P (m.ret calls v).machine := by
  unfold Machine.ret
  split
  · exact hP.message _ h
  · split
    · exact hP.leave h
    · rename_i f _ _
      exact hP.checked_push (hP.leave (hP.stack (Machine.size_shrink_le _ (f.base - 1)) h)) v

theorem getGlobal (slot : Nat) : P (Step.ofChecked (m.getGlobal slot)).machine := by
  unfold Machine.getGlobal
  split
  · exact hP.checked_push h _
  · exact hP.message _ h

theorem getLocal (place : Nat) : P (Step.ofChecked (m.getLocal place)).machine := by
  unfold Machine.getLocal
  split
  · exact hP.checked_push h _
  · exact hP.message _ h

theorem setLocal (place : Nat) (v : Value) : P (Step.ofChecked (m.setLocal place v)).machine := by
  unfold Machine.setLocal
  split
  · exact hP.stack (by simp) h
  · exact hP.message _ h

theorem withTop {next : Value → Machine σ → Step σ}
    (hnext : ∀ v, P m.pop → P (next v m.pop).machine) :
    P (Machine.exec.withTop m next).machine := by
  unfold Machine.exec.withTop Machine.takeTop
  cases m.stack.back? with
  | some v => exact hnext v (hP.stack (by simp) h)
  | none => exact hP.message _ h

theorem withTwo {next : Value → Value → Machine σ → Step σ}
    (hnext : ∀ lhs rhs, P m.pop.pop → P (next lhs rhs m.pop.pop).machine) :
    P (Machine.exec.withTwo m next).machine :=
  hP.withTop h fun rhs h => hP.withTop h fun lhs h => hnext lhs rhs h

/-- One instruction, of the code of a call in progress. -/
theorem exec (calls base : Nat) {f : Frame} (hf : f ∈ m.frames) {i : Instr}
    (hi : i ∈ f.chunk.code) : P (m.exec calls f.chunk base i.op).machine := by
  unfold Machine.exec
  cases hop : i.op with
  | constant index =>
    dsimp only
    split
    · exact hP.checked_push h _
    · exact hP.message _ h
  | none | boolean b => exact hP.checked_push h _
  | pop => exact hP.withTop h fun _ h => h
  | getGlobal slot => exact hP.getGlobal h slot
  | setGlobal slot =>
    refine hP.withTop h fun v h => ?_
    unfold Machine.setGlobal
    split
    · rename_i globals hset
      exact hP.setGlobal hf hi hop hset h
    · exact hP.message _ h
  | getLocal slot => exact hP.getLocal h _
  | setLocal slot => exact hP.withTop h fun v h => hP.setLocal h _ v
  | unary op => exact hP.withTop h fun v h => hP.unary h op v
  | binary op => exact hP.withTwo h fun lhs rhs h => hP.binary h op lhs rhs
  | jump target => exact hP.jump target h
  | jumpIfFalse target =>
    refine hP.withTop h fun v h => ?_
    show P (if v.isTruthy then m.pop else m.pop.jump target)
    split
    · exact h
    · exact hP.jump target h
  | jumpIfFalseKeep target =>
    dsimp only
    split
    · split
      · exact h
      · exact hP.jump target h
    · exact hP.message _ h
  | jumpIfTrueKeep target =>
    dsimp only
    split
    · split
      · exact hP.jump target h
      · exact h
    · exact hP.message _ h
  | call argc => exact hP.call h argc
  | ret => exact hP.withTop h fun v h => hP.ret h calls v
  | newList count => exact hP.newList h count
  | getIndex => exact hP.withTwo h fun list index h => hP.getIndex h list index
  | setIndex =>
    exact hP.withTop h fun v h => hP.withTwo h fun list index h => hP.setIndex h list index v

/-- **Every instruction keeps the property.** -/
theorem step (calls : Nat) : P (m.step calls).machine := by
  unfold Machine.step
  split
  · exact hP.message _ h
  · rename_i f hback
    split
    · exact hP.message _ h
    · rename_i i hi
      obtain ⟨f', hf', hchunk⟩ := Machine.mem_frames_jump (Array.mem_of_back? hback) (f.pc + 1)
      rw [← hchunk]
      refine hP.exec (hP.jump _ h) calls f.base hf' ?_
      rw [hchunk]
      exact Array.mem_of_getElem? hi

omit h in
theorem of_step {calls : Nat} {s : Step σ} (steps : m.step calls = s) (h : P m) : P s.machine :=
  steps ▸ hP.step h calls

/-- **Every return from a native function keeps the property.** -/
theorem resume (name : String) (callee : Nat) (v : Value) :
    P (Step.ofChecked (m.resume name callee v)).machine := by
  have hpush := hP.checked_push (hP.stack (Machine.size_shrink_le _ callee) h) v
  have heither {c : Prop} [Decidable c] {x y : Checked σ (Machine σ)}
      (hx : P (Step.ofChecked x).machine) (hy : P (Step.ofChecked y).machine) :
          P (Step.ofChecked (if c then x else y)).machine := by
    split
    · exact hx
    · exact hy
  exact heither h (heither (hP.message _ h) hpush)

omit h in
theorem of_resume {name : String} {callee : Nat} {v : Value} {c : Checked σ (Machine σ)}
    (resumes : m.resume name callee v = c) (h : P m) : P (Step.ofChecked c).machine :=
  resumes ▸ hP.resume h name callee v

end Upkeep

/-! ## Requests -/

/-- Requests that are answered at once, without anything in progress. -/
def Request.Plain : Request → Prop
  | .eval _ | .evalBytes _ | .compile _ _ => False
  | _ => True

theorem Request.Plain.performed {r : Request} (h : r.Plain) (call : Callback σ) (fuel : Nat)
    (m : Machine σ) : ∃ a n, r.perform call fuel m = .ok a n := by
  cases r <;> first | exact False.elim h | exact ⟨_, _, rfl⟩

/-- The parts of a machine that requests leave alone if they are answered at once. -/
def Machine.standing (m : Machine σ) : Machine σ :=
  { m with
    heap := {}, raw := { limit := 0 }, message := "", invalidReleases := 0, output :=
      "", platform := {} }

/-- A property of machines that is kept by the changes that requests are made of if they are
answered at once. -/
structure Service (P : Machine σ → Prop) : Prop where
  /-- Other parts of the machine than the heap. -/
  aside : ∀ {m n : Machine σ}, P m → n.standing = m.standing → n.heap = m.heap → P n
  string : ∀ {m : Machine σ} (s : String), P m → P (m.alloc (.string s)).2
  list : ∀ {m : Machine σ} (items : Array Value), P m → P (m.alloc (.list items)).2
  pin : ∀ {m : Machine σ} (id : ObjectId), P m → P { m with heap := (m.heap.pin id).2 }
  unpin : ∀ {m : Machine σ} (id : ObjectId), P m → P { m with heap := (m.heap.unpin id).2 }
  /-- Inside of an evaluation, the host's requests collect nothing. -/
  collect : ∀ {m : Machine σ}, m.inEval = false → P m → P m.collect.2

namespace Service

variable {P : Machine σ → Prop} (hP : Service P) {m : Machine σ} (h : P m)

include hP h

theorem collectGarbage : P m.collectGarbage.2 := by
  unfold Machine.collectGarbage
  split
  · exact h
  · rename_i hin
    exact hP.collect (eq_false_of_ne_true hin) h

theorem pinForHost (v : Value) : P (m.pinForHost v) := by
  unfold Machine.pinForHost
  split
  · exact h
  · split
    · exact hP.pin _ h
    · exact h

theorem release (v : Value) : P (m.release v).2 := by
  unfold Machine.release
  split
  · exact h
  · rename_i id _
    have hunpin := hP.unpin id h
    split <;> rename_i hr <;> rw [hr] at hunpin
    · exact hP.aside hunpin rfl rfl
    · dsimp only
      split
      · exact hP.collectGarbage hunpin
      · exact hunpin

theorem retain (v : Value) : P (m.retain v).2 := by
  unfold Machine.retain
  split
  · exact h
  · rename_i id _
    have hpin := hP.pin id h
    split <;> rename_i hr <;> rw [hr] at hpin <;> exact hpin

theorem builds {n : Machine σ} (hbuilds : m.Builds n) : P n := by
  induction hbuilds with
  | start => exact h
  | string _ s ih => exact hP.string s ih
  | list _ items ih => exact hP.list items ih

theorem ofJson (j : Json) : P (m.ofJson j).2 := by
  obtain ⟨v, n, -, hr, hbuilds⟩ | ⟨e, n, -, hr, hbuilds⟩ := m.ofJson_cases j
  · rw [hr]
    exact hP.pinForHost (hP.builds h hbuilds) v
  · rw [hr]
    exact hP.builds h hbuilds

/-- **Requests that are answered at once keep the property.** -/
theorem plain {r : Request} (hr : r.Plain) {call : Callback σ} {fuel : Nat} {n : Machine σ}
    {a : r.Reply} (hperform : r.perform call fuel m = .ok a n) : P n := by
  cases r with
  | eval source | evalBytes source | compile source name => exact hr.elim
  | createString text => cases hperform; exact hP.pinForHost (hP.string text h) _
  | createList items => cases hperform; exact hP.pinForHost (hP.list _ h) _
  | release v => cases hperform; exact hP.release h v
  | retain v => cases hperform; exact hP.retain h v
  | collect => cases hperform; exact hP.collectGarbage h
  | importJson j => cases hperform; exact hP.ofJson h j
  | raise message | print line | acquire size | discard pointer size =>
    cases hperform; exact hP.aside h rfl rfl
  | _ => cases hperform; exact h

end Service

/-! ## Evaluations -/

theorem evalSource_apply (call : Callback σ) (fuel : Nat) (source : String) (m : Machine σ) :
    evalSource call fuel source m =
      match compileSource call source m.options.chunkName m with
      | .ok chunk n => execute call fuel chunk n
      | .failed e n =>
        .failed (.ofStage e.stage) { n with report := staticReport m.options.chunkName source e }
      | .unwound n => .unwound n
      | .exhausted => .exhausted := by
  simp only [evalSource, Run.bind_apply, Run.gets, Outcome.andThen_ok, Run.attempt]
  cases compileSource call source m.options.chunkName m <;> rfl

/-- A machine at the end of an evaluation. A result is pinned for the host, and garbage is
collected. -/
def Machine.conclude (m : Machine σ) (result : Except Failure Value) : Machine σ :=
  let m := { m with inEval := false }
  let m := match result with
    | .ok v =>
      let heap := match v.asObject? with
        | some id => (m.heap.pin id).2
        | none => m.heap
      { m with heap, report := "" }
    | .error _ => m
  m.collectGarbage.2

/-- A machine that turns an evaluation down. -/
abbrev Machine.refuseEval (m : Machine σ) : Machine σ :=
  { m with message := reentrantMessage, report := "error: " ++ reentrantMessage ++ "\n" }

variable {ε : Type}

theorem eval_of_inEval {m : Machine σ} (h : m.inEval = true) (call : Callback σ) (fuel : Nat)
    (source : String) :
    (eval call fuel source m : Outcome σ ε (Except Failure Value)) =
      .ok (.error .unknown) m.refuseEval := by
  unfold eval
  rw [if_pos h]

theorem eval_of_not_inEval {m : Machine σ} (h : m.inEval = false) (call : Callback σ)
    (fuel : Nat) (source : String) :
    (eval call fuel source m : Outcome σ ε (Except Failure Value)) =
      match evalSource call fuel source m.beginEval with
      | .ok v n => .ok (.ok v) (n.conclude (.ok v))
      | .failed f n => .ok (.error f) (n.conclude (.error f))
      | .unwound n => .unwound n
      | .exhausted => .exhausted := by
  unfold eval
  rw [if_neg (by rw [h]; exact Bool.false_ne_true)]
  simp only [Run.attempt]
  cases evalSource call fuel source m.beginEval <;> rfl

/-- The end of an evaluation keeps a property of requests that says nothing on the evaluation in
progress. -/
theorem Service.conclude {P : Machine σ → Prop} (hP : Service P)
    (hstatus : ∀ {m : Machine σ} inEval report, P m → P { m with inEval, report }) {m : Machine σ}
    (h : P m) (result : Except Failure Value) : P (m.conclude result) := by
  unfold Machine.conclude
  refine hP.collectGarbage ?_
  cases result with
  | error f => exact hstatus false m.report h
  | ok v =>
    dsimp only
    cases v.asObject? with
    | none => exact hstatus false "" h
    | some id => exact hstatus false "" (hP.pin id h)

/-- A property of machines that is kept by instructions, by requests, by callbacks and by
compilations, if the code that they produce is of some kind. -/
structure Tenure (P : Machine σ → Prop) (call : Callback σ) (code : Chunk → Prop) : Prop where
  upkeep : Upkeep P
  service : Service P
  status : ∀ {m : Machine σ} (nativeDepth : Nat) (inEval : Bool) (report : String), P m →
    P { m with nativeDepth, inEval, report }
  start : ∀ {m : Machine σ} {chunk : Chunk}, code chunk → P m → P (Core.start chunk m)
  settle : ∀ {m : Machine σ} (calls height : Nat), P m →
    P { m with frames := m.frames.shrink calls, stack := m.stack.shrink height }
  recover : ∀ {m : Machine σ}, P m → P m.recover
  native : ∀ {m n : Machine σ} {entry callee : Nat} {f : NativeFunction (Native σ)}
    {args : List Value}, m.step entry = .native f args callee n → P m → P n.enterNative →
    (call (f.code args) n.enterNative).All P
  compile : ∀ {m : Machine σ}, P m → ∀ source name, (compileSource call source name m).Leaves
    (fun chunk n => code chunk ∧ P n) (fun _ => P) P

namespace Tenure

variable {P : Machine σ → Prop} {call : Callback σ} {code : Chunk → Prop} (hP : Tenure P call code)
    {m : Machine σ}
  (h : P m)

include hP h

theorem runSteps (entry fuel : Nat) : (runSteps call entry fuel m).All P := by
  induction fuel generalizing m with
  | zero => trivial
  | succ fuel ih =>
    have hstep := hP.upkeep.step h entry
    unfold ScriptMachine.runSteps
    split <;> rename_i hs <;> rw [hs] at hstep
    · exact ih hstep
    · exact hstep
    · exact hstep
    · rename_i f args callee before
      -- The host has its turn in between.
      have hnative :=
        hP.native hs h (hP.status (before.nativeDepth + 1) before.inEval before.report hstep)
      split <;> rename_i hr <;> rw [hr] at hnative
      · rename_i v after
        have hafter := hP.status (after.nativeDepth - 1) after.inEval after.report hnative
        have hresume := hP.upkeep.resume hafter f.name callee v
        dsimp only
        split <;> rename_i hr' <;> rw [hr'] at hresume
        · exact ih hresume
        · exact hresume
      · exact hnative
      · trivial

theorem execute {chunk : Chunk} (hchunk : code chunk) (fuel : Nat) :
    (execute call fuel chunk m).All P := by
  have hrun := hP.runSteps (hP.start hchunk h) m.frames.size fuel
  unfold ScriptMachine.execute
  dsimp only
  split <;> rename_i hr <;> rw [hr] at hrun
  · exact hP.settle _ _ hrun
  · exact hP.status _ _ _ (hP.settle m.frames.size m.stack.size hrun)
  · exact hrun
  · trivial

variable (fuel : Nat)

theorem evalSource (source : String) : (evalSource call fuel source m).All P := by
  have hcompile := hP.compile h source m.options.chunkName
  rw [evalSource_apply]
  split <;> rename_i hr <;> rw [hr] at hcompile
  · exact hP.execute hcompile.2 hcompile.1 fuel
  · exact hP.status _ _ _ hcompile
  · exact hcompile
  · trivial

theorem eval {ε : Type} (source : String) : (eval call fuel source m : Outcome σ ε _).All P := by
  cases hin : m.inEval with
  | true =>
    rw [eval_of_inEval hin]
    exact hP.status _ _ _ (hP.upkeep.message reentrantMessage h)
  | false =>
    have hrun := hP.evalSource (hP.status m.nativeDepth true "" h) fuel source
    have hconclude {n : Machine σ} := hP.service.conclude (m := n) fun _ _ hn => hP.status _ _ _ hn
    rw [eval_of_not_inEval hin]
    split <;> rename_i hr <;> rw [hr] at hrun
    · exact hconclude hrun _
    · exact hconclude hrun _
    · exact hrun
    · trivial

theorem guardedEval (source : SizedText) :
    (guardedEval call fuel source m : Outcome σ ε _).All P := by
  unfold ScriptMachine.guardedEval
  split
  · exact hP.status _ _ _ h
  · rename_i text _
    have heval : (ScriptMachine.eval call fuel text m : Outcome σ ε _).All P := hP.eval h fuel text
    split <;> rename_i hr <;> rw [hr] at heval
    · exact heval
    · exact heval
    · exact hP.recover heval
    · trivial

/-- **Requests keep the property**, with all that they evaluate and compile. -/
theorem perform (r : Request) : (r.perform call fuel m).All P := by
  by_cases hr : r.Plain
  · obtain ⟨a, n, hn⟩ := hr.performed call fuel m
    rw [hn]
    exact hP.service.plain h hr hn
  · cases r with
    | eval source => exact hP.eval h fuel source
    | evalBytes source => exact hP.guardedEval h fuel source
    | compile source name =>
      have hcompile := hP.compile h source name
      show Outcome.All P (Run.attempt (compileSource call source name) m)
      unfold Run.attempt
      split <;> rename_i hr <;> rw [hr] at hcompile
      · exact hcompile.2
      · exact hcompile
      · exact hcompile
      · trivial
    | _ => exact absurd trivial hr

end Tenure

end ScriptMachine
