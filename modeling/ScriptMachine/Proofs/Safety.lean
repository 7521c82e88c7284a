import ScriptMachine.Proofs.Correctness
import ScriptMachine.Proofs.Honest
import ScriptMachine.Proofs.Stacking
/-!
# Compiled code is safe

When a program runs, as many values lie above the base of each call as the code says. So every
instruction finds what it needs, and internal errors do not occur.

* `Machine.sound_step`: instructions find what they need and lead to calls of that kind;
* `Machine.InSession.panics_only`: **compiled code never fails with an internal error**.
-/

namespace ScriptMachine

variable {σ : Type}

/-! ## Calls in progress -/

/-- Above the first `entry` calls there are calls of code that is in order. So many values lie above
the base of each as its next instruction expects: up to `top` for the innermost call, and for
another one up to the base of the call inside of it. The function that a call inside of another one
runs lies below its base. -/
inductive Stacked (globals entry : Nat) : Array Frame → (top : Nat) → Prop
  | start {frames : Array Frame} {top : Nat} (size : frames.size = entry) :
    Stacked globals entry frames top
  | call {frames : Array Frame} {f : Frame} {top : Nat}
    (below : Stacked globals entry frames f.base) (verified : f.chunk.Verified globals)
    (pc : f.pc < f.chunk.code.size)
    (height : top = f.base + f.chunk.height f.pc) (callee : frames.size = entry ∨ 0 < f.base) :
    Stacked globals entry (frames.push f) top

namespace Stacked

variable {globals globals' entry top : Nat} {frames : Array Frame}

theorem mono (h : Stacked globals entry frames top) (hle : globals ≤ globals') :
    Stacked globals' entry frames top := by
  induction h with
  | start size => exact .start size
  | call _ verified pc height callee ih => exact .call ih (verified.mono hle) pc height callee

/-- The calls of a program lie on top of each other, above those outside of it. -/
theorem piled (h : Stacked globals entry frames top) :
    ∃ outer low, outer.size = entry ∧ Piled (fun c => c.Verified globals) outer low frames top := by
  induction h with
  | @start frames top size => exact ⟨frames, top, size, .start⟩
  | call _ verified pc height callee ih =>
    obtain ⟨outer, low, rfl, hpiled⟩ := ih
    exact ⟨outer, low, rfl, .call hpiled verified pc height callee⟩

end Stacked

theorem Piled.stacked {globals low top : Nat} {outer frames : Array Frame}
    (h : Piled (fun c => c.Verified globals) outer low frames top) :
    Stacked globals outer.size frames top := by
  induction h with
  | start => exact .start rfl
  | call _ verified pc height callee ih => exact .call ih verified pc height callee

/-- Where an instruction leads: to calls of the same kind, to the end of the program, or to a
panic. -/
def Step.Sound (globals entry : Nat) : Step σ → Prop
  | .next n => entry < n.frames.size ∧ Stacked globals entry n.frames n.stack.size
  | .native _ _ callee n =>
    entry < n.frames.size ∧ callee ≤ n.stack.size ∧ Stacked globals entry n.frames (callee + 1)
  | .failed f _ => f = .panic
  | .done _ _ => True

namespace Machine

variable {m n : Machine σ} {entry : Nat}

/-- Functions on the stack were compiled with their variables in place. -/
def Equipped (m : Machine σ) : Prop :=
  ∀ v f, v ∈ m.stack → m.object? v = some (.function f) →
    f.arity = f.chunk.params ∧ f.chunk.Verified m.globals.size

/-- **An instruction of code that is in order finds what it needs**, and leads to calls of code that
is in order. -/
theorem sound_step (h : Stacked m.globals.size entry m.frames m.stack.size)
    (hsize : entry < m.frames.size) (hequipped : m.Equipped) :
    (m.step entry).Sound m.globals.size entry := by
  obtain ⟨outer, low, rfl, hpiled⟩ := h.piled
  have hpiles := piles_step hpiled hsize (Nat.le_refl _) (.inl rfl) (fun c hc => ⟨_, hc⟩) hequipped
  generalize m.step outer.size = s at hpiles ⊢
  cases s with
  | next n => exact ⟨hpiles.1, hpiles.2.stacked⟩
  | native f args callee n => exact ⟨hpiles.1, hpiles.2.1, hpiles.2.2.stacked⟩
  | failed f n => exact hpiles.resolve_right fun hfault => hfault.2 fun c hc => hc
  | done v n => trivial

/-! ## Runs -/

/-- There are calls above the first `entry` ones, and their code is in order. -/
structure InOrder (m : Machine σ) (entry : Nat) : Prop where
  inner : entry < m.frames.size
  stacked : Stacked m.globals.size entry m.frames m.stack.size

/-- An object that a program may come across: variables, modules, the stack and the code in progress
lead to it. -/
inductive Meets (m : Machine σ) : ObjectId → Prop
  | root {v : Value} {id : ObjectId} (found : v ∈ m.roots) (object : v.asObject? = some id) :
    Meets m id
  | inside {id id' : ObjectId} {o : Object (Native σ)} {v : Value} (before : Meets m id)
    (alive : m.heap.get? id = some o) (found : v ∈ o.references) (object : v.asObject? = some id') :
    Meets m id'

variable {A : ObjectId → Prop}

theorem Meets.known {P : Policy σ} {id : ObjectId} (h : m.Meets id) (hm : P.Known A m) :
    A id := by
  induction h with
  | root found object => exact hm.roots _ found _ object
  | inside _ alive found object ih =>
    obtain ⟨o, ho, hrefs, -⟩ := hm.object _ ih
    obtain rfl := Option.some.inj (alive.symm.trans ho)
    exact hrefs _ found _ object

/-- Functions that a script may come across were compiled with their variables in place. -/
theorem Meets.verified {id : ObjectId} {f : ScriptFunction} (h : m.Meets id)
    (hm : Policy.honest.Known A m) (hf : m.heap.get? id = some (.function f)) :
    f.arity = f.chunk.params ∧ f.chunk.Verified m.globals.size := by
  obtain ⟨o, ho, -, hallows⟩ := hm.object id (h.known hm)
  obtain rfl := Option.some.inj (hf.symm.trans ho)
  obtain ⟨d, hd, rfl⟩ : ∃ d : Core.Func, d.Scoped m.globals.size ∧ f = d.script := hallows
  exact ⟨rfl, Core.Func.verified hd⟩

theorem equipped_of_known (h : Policy.honest.Known A m) : m.Equipped := by
  intro v f hv hf
  unfold object? at hf
  split at hf
  · rename_i id hid
    exact (Meets.root (Policy.mem_roots.2 (.inr (.inr (.inl hv)))) hid).verified h hf
  · cases hf

variable {A : ObjectId → Prop} {fuel : Nat}

/-- When an honest function returns, the calls are as it has found them, and its value is alive. -/
theorem sound_of_native {f : NativeFunction (Native σ)} {args : List Value} {callee : Nat}
    {v : Value} {before after : Machine σ} (hm : Policy.honest.Runs A m) (h : m.InOrder entry)
    (hasks : m.step entry = .native f args callee before)
    (hruns : Host.run fuel (f.code args) before.enterNative = .ok v after)
    (hfits : after.heap.Fits) :
    entry < after.frames.size ∧ callee ≤ after.stack.size ∧
      Stacked after.globals.size entry after.frames (callee + 1) ∧ ¬ after.Freed v := by
  have hgrows := grows_of_native (Host.grows_run fuel) hasks hruns
  have hmfits := hfits.of_le hgrows.heap.size
  have hsound := sound_step h.stacked h.inner (equipped_of_known (hm hmfits).2.1)
  rw [hasks] at hsound
  obtain ⟨hinner, hcallee, hstacked⟩ := hsound
  obtain ⟨A', hbefore, -⟩ := hm.asks hmfits hasks
  have hrun := Host.grows_run fuel (f.code args) before.enterNative
  rw [hruns] at hrun
  have hin := (hbefore (hfits.of_le hrun.heap.size)).1
  obtain ⟨hstack, hframes, -⟩ := Host.calls_of_run hin hruns
  rw [hstack, hframes]
  refine ⟨hinner, hcallee, hstacked.mono hgrows.size_globals, ?_⟩
  rintro ⟨id, hid, halive⟩
  obtain ⟨A'', hknown, hv⟩ := Policy.returns_known hm hmfits hasks hruns
  obtain ⟨o, ho, -⟩ := (hknown hfits).2.1.object id (hv hfits id hid)
  rw [Heap.contains_eq_isSome_get?, ho] at halive
  cases halive

variable (h : m.InOrder entry) (hm : Policy.honest.Runs A m)

include h hm

/-- **One step of a program leads to calls of code that is in order.** -/
theorem InOrder.advances (hadv : Advances (Host.run fuel) entry m n) (hfits : n.heap.Fits) :
    n.InOrder entry := by
  cases hadv with
  | next hstep =>
    have hgrows := m.grows_step entry
    rw [hstep] at hgrows
    have hsound :=
      sound_step h.stacked h.inner (equipped_of_known (hm (hfits.of_le hgrows.heap.size)).2.1)
    rw [hstep] at hsound
    exact ⟨hsound.1, hsound.2.mono hgrows.size_globals⟩
  | @native f args callee v before after _ hasks hruns hresumes =>
    have hafter := grows_of_resume after f.name callee v
    rw [hresumes] at hafter
    obtain ⟨hinner, hcallee, hstacked, -⟩ :=
      sound_of_native hm h hasks hruns (hfits.of_le hafter.heap.size)
    have hlands := lands_resume after.leaveNative f.name callee v
    rw [hresumes] at hlands
    obtain ⟨hsize, hframes⟩ : n.stack.size = min callee after.stack.size + 1 ∧
      n.frames = after.frames := hlands
    refine ⟨by rw [hframes]; exact hinner, ?_⟩
    rw [hframes, hsize, Nat.min_eq_left hcallee]
    exact hstacked.mono hafter.size_globals

/-- It fails with nothing but a panic. -/
theorem InOrder.fails {e : Failure}
    (hfails : Fails (Host.run fuel) entry m e n) (hfits : n.heap.Fits) : e = .panic := by
  cases hfails with
  | step hstep =>
    have hgrows := m.grows_step entry
    rw [hstep] at hgrows
    have hsound :=
      sound_step h.stacked h.inner (equipped_of_known (hm (hfits.of_le hgrows.heap.size)).2.1)
    rw [hstep] at hsound
    exact hsound
  | @resume f args callee v before after _ hasks hruns hrefuses =>
    have hafter := grows_of_resume after f.name callee v
    rw [hrefuses] at hafter
    obtain ⟨-, -, -, halive⟩ := sound_of_native hm h hasks hruns (hfits.of_le hafter.heap.size)
    have hlands := lands_resume after.leaveNative f.name callee v
    rcases Lands.faulty hlands hrefuses with rfl | ⟨-, hfreed⟩
    · rfl
    · exact absurd hfreed halive

/-- **A run leads to calls of code that is in order.** -/
theorem inOrder_of_steps {k : Nat}
    (hsteps : Steps (Host.run fuel) entry k m n) (hfits : n.heap.Fits) : n.InOrder entry := by
  induction hsteps generalizing A with
  | refl m => exact h
  | @cons _ _ p _ head tail ih =>
    obtain ⟨A', hp⟩ := (Policy.trusts_honest fuel).runs_of_advances hm head
    have hgrows := tail.grows (Host.grows_run fuel)
    exact ih (h.advances hm head (hfits.of_le hgrows.heap.size)) hp hfits

end Machine

/-! ## Sessions -/

/-- The code of a program that compiles is in order, and has no local variables. -/
theorem verified_of_compileSource {call : Callback σ} (hcall : Callback.Grows call)
    {source name : String} {m n : Machine σ} {chunk : Chunk}
    (h : compileSource call source name m = .ok chunk n) :
    chunk.Verified n.globals.size ∧ chunk.locals = 0 := by
  have hleaves := leaves_compileSource hcall source name m
  rw [h] at hleaves
  obtain ⟨-, d, rfl, hlocals, hscoped⟩ := hleaves
  exact ⟨Core.Func.verified hscoped, hlocals⟩

/-- A program fails at one of its instructions. -/
theorem fails_of_execute {call : Callback σ} {fuel : Nat} {chunk : Chunk} {m n : Machine σ}
    {e : Failure} (h : execute call fuel chunk m = .failed e n) :
    ∃ k p q, Steps call m.frames.size k (Core.start chunk m) p ∧ Fails call m.frames.size p e q ∧
    q.heap = n.heap := by
  rw [Core.execute_eq] at h
  split at h
  · cases h
  · rename_i hrun
    cases h
    obtain ⟨k, p, -, hsteps, hfails⟩ := fails_of_runSteps hrun
    exact ⟨k, p, _, hsteps, hfails, rfl⟩
  · cases h
  · cases h

namespace Machine

variable {m n : Machine σ} {fuel : Nat} {source name : String} {chunk : Chunk}

/-- A program starts in order, with its objects known. -/
theorem InSession.starts (h : m.InSession)
    (hcompile : compileSource (Host.run fuel) source name m.beginEval = .ok chunk n) :
    (∃ A, Policy.honest.Runs A (Core.start chunk n)) ∧
    (Core.start chunk n).InOrder n.frames.size := by
  constructor
  · obtain ⟨A, hA⟩ := h.holds
    have hm : Policy.honest.Runs A m.beginEval :=
      Policy.Holds.runs (hA.of_get? rfl rfl rfl rfl rfl id fun _ => rfl) fun _ => rfl
    have hleads := (Policy.trusts_honest fuel).compileSource hm source name
    rw [hcompile] at hleads
    obtain ⟨A', honward, hconstants⟩ := hleads
    refine ⟨A', (honward.runs hm).setCalls (fun _ hv => hv) fun f hf => ?_⟩
    rcases Array.mem_push.1 hf with hf | rfl
    · exact .inl hf
    · exact .inr hconstants
  · obtain ⟨hverified, hlocals⟩ := verified_of_compileSource (Host.grows_run fuel) hcompile
    have hsize : n.frames.size < (n.frames.push { chunk, base := n.stack.size }).size := by simp
    refine ⟨hsize, .call (.start rfl) hverified hverified.start ?_ (.inl rfl)⟩
    rw [Chunk.height_zero, hlocals]
    rfl

/-- **Compiled code is safe.** In a session with honest functions the code of every program that
compiles is in order. So are, whatever the program has come to, the calls in progress and all
functions that it may come across; and it fails with nothing but a panic, in an instruction and as a
whole. -/
theorem InSession.panics_only (h : m.InSession)
    (hcompile : compileSource (Host.run fuel) source m.options.chunkName m.beginEval =
      .ok chunk n) :
    chunk.Verified n.globals.size ∧
    (∀ k p, Steps (Host.run fuel) n.frames.size k (Core.start chunk n) p → p.heap.Fits →
      p.InOrder n.frames.size ∧
      (∀ id f, p.Meets id → p.heap.get? id = some (.function f) →
        f.arity = f.chunk.params ∧ f.chunk.Verified p.globals.size) ∧
      ∀ e q, Fails (Host.run fuel) n.frames.size p e q → q.heap.Fits → e = .panic) ∧
    ∀ limit e q, (eval (Host.run fuel) limit source m : Outcome σ Empty _) = .ok (.error e) q →
      m.inEval = false → q.heap.Fits → e = .panic := by
  obtain ⟨⟨A, hstart⟩, hinOrder⟩ := h.starts hcompile
  refine ⟨(verified_of_compileSource (Host.grows_run fuel) hcompile).1, fun k p hsteps hfits => ?_,
    fun limit e q heval hin hfits => ?_⟩
  · obtain ⟨A', hp⟩ := (Policy.trusts_honest fuel).runs_of_steps hstart hsteps
    have hp' := inOrder_of_steps hinOrder hstart hsteps hfits
    exact ⟨hp', fun id f hid hf => hid.verified (hp hfits).2.1 hf,
      fun e q hfails => hp'.fails hp hfails⟩
  · rw [eval_of_not_inEval hin, evalSource_apply] at heval
    have hcompile : compileSource (Host.run fuel) source m.options.chunkName m.beginEval =
      .ok chunk n := hcompile
    simp only [hcompile] at heval
    split at heval
    · cases heval
    · rename_i hexecute
      cases heval
      obtain ⟨k, p, q, hsteps, hfails, hheap⟩ := fails_of_execute hexecute
      have hfits : q.heap.Fits := hheap ▸ hfits.of_le (grows_conclude _ _).heap.size
      obtain ⟨A', hp⟩ := (Policy.trusts_honest fuel).runs_of_steps hstart hsteps
      have hgrows := hfails.grows (Host.grows_run fuel)
      exact (inOrder_of_steps hinOrder hstart hsteps (hfits.of_le hgrows.heap.size)).fails
        hp hfails hfits
    · cases heval
    · cases heval

/-- A program with a function, a loop and a list. -/
theorem InSession.panics_only_sum :
    ∃ (chunk : Chunk) (n : Machine Unit), (Machine.new {} () : Machine Unit).InSession ∧
      compileSource (Host.run 1)
        "func add(a, b):\n  return a + b\nvar i = 0\nwhile i < 2:\n  i = add(i, [1][0])\ni"
          ({} : Options).chunkName (Machine.new {} ()).beginEval = .ok chunk n ∧
      chunk.Verified n.globals.size ∧
      ∀ k p, Steps (Host.run 1) n.frames.size k (Core.start chunk n) p → p.heap.Fits →
      p.InOrder n.frames.size := by
  obtain ⟨chunk, n, hcompile, -⟩ := Outcome.exists_of_value? (o := compileSource (Host.run 1)
    "func add(a, b):\n  return a + b\nvar i = 0\nwhile i < 2:\n  i = add(i, [1][0])\ni"
      ({} : Options).chunkName
    (Machine.new {} () : Machine Unit).beginEval) (fun _ _ => True) (by decide +kernel)
  obtain ⟨hverified, hruns, -⟩ := InSession.panics_only (.new {} ()) hcompile
  exact ⟨chunk, n, .new {} (), hcompile, hverified,
    fun k p hsteps hfits => (hruns k p hsteps hfits).1⟩

end Machine

end ScriptMachine
