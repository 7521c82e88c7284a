import ScriptMachine.Proofs.Idle
import ScriptMachine.Proofs.Overlay
import ScriptMachine.Proofs.Safety
/-!
# Calls and their callers

A call of a script function works above its place on the stack. Until it returns, the calls that
wait for it stay as they are, and so do the values below; in the end the function and its arguments
have given way to the value of the call.

* `Machine.Confined`: instructions that leave alone what lies below the innermost call;
* `Machine.Visited.calls_return`: **a call leaves its caller with its value in the place of the
  callee**.
-/

namespace ScriptMachine

variable {σ : Type} {call : Callback σ} {entry depth : Nat} {m n : Machine σ}

/-- There is one way to go on. -/
theorem Advances.unique {n' : Machine σ} (h : Advances call entry m n)
    (h' : Advances call entry m n') : n = n' := by
  cases h with
  | next h =>
    cases h' with
    | next h' => exact Step.next.inj (h.symm.trans h')
    | native asks => cases h.symm.trans asks
  | native asks runs resumes =>
    cases h' with
    | next h' => cases h'.symm.trans asks
    | native asks' runs' resumes' =>
      obtain ⟨rfl, rfl, rfl, rfl⟩ := Step.native.inj (asks.symm.trans asks')
      obtain ⟨rfl, rfl⟩ := Outcome.ok.inj (runs.symm.trans runs')
      exact Except.ok.inj (resumes.symm.trans resumes')

/-! ## Native functions -/

/-- A callback does the same with other values at the bottom of the stack. -/
theorem Host.run_onto {h : Host σ} {v : Value} (hin : m.inEval = true)
    (hr : run depth h m = .ok v n) (w : Array Value) :
    run depth h (m.onto w) = .ok v (n.onto w) := by
  obtain ⟨hstack, hframes, -⟩ := calls_of_run hin hr
  have hdetached := (detached_run depth h (overlay w m.stack) m.frames m hin).1
  rw [hr] at hdetached
  refine hdetached.trans ?_
  rw [← hstack, ← hframes]
  rfl

namespace Machine

variable {w : Array Value} {f : Frame} {op : Op}

/-- A native function takes the place of an instruction of the innermost call. -/
theorem Executes.asks (h : m.Executes f op) {g : NativeFunction (Native σ)} {args : List Value}
    {callee : Nat} (hasks : m.step entry = .native g args callee n) :
    n = m.jump (f.pc + 1) ∧ f.base ≤ callee := by
  have hfollows := follows_exec (m.jump (f.pc + 1)) entry f.chunk f.base op
  rw [← h.step_eq, hasks] at hfollows
  cases hfollows with
  | asks calls place =>
    subst calls
    have hplace : callee + g.arity + 1 = m.stack.size := place
    have hoperands : f.base + (g.arity + 1) ≤ m.stack.size := h.operands
    exact ⟨rfl, by omega⟩

/-- **One step does not look below the innermost call**, whatever native function runs in it. -/
theorem Executes.onto_advances (h : m.Executes f op) (hin : m.inEval = true) (hw : w.size < f.base)
    (hadv : Advances (Host.run depth) entry m n) :
    ∃ n', Advances (Host.run depth) entry (m.onto w) n' ∧ n.Onto w n' := by
  have hstep := h.onto_step hw entry
  cases hadv with
  | next hnext =>
    rw [hnext] at hstep
    generalize hover : (m.onto w).step entry = s at hstep
    cases hstep with | next onto => exact ⟨_, .next hover, onto⟩
  | @native g args callee v before after _ hasks hruns hresumes =>
    obtain ⟨rfl, hcallee⟩ := h.asks hasks
    have hsize : w.size ≤ m.stack.size := by have := h.operands; omega
    rw [hasks] at hstep
    generalize hover : (m.onto w).step entry = s at hstep
    cases hstep with
    | native =>
      have hin : { m.jump (f.pc + 1) with nativeDepth := m.nativeDepth + 1 }.inEval = true := hin
      obtain ⟨hstack, -⟩ := Host.calls_of_run hin hruns
      have hafter : w.size ≤ after.stack.size := by rw [hstack]; exact hsize
      have hresume := onto_resume (m := after.leaveNative) hafter
        (by omega : w.size ≤ callee) g.name v
      rw [hresumes] at hresume
      generalize hresumes' : (onto _ w).resume g.name callee v = c at hresume
      cases hresume with
      | ok onto => exact ⟨_, .native hover (Host.run_onto hin hruns w) hresumes', onto⟩

end Machine

/-! ## Calls of compiled code -/

/-- Code that is in order, with some number of variables. -/
def Chunk.Regular (c : Chunk) : Prop := ∃ globals, c.Verified globals

namespace Machine

variable {outer : Array Frame} {low : Nat} {w : Array Value}

/-- In the middle of an evaluation there are calls of compiled code on top of the calls `outer`,
whose values end at `low`. -/
structure Piling (outer : Array Frame) (low : Nat) (m : Machine σ) : Prop where
  piled : Piled Chunk.Regular outer low m.frames m.stack.size
  sourced : m.heap.Sourced
  inEval : m.inEval = true

namespace Piling

variable (h : m.Piling outer low)

include h

/-- Functions were compiled. -/
theorem functions {v : Value} {g : ScriptFunction} (hg : m.object? v = some (.function g)) :
    g.arity = g.chunk.params ∧ g.chunk.Regular := by
  unfold object? at hg
  split at hg
  · obtain ⟨d, globals, hd, rfl⟩ := h.sourced _ g hg
    exact ⟨rfl, globals, Core.Func.verified hd⟩
  · cases hg

variable (hsize : outer.size < m.frames.size)

include hsize

/-- The innermost call finds its operands above its base. -/
theorem executes :
    ∃ (rest : Array Frame) (f : Frame) (op : Op), m.frames = rest.push f ∧ m.Executes f op ∧
    low ≤ f.base := by
  obtain ⟨rest, f, hframes, below, ⟨globals, verified⟩, pc, height, -⟩ := h.piled.back hsize
  have hcode : f.chunk.code[f.pc]? = some f.chunk.code[f.pc] := Array.getElem?_eq_getElem pc
  have htakes := (verified.checks f.pc _ hcode).takes
  refine ⟨rest, f, f.chunk.code[f.pc].op, hframes, ⟨?_, ?_, by omega⟩, below.low_le⟩
  · rw [hframes, Array.back?_push]
  · rw [hcode]
    rfl

/-- The innermost call lies on top of the others. -/
theorem innermost {rest : Array Frame} {f : Frame} (hframes : m.frames = rest.push f) :
    m.Piling rest f.base ∧ outer.size ≤ rest.size ∧ (rest.size = outer.size ∨ 0 < f.base) := by
  obtain ⟨rest', f', hframes', below, code, pc, height, callee⟩ := h.piled.back hsize
  obtain ⟨rfl, rfl⟩ := Array.push_eq_push.1 (hframes.symm.trans hframes')
  refine ⟨⟨?_, h.sourced, h.inEval⟩, below.outer_le, callee⟩
  rw [hframes]
  exact .call .start code pc height (.inl rfl)

/-- **One step keeps calls on top of each other.** -/
theorem advances (hentry : entry ≤ outer.size) (hlow : entry = outer.size ∨ 0 < low)
    (hadv : Advances (Host.run depth) entry m n) : n.Piling outer low ∧ entry < n.frames.size := by
  have hgrows := hadv.grows (Host.grows_run depth)
  have hpiles :=
    piles_step h.piled hsize hentry hlow (fun _ hc => hc) fun _ _ _ hg => h.functions hg
  cases hadv with
  | next hstep =>
    rw [hstep] at hpiles
    exact ⟨⟨hpiles.2, hgrows.heap.sourced h.sourced, (inEval_of_step hstep).trans h.inEval⟩,
      hpiles.1⟩
  | @native g args callee v before after _ hasks hruns hresumes =>
    rw [hasks] at hpiles
    obtain ⟨hinner, hcallee, hpiled⟩ := hpiles
    have hbefore : before.enterNative.inEval = true :=
      (inEval_of_step hasks).trans h.inEval
    obtain ⟨hstack, hframes, hafter⟩ := Host.calls_of_run hbefore hruns
    have hlands := lands_resume after.leaveNative g.name callee v
    rw [hresumes] at hlands
    obtain ⟨hn, hnframes⟩ : n.stack.size = min callee after.stack.size + 1 ∧
      n.frames = after.frames := hlands
    have hsize : n.stack.size = callee + 1 := by
      rw [hn, hstack]
      exact congrArg (· + 1) (Nat.min_eq_left hcallee)
    have hframes : n.frames = before.frames := hnframes.trans hframes
    refine ⟨⟨?_, hgrows.heap.sourced h.sourced, (inEval_of_resume hresumes).trans hafter⟩, ?_⟩
    · rw [hframes, hsize]
      exact hpiled
    · rw [hframes]
      exact Nat.lt_of_le_of_lt hentry hinner

/-- **One step leaves alone what lies below.** -/
theorem keeps (hentry : entry ≤ outer.size) (hw : w.size < low)
    (hkept : m.stack.extract 0 w.size = w) (hadv : Advances (Host.run depth) entry m n) :
    n.stack.extract 0 w.size = w := by
  have hn := (h.advances hsize hentry (.inr (Nat.zero_lt_of_lt hw)) hadv).1.piled.low_le
  have hle : w.size ≤ n.stack.size := by omega
  obtain ⟨rest, f, op, -, hexecutes, hbase⟩ := h.executes hsize
  obtain ⟨n', hadv', hover⟩ := hexecutes.onto_advances h.inEval (by omega : w.size < f.base) hadv
  -- With its own values at the bottom, the machine is the same, and so is the one it leads to.
  have hself : m.onto w = m := by
    have hover := m.onto_self w.size
    rwa [hkept] at hover
  rw [hself] at hadv'
  obtain rfl := hadv.unique hadv'
  exact extract_of_overlay_eq hle hover.stack_eq.symm

end Piling

/-! ## Instructions and other calls -/

/-- The next instruction, with the native function that it may call, leaves alone what lies below
the function that the innermost call runs. With other values there it does the same, and they stay
in place; the calls outside stay in place as well. -/
structure Confined (call : Callback σ) (entry : Nat) (m : Machine σ) : Prop where
  step : ∀ f w, m.frames.back? = some f → w.size < f.base →
    Step.Onto w (m.step entry) ((m.onto w).step entry)
  advances : ∀ f w n, m.frames.back? = some f → w.size < f.base → Advances call entry m n →
    ∃ n', Advances call entry (m.onto w) n' ∧ n.Onto w n'
  values : ∀ f n, m.frames.back? = some f → Advances call entry m n →
    n.stack.extract 0 (f.base - 1) = m.stack.extract 0 (f.base - 1)
  calls : ∀ n, Advances call entry m n → n.frames.extract 0 (m.frames.size - 1) = m.frames.pop

theorem Piling.confined (h : m.Piling outer low) (hsize : outer.size < m.frames.size) :
    m.Confined (Host.run depth) outer.size := by
  obtain ⟨rest, f, op, hframes, hexecutes, -⟩ := h.executes hsize
  obtain ⟨hinner, hle, hcallee⟩ := h.innermost hsize hframes
  have hrest : rest.size < m.frames.size := by
    rw [hframes, Array.size_push]
    exact Nat.lt_succ_self _
  have heq {g : Frame} (hg : m.frames.back? = some g) : g = f :=
    Option.some.inj (hg.symm.trans hexecutes.innermost)
  refine ⟨fun g w hg hw => ?_, fun g w n hg hw hadv => ?_, fun g n hg hadv => ?_, fun n hadv => ?_⟩
  · obtain rfl := heq hg
    exact hexecutes.onto_step hw _
  · obtain rfl := heq hg
    exact hexecutes.onto_advances h.inEval hw hadv
  · obtain rfl := heq hg
    have hoperands := hexecutes.operands
    have hkept : (m.stack.extract 0 (g.base - 1)).size = g.base - 1 := by
      rw [Array.size_extract]
      omega
    by_cases hzero : g.base = 0
    · rw [hzero]
      simp
    · have hkeeps :=
        hinner.keeps (w := m.stack.extract 0 (g.base - 1)) hrest hle (by omega) (by rw [hkept]) hadv
      rwa [hkept] at hkeeps
  · have hn := hinner.advances hrest hle (hcallee.imp_left Eq.symm) hadv
    rw [hframes, Array.size_push, Array.pop_push]
    exact hn.1.piled.extract_eq

/-- A plain step opens a call or closes the innermost one, or leaves as many calls as there were. -/
theorem Executes.calls_next {rest : Array Frame} {f : Frame} {op : Op} (h : m.Executes f op)
    (hframes : m.frames = rest.push f) (hstep : m.step entry = .next n) :
    n.frames.size = m.frames.size ∨ (∃ argc, op = .call argc) ∧ n.frames.size = m.frames.size + 1 ∨
      op = .ret ∧ n.frames = rest := by
  have hjump := frames_jump hframes (f.pc + 1)
  have hsame : (m.jump (f.pc + 1)).frames.size = m.frames.size := by
    rw [hjump, hframes, Array.size_push, Array.size_push]
  have hfollows := follows_exec (m.jump (f.pc + 1)) entry f.chunk f.base op
  rw [← h.step_eq, hstep] at hfollows
  cases hfollows with
  | falls _ _ hn => exact .inl (by rw [hn, hsame])
  | @jumps _ target _ _ hn =>
    refine .inl ?_
    rw [hn, frames_jump hjump target, hframes, Array.size_push, Array.size_push]
  | enters calls _ _ _ _ hn => exact .inr (.inl ⟨⟨_, calls⟩, by rw [hn, Array.size_push, hsame]⟩)
  | returns returns _ _ _ hn => exact .inr (.inr ⟨returns, by rw [hn, hjump, Array.pop_push]⟩)

/-! ## The begin of a call -/

/-- A call of a script function begins. The function lies at the place `callee` of the stack, below
its arguments, and the calls `waiting` go on when the call is over, the innermost one behind the
instruction. -/
inductive Opens (p : Machine σ) : (callee : Nat) → (waiting : Array Frame) → Machine σ → Prop
  | intro {rest : Array Frame} {f : Frame} {g : ScriptFunction} {callee : Nat}
    (calls : p.frames = rest.push f) (executes : p.Executes f (.call g.arity))
    (place : callee + g.arity + 1 = p.stack.size)
    (function : p.object? (p.stack.getD callee .none) = some (.function g)) :
    Opens p callee (rest.push { f with pc := f.pc + 1 })
      { p with
        stack := p.stack ++ Array.replicate (g.chunk.locals - g.chunk.params) Value.none
        frames :=
          (rest.push { f with pc := f.pc + 1 }).push { chunk := g.chunk, base := callee + 1 } }

theorem call_eq_next {argc : Nat} (h : m.call argc = .next n) :
    ∃ g callee, g.arity = argc ∧ callee + argc + 1 = m.stack.size ∧
      m.object? (m.stack.getD callee .none) = some (.function g) ∧
      n = { m with
        stack := m.stack ++ Array.replicate (g.chunk.locals - g.chunk.params) Value.none
        frames := m.frames.push { chunk := g.chunk, base := callee + 1 } } := by
  unfold call at h
  split at h
  · cases h
  · dsimp only at h
    split at h
    · rename_i hsize g hg
      split at h
      · rename_i harity
        refine ⟨g, m.stack.size - argc - 1, harity.symm, by omega, hg, ?_⟩
        unfold enter at h
        split at h
        · cases h
        · obtain hlocals | ⟨n', hlocals, -⟩ :=
            Activation.pushLocals_eq (g.chunk.locals - g.chunk.params) m
          · rw [hlocals] at h
            exact (Step.next.inj h).symm
          · rw [hlocals] at h
            cases h
      · cases h
    · split at h
      · cases h
      · cases h
    · cases h

variable {p q r t : Machine σ} {callee : Nat} {waiting : Array Frame}

/-- A step that leads to more calls is the begin of a call. -/
theorem Piling.opens (h : p.Piling outer low) (hsize : outer.size < p.frames.size)
    (hstep : p.step entry = .next q) (hmore : p.frames.size < q.frames.size) :
    ∃ callee waiting, p.Opens callee waiting q := by
  obtain ⟨rest, f, op, hframes, hexecutes, -⟩ := h.executes hsize
  obtain hsame | ⟨⟨argc, rfl⟩, -⟩ | ⟨-, hq⟩ := hexecutes.calls_next hframes hstep
  · omega
  · obtain ⟨g, callee, rfl, hplace, hfunction, rfl⟩ :=
      call_eq_next ((hexecutes.step_eq entry).symm.trans hstep)
    rw [frames_jump hframes]
    exact ⟨callee, _, .intro hframes hexecutes hplace hfunction⟩
  · rw [hframes, hq, Array.size_push] at hmore
    omega

/-- The call lies on top of those that wait for it, and the values below are in place. -/
theorem Opens.piling (h : p.Opens callee waiting q) (hp : p.Piling outer low) :
    q.Piling waiting (callee + 1) ∧ waiting.size < q.frames.size ∧
      q.stack.extract 0 callee = p.stack.extract 0 callee := by
  obtain ⟨-, -, place, function⟩ := h
  obtain ⟨harity, globals, hverified⟩ := hp.functions function
  have hparams := hverified.params
  refine ⟨⟨.call .start ⟨globals, hverified⟩ hverified.start ?_ (.inl rfl), hp.sourced, hp.inEval⟩,
    ?_, ?_⟩
  · simp only [Array.size_append, Array.size_replicate, Chunk.height_zero]
    omega
  · simp only [Array.size_push]
    omega
  · have hle : callee - p.stack.size = 0 := by omega
    dsimp only
    rw [Array.extract_append, hle, Array.extract_zero, Array.append_empty]

end Machine

/-! ## Inside of a call -/

/-- The machines that steps lead to while there are more than so many calls. -/
inductive Inside (call : Callback σ) (entry size : Nat) (q : Machine σ) : Machine σ → Prop
  | start : Inside call entry size q q
  | step {t r : Machine σ} (before : Inside call entry size q t)
    (advances : Advances call entry t r) (inner : size < r.frames.size) : Inside call entry size q r

namespace Machine

variable {outer waiting : Array Frame} {low callee : Nat} {w : Array Value} {p q r t : Machine σ}

/-- **Inside of a call the calls that wait for it stay as they are**, and so do the values below. -/
theorem Piling.inside (hq : q.Piling outer (w.size + 1)) (hsize : outer.size < q.frames.size)
    (hentry : entry ≤ outer.size) (hkept : q.stack.extract 0 w.size = w)
    (h : Inside (Host.run depth) entry outer.size q t) :
    t.Piling outer (w.size + 1) ∧ outer.size < t.frames.size ∧ t.stack.extract 0 w.size = w := by
  induction h with
  | start => exact ⟨hq, hsize, hkept⟩
  | step _ advances inner ih =>
    obtain ⟨ht, htsize, htkept⟩ := ih
    exact ⟨(ht.advances htsize hentry (.inr (Nat.succ_pos _)) advances).1, inner,
      ht.keeps htsize hentry (Nat.lt_succ_self _) htkept advances⟩

/-- The value that an instruction returns is on top of the stack before it and after it. -/
theorem exec_ret_eq_next {chunk : Chunk} {base : Nat} (h : m.exec entry chunk base .ret = .next n) :
    ∃ v kept, m.stack.back? = some v ∧ n.stack = Array.push kept v := by
  unfold exec exec.withTop takeTop at h
  cases hback : m.stack.back? with
  | none =>
    rw [hback] at h
    cases h
  | some v =>
    rw [hback] at h
    dsimp only [ret] at h
    split at h
    · cases h
    · split at h
      · cases h
      · unfold push at h
        split at h
        · cases h
        · cases h
          exact ⟨v, _, rfl, rfl⟩

/-- **A call returns to the calls that wait for it**, with its value above the values below. -/
theorem Piling.returns (ht : t.Piling outer (w.size + 1)) (hsize : outer.size < t.frames.size)
    (hentry : entry ≤ outer.size) (hkept : t.stack.extract 0 w.size = w)
    (hadv : Advances (Host.run depth) entry t r) (hback : r.frames.size ≤ outer.size) :
    ∃ f v, t.frames = outer.push f ∧ t.Executes f .ret ∧ t.stack.back? = some v ∧ r.frames = outer ∧
      r.stack = w.push v := by
  obtain ⟨hframes, hstack⟩ :=
    (ht.advances hsize hentry (.inr (Nat.succ_pos _)) hadv).1.piled.eq_of_size_le hback
  have hrkept := ht.keeps hsize hentry (Nat.lt_succ_self _) hkept hadv
  obtain ⟨rest, f, op, htframes, hexecutes, -⟩ := ht.executes hsize
  cases hadv with
  | next hstep =>
    obtain hsame | ⟨-, hmore⟩ | ⟨rfl, hrest⟩ := hexecutes.calls_next htframes hstep
    · omega
    · omega
    · obtain rfl : rest = outer := hrest.symm.trans hframes
      obtain ⟨v, kept, hv, hr⟩ := exec_ret_eq_next ((hexecutes.step_eq entry).symm.trans hstep)
      rw [hr, Array.size_push] at hstack
      have hkept : kept = w := by
        rw [hr, Array.extract_push_of_le (by omega), ← Nat.succ.inj hstack,
          Array.extract_size] at hrkept
        exact hrkept
      exact ⟨f, v, htframes, hexecutes, hv, hframes, by rw [hr, hkept]⟩
  | @native g args callee v before after _ hasks hruns hresumes =>
    -- A native function leaves the calls as they are.
    obtain ⟨rfl, -⟩ := hexecutes.asks hasks
    have hin : { t.jump (f.pc + 1) with nativeDepth := t.nativeDepth + 1 }.inEval = true :=
      ht.inEval
    obtain ⟨-, hafter, -⟩ := Host.calls_of_run hin hruns
    have hlands := lands_resume after.leaveNative g.name callee v
    rw [hresumes] at hlands
    have hr : r.frames = (t.jump (f.pc + 1)).frames := hlands.2.trans hafter
    rw [hr, frames_jump htframes, Array.size_push] at hback
    rw [htframes, Array.size_push] at hsize
    omega

/-! ## Evaluations -/

/-- A machine on which a host may evaluate a program: it comes out of a new one by runs of host
programs, whether they end or are unwound, and by the part of a compilation that comes before a
loader. -/
inductive Visited : Machine σ → Prop
  | new (options : Options) (host : σ) : Visited (Machine.new options host)
  | ran {m n : Machine σ} {v : Value} (before : Visited m) (fuel : Nat) (h : Host σ)
    (runs : h.run fuel m = .ok v n) : Visited n
  | unwound {m n : Machine σ} (before : Visited m) (fuel : Nat) (h : Host σ)
    (runs : h.run fuel m = .unwound n) : Visited n
  -- The loaders before it run, and the compilation stops when it comes to this one.
  | loads {m n : Machine σ} {call : Callback σ} {fuel : Nat} {source name : String}
    (before : Visited m) (runs : ∀ h k, call h k = h.run fuel k ∨ call h k = .unwound k)
    (stops : compileSource call source name m = .unwound n) : Visited n

theorem Visited.sourced (h : m.Visited) : m.heap.Sourced := by
  induction h with
  | new options host => exact (Reachable.new options host).sourced
  | @ran m _ _ _ fuel h runs ih | @unwound m _ _ fuel h runs ih =>
    have hgrows := Host.grows_run fuel h m
    rw [runs] at hgrows
    exact hgrows.heap.sourced ih
  | @loads m _ call fuel source name _ runs stops ih =>
    have hgrows := grows_compileSource (Callback.grows_of_runs runs) source name m
    rw [stops] at hgrows
    exact hgrows.heap.sourced ih

/-- A program starts on top of the calls outside of it. -/
theorem Visited.piling {source name : String} {chunk : Chunk} (hm : m.Visited)
    (hcompile : compileSource (Host.run depth) source name m.beginEval = .ok chunk n) :
    (Core.start chunk n).Piling n.frames n.stack.size := by
  obtain ⟨hverified, hlocals⟩ := verified_of_compileSource (Host.grows_run depth) hcompile
  have hgrows := grows_compileSource (Host.grows_run depth) source name m.beginEval
  rw [hcompile] at hgrows
  have hsourced : m.beginEval.heap.Sourced := hm.sourced
  have hin : n.inEval = true := inEval_of_compileSource rfl hcompile
  refine ⟨.call .start ⟨_, hverified⟩ hverified.start ?_ (.inl rfl), hgrows.heap.sourced hsourced,
    hin⟩
  rw [Chunk.height_zero, hlocals]
  rfl

/-- Its calls lie on top of each other all the time. -/
theorem Piling.steps {k : Nat} (h : q.Piling outer low) (hsize : outer.size < q.frames.size)
    (hsteps : Steps (Host.run depth) outer.size k q p) :
    p.Piling outer low ∧ outer.size < p.frames.size := by
  induction hsteps with
  | refl q => exact ⟨h, hsize⟩
  | cons head _ ih =>
    obtain ⟨hn, hnsize⟩ := h.advances hsize (Nat.le_refl _) (.inl rfl) head
    exact ih hn hnsize

theorem Opens.size_waiting (h : p.Opens callee waiting q) : waiting.size = p.frames.size := by
  obtain ⟨calls, -, -, -⟩ := h
  rw [calls, Array.size_push, Array.size_push]

theorem Opens.callee_lt (h : p.Opens callee waiting q) : callee < p.stack.size := by
  obtain ⟨-, -, place, -⟩ := h
  omega

/-- **A call leaves its caller with its value in the place of the callee.** At every moment of every
evaluation the next instruction leaves alone what lies below the innermost call. When a script
function is called there, then inside of the call the calls that wait for it stay as they are, and
so do the values below the callee. When the call returns, these calls go on, and the callee and its
arguments have given way to one value, which is the one that was returned. -/
theorem Visited.calls_return {source name : String} {chunk : Chunk} {k : Nat} (hm : m.Visited)
    (hcompile : compileSource (Host.run depth) source name m.beginEval = .ok chunk n)
    (hsteps : Steps (Host.run depth) n.frames.size k (Core.start chunk n) p) :
    p.Confined (Host.run depth) n.frames.size ∧
    ∀ q, p.step n.frames.size = .next q → p.frames.size < q.frames.size →
      ∃ callee waiting, p.Opens callee waiting q ∧
        (∀ t, Inside (Host.run depth) n.frames.size p.frames.size q t →
          t.frames.extract 0 p.frames.size = waiting ∧
            t.stack.extract 0 callee = p.stack.extract 0 callee ∧ callee < t.stack.size) ∧
        ∀ t r, Inside (Host.run depth) n.frames.size p.frames.size q t →
          Advances (Host.run depth) n.frames.size t r → r.frames.size ≤ p.frames.size →
          ∃ f v, t.frames = waiting.push f ∧ t.Executes f .ret ∧ t.stack.back? = some v ∧
            r.frames = waiting ∧ r.stack = (p.stack.extract 0 callee).push v := by
  have hstart : n.frames.size < (Core.start chunk n).frames.size := by
    show n.frames.size < (n.frames.push { chunk, base := n.stack.size }).size
    rw [Array.size_push]
    exact Nat.lt_succ_self _
  obtain ⟨hp, hsize⟩ := (hm.piling hcompile).steps hstart hsteps
  refine ⟨hp.confined hsize, fun q hstep hmore => ?_⟩
  obtain ⟨callee, waiting, hopens⟩ := hp.opens hsize hstep hmore
  obtain ⟨hq, hqsize, hkept⟩ := hopens.piling hp
  have hwaiting := hopens.size_waiting
  have hentry : n.frames.size ≤ waiting.size := by omega
  have hw : (p.stack.extract 0 callee).size = callee := by
    have hlt := hopens.callee_lt
    rw [Array.size_extract]
    omega
  generalize hbelow : p.stack.extract 0 callee = w at hw hkept
  subst hw
  rw [← hwaiting]
  refine ⟨w.size, waiting, hopens, fun t ht => ?_, fun t r ht hadv hback => ?_⟩ <;> rw [hbelow]
  · obtain ⟨ht, -, htkept⟩ := hq.inside hqsize hentry hkept ht
    exact ⟨ht.piled.extract_eq, htkept, ht.piled.low_le⟩
  · obtain ⟨ht, htsize, htkept⟩ := hq.inside hqsize hentry hkept ht
    exact ht.returns htsize hentry htkept hadv hback

/-- The machine after a number of plain steps. -/
def after? (m : Machine σ) (entry : Nat) : Nat → Option (Machine σ)
  | 0 => some m
  | k + 1 => (m.step entry).next?.bind fun n => n.after? entry k

theorem steps_of_after? {k : Nat} (h : m.after? entry k = some n) : Steps call entry k m n := by
  induction k generalizing m with
  | zero =>
    obtain rfl := Option.some.inj h
    exact .refl _
  | succ k ih =>
    obtain ⟨p, hp, h⟩ := Option.bind_eq_some_iff.1 h
    exact .cons (.next (Step.eq_next_of_next? hp)) (ih h)

/-- A call in the middle of a list. -/
theorem Visited.calls_return_list :
    ∃ (chunk : Chunk) (n p q t r : Machine Unit) (callee : Nat) (waiting : Array Frame) (v : Value),
      compileSource (Host.run 1) "func same(a):\n  return a\n[1, same(2)]" "script"
        (beginEval (.new {} ())) = .ok chunk n ∧
      Steps (Host.run 1) n.frames.size 5 (Core.start chunk n) p ∧ p.Opens callee waiting q ∧
      Inside (Host.run 1) n.frames.size p.frames.size q t ∧
      Advances (Host.run 1) n.frames.size t r ∧
      r.frames = waiting ∧ r.stack = (p.stack.extract 0 callee).push v := by
  -- The fifth step leads to the call, which returns in its second instruction.
  obtain ⟨chunk, n, hcompile, h⟩ := Outcome.exists_of_value?
    (o := compileSource (Host.run 1) "func same(a):\n  return a\n[1, same(2)]" "script"
      (beginEval (.new {} ())))
    (fun chunk (n : Machine Unit) => ((Core.start chunk n).after? n.frames.size 5).any (fun p =>
      (p.step n.frames.size).next?.any fun q => p.frames.size < q.frames.size &&
        (q.step n.frames.size).next?.any fun t => p.frames.size < t.frames.size &&
          (t.step n.frames.size).next?.any fun r => r.frames.size ≤ p.frames.size) = true)
            (by decide +kernel)
  obtain ⟨p, hp, h⟩ := (Option.any_eq_true _ _).1 h
  obtain ⟨q, hq, h⟩ := (Option.any_eq_true _ _).1 h
  obtain ⟨hmore, h⟩ := Bool.and_eq_true_iff.1 h
  obtain ⟨t, ht, h⟩ := (Option.any_eq_true _ _).1 h
  obtain ⟨hinner, h⟩ := Bool.and_eq_true_iff.1 h
  obtain ⟨r, hr, hback⟩ := (Option.any_eq_true _ _).1 h
  have hsteps : Steps (Host.run 1) n.frames.size 5 (Core.start chunk n) p := steps_of_after? hp
  have hinside : Inside (Host.run 1) n.frames.size p.frames.size q t :=
    .step .start (.next (Step.eq_next_of_next? ht)) (of_decide_eq_true hinner)
  have hadv : Advances (Host.run 1) n.frames.size t r := .next (Step.eq_next_of_next? hr)
  obtain ⟨-, hcalls⟩ := Visited.calls_return (.new {} ()) hcompile hsteps
  obtain ⟨callee, waiting, hopens, -, hreturns⟩ :=
    hcalls q (Step.eq_next_of_next? hq) (of_decide_eq_true hmore)
  obtain ⟨f, v, -, -, -, hframes, hstack⟩ := hreturns t r hinside hadv (of_decide_eq_true hback)
  exact ⟨chunk, n, p, q, t, r, callee, waiting, v, hcompile, hsteps, hopens, hinside, hadv,
    hframes, hstack⟩

end Machine

end ScriptMachine
