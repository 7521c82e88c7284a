import ScriptMachine.Proofs.Activation
import ScriptMachine.Proofs.Layout
/-!
# Code does what its tree means

The code of an expression pushes its value, the code of a statement changes the local variables as
the statement does, and both fail exactly as their trees do. Each level of fuel of an evaluation
costs the code at least one instruction, so a run that does not end belongs to an evaluation that
does not end.

* `Leads`: a run from a machine goes as an evaluation does;
* `Core.Expr.leads_eval`, `Core.Stmt.leads_eval`: expressions and statements;
* `Core.Func.agrees_eval`: whole programs.
-/

namespace ScriptMachine

variable {σ α β : Type} {call : Callback σ} {entry : Nat} {m₀ m m' S S' : Machine σ}
  {K : Activation} {fuel : Nat}

/-! ## What callbacks may do -/

/-- A callback that, while a program is evaluated, neither looks at the stack nor at the calls in
progress, and brings no functions of its own. -/
structure Contained (call : Callback σ) : Prop where
  detached : ∀ h m s fr, m.inEval = true → call h { m with stack := s, frames := fr } =
    (call h m).onMachine fun m' => { m' with stack := s, frames := fr }
  keeps : ∀ h m, m.inEval = true →
    (call h m).All fun m' => m'.inEval = true ∧ m'.options = m.options
  sourced : ∀ h m, m.heap.Sourced → (call h m).All fun m' => m'.heap.Sourced

/-- A machine in the middle of an evaluation that began with `m₀`. The stack and the calls of the
evaluation itself do not change. -/
structure Ready (m₀ m : Machine σ) : Prop where
  stack : m.stack = m₀.stack
  frames : m.frames = m₀.frames
  options : m.options = m₀.options
  inEval : m.inEval = true
  gcStep : m.options.gcStepObjects = 0
  sourced : m.heap.Sourced

theorem Ready.alloc (h : Ready m₀ m) {o : Object (Native σ)} (ho : ∀ f, o ≠ .function f) :
    Ready m₀ (m.alloc o).2 :=
  { h with sourced := h.sourced.alloc fun f hf => absurd hf (ho f) }

/-- A callback leaves the evaluation as it was. -/
theorem Contained.ready (hcall : Contained call) {h : Host σ} (hm : Ready m₀ m) :
    (call h m).All (Ready m₀) := by
  have hsame := hcall.detached h m m.stack m.frames hm.inEval
  have hkeeps := hcall.keeps h m hm.inEval
  have hsourced := hcall.sourced h m hm.sourced
  have hready : ∀ m' : Machine σ, m' = { m' with stack := m.stack, frames := m.frames } →
      m'.inEval = true ∧ m'.options = m.options → m'.heap.Sourced → Ready m₀ m' := by
    intro m' heq hk hs
    refine ⟨?_, ?_, hk.2.trans hm.options, hk.1, by rw [hk.2]; exact hm.gcStep, hs⟩
    · rw [heq]; exact hm.stack
    · rw [heq]; exact hm.frames
  cases hout : call h m with
  | failed e m' => exact e.elim
  | exhausted => trivial
  | ok w m' =>
    rw [hout] at hsame hkeeps hsourced
    exact hready m' (Outcome.ok.inj hsame).2 hkeeps hsourced
  | unwound m' =>
    rw [hout] at hsame hkeeps hsourced
    exact hready m' (Outcome.unwound.inj hsame) hkeeps hsourced

/-! ## Following an evaluation -/

/-- A run from `S` goes as an evaluation with the outcome `o` does, as long as it keeps within the
limits. If the evaluation ends, the run gets to a machine that `post` describes. If it fails or is
unwound, so is the run. If it uses up its fuel, so does the run. -/
def Leads (call : Callback σ) (entry fuel : Nat) (K : Activation) (S : Machine σ)
    (o : Outcome σ Failure α) (post : α → Machine σ → Machine σ → Prop) : Prop :=
  Safe call entry S →
    match o with
    | .ok a m => ∃ n S', Steps call entry n S S' ∧ post a m S'
    | .failed f m => ∃ n S', runSteps call entry n S = .failed f S' ∧ K.Covers m S'
    | .unwound m => ∃ n S', runSteps call entry n S = .unwound S' ∧ K.Covers m S'
    | .exhausted => runSteps call entry fuel S = .exhausted

namespace Leads

variable {o : Outcome σ Failure α} {post post' : α → Machine σ → Machine σ → Prop}

theorem of_ok {a : α} (h : post a m S) : Leads call entry fuel K S (.ok a m) post :=
  fun _ => ⟨0, S, .refl S, h⟩

theorem mono (h : Leads call entry fuel K S o post) {fuel' : Nat} (hle : fuel' ≤ fuel) :
    Leads call entry fuel' K S o post := by
  intro hsafe
  have h := h hsafe
  cases o with
  | exhausted => exact runSteps_exhausted_of_le h hle
  | _ => exact h

/-- Failures of a call are failures of the calls around it. -/
theorem outer {K' : Activation} (h : Leads call entry fuel K' S o post)
    (hK : ∀ m S' : Machine σ, K'.Covers m S' → K.Covers m S') :
    Leads call entry fuel K S o post := by
  intro hsafe
  have h := h hsafe
  cases o with
  | failed f m | unwound m =>
    obtain ⟨n, S', hr, hc⟩ := h
    exact ⟨n, S', hr, hK m S' hc⟩
  | _ => exact h

/-- A run may take some steps first, and each of them is paid for. -/
theorem after {n : Nat} (hs : Steps call entry n S S') (h : Leads call entry fuel K S' o post) :
    Leads call entry (n + fuel) K S o post := by
  intro hsafe
  have h := h (hsafe.of_steps hs)
  cases o with
  | ok a m =>
    obtain ⟨k, S'', hk, hp⟩ := h
    exact ⟨n + k, S'', hs.trans hk, hp⟩
  | failed f m | unwound m =>
    obtain ⟨k, S'', hr, hc⟩ := h
    exact ⟨n + k, S'', (hs.runSteps_eq k).trans hr, hc⟩
  | exhausted => exact (hs.runSteps_eq fuel).trans h

theorem next (hs : S.step entry = .next S') (h : Leads call entry fuel K S' o post) :
    Leads call entry (fuel + 1) K S o post := by
  rw [Nat.add_comm]
  exact after (Steps.single (.next hs)) h

theorem next_le (hs : S.step entry = .next S') (h : Leads call entry fuel K S' o post) :
    Leads call entry fuel K S o post :=
  (h.next hs).mono (Nat.le_succ fuel)

/-- An evaluation may go on. -/
theorem bind {f : α → Machine σ → Outcome σ Failure β} {post' : β → Machine σ → Machine σ → Prop}
    (h : Leads call entry fuel K S o post)
    (hf : ∀ a m S', post a m S' → Leads call entry fuel K S' (f a m) post') :
    Leads call entry fuel K S (o.andThen f) post' := by
  intro hsafe
  have h' := h hsafe
  cases o with
  | ok a m =>
    obtain ⟨n, S', hs, hp⟩ := h'
    exact (after hs (hf a m S' hp)).mono (Nat.le_add_left fuel n) hsafe
  | failed f m | unwound m | exhausted => exact h'

/-- A run may go on after the evaluation has ended. -/
theorem finish (h : Leads call entry fuel K S o post)
    (hf : ∀ a m S', post a m S' → Leads call entry fuel K S' (.ok a m) post') :
    Leads call entry fuel K S o post' := by
  have h := h.bind (f := .ok) hf
  rwa [Outcome.andThen_ok_self] at h

/-- An instruction may fail. -/
theorem of_failed {f : Failure} (hs : S.step entry = .failed f S') (hc : K.Covers m S') :
    Leads call entry fuel K S (.failed f m : Outcome σ Failure α) post :=
  fun _ => ⟨1, S', by rw [runSteps, hs], hc⟩

end Leads

variable {pos : Position}

namespace Activation

variable {env temps : Array Value} {pc : Nat}

/-- The machine after the code of an expression: its value is on top of the stack. -/
def Pushed (K : Activation) (m₀ : Machine σ) (env temps : Array Value) (pc : Nat) (v : Value)
    (m S : Machine σ) : Prop :=
  Ready m₀ m ∧ S = K.load m env (temps.push v) pc ∧
    (K.below ++ env ++ temps).size < m₀.options.maxStackSize

/-- A push in a run that keeps within its limits. -/
theorem leads_push {v : Value} (hs : S.step entry = .ofChecked ((K.load m env temps pc).push v))
    (hm : Ready m₀ m) : Leads call entry fuel K S (.ok v m) (K.Pushed m₀ env temps pc) := by
  intro hsafe
  rw [push_load] at hs
  split at hs
  · exact absurd ⟨_, hs, rfl⟩ hsafe.not_overflows
  · rename_i hroom
    rw [hm.options] at hroom
    exact ⟨1, _, .single (.next hs), hm, rfl, by omega⟩

/-- The shortcut of an operator leads over its second operand if the first one decides. -/
theorem step_load_shortcut {op : LogicalOp} {target : Nat} {v : Value}
    (h : K.chunk.code[pc]? = some ⟨Core.shortcut op target, pos⟩) :
    (K.load m env (temps.push v) pc).step entry =
      .next (if Core.decides op v then K.load m env (temps.push v) target
        else K.load m env (temps.push v) (pc + 1)) := by
  rw [step_load h]
  cases op <;> by_cases hv : v.isTruthy = true <;>
    simp [Core.shortcut, Machine.exec, back?_load, Core.decides, jump_load, hv]

variable {x : Checked σ (Machine σ)} (hs : S.step entry = .ofChecked x)

include hs

/-- An instruction that follows an operator. -/
theorem leads_of_follows {o : Outcome σ Failure Value} (hx : K.Follows env temps pc x o)
    (hm : ∀ v m, o = .ok v m → Ready m₀ m) :
    Leads call entry fuel K S o (K.Pushed m₀ env temps pc) := by
  cases o with
  | ok v m =>
    rw [Follows] at hx
    rw [hx] at hs
    exact leads_push hs (hm v m rfl)
  | failed f m =>
    rw [Follows] at hx
    rw [hx] at hs
    exact .of_failed hs (covers_load K m env temps pc)
  | unwound m | exhausted => exact hx.elim

/-- An instruction that changes the machine and pushes nothing. -/
theorem leads_of_changes {o : Outcome σ Failure Unit}
    {post : Unit → Machine σ → Machine σ → Prop} (hx : K.Changes env pc x o)
    (hm : ∀ m, o = .ok () m → post () m (K.load m env #[] pc)) :
    Leads call entry fuel K S o post := by
  cases o with
  | ok _ m =>
    rw [Changes] at hx
    rw [hx] at hs
    exact .next_le hs (.of_ok (hm m rfl))
  | failed f m =>
    rw [Changes] at hx
    rw [hx] at hs
    exact .of_failed hs (covers_load K m env #[] pc)
  | unwound m | exhausted => exact hx.elim

end Activation

namespace Core

/-! ## Operators leave a machine ready -/

section

variable (hm : Ready m₀ m)

include hm

theorem ready_of_operate {op : BinaryOp} {lhs rhs v : Value} (h : operate op lhs rhs m = .ok v m') :
    Ready m₀ m' := by
  have hself : ∀ {w : Value}, (Outcome.ok w m : Outcome σ Failure Value) = .ok v m' →
      Ready m₀ m' := by
    intro w h
    obtain ⟨_, rfl⟩ := Outcome.ok.inj h
    exact hm
  have hfailed : ∀ {name : String},
      (Outcome.ofChecked (m.operandError name lhs rhs) : Outcome σ Failure Value) ≠ .ok v m' := by
    intro name h
    cases h
  unfold operate at h
  split at h
  · exact hself h
  · exact hself h
  · split at h
    · exact hself h
    · split at h
      · split at h
        · obtain ⟨_, rfl⟩ := Outcome.ok.inj h
          exact hm.alloc (by simp)
        · split at h
          · exact hself h
          · exact absurd h hfailed
      · exact absurd h hfailed

theorem ready_of_operateUnary {op : UnaryOp} {v w : Value} (h : operateUnary op v m = .ok w m') :
    Ready m₀ m' := by
  unfold operateUnary at h
  split at h
  · obtain ⟨_, rfl⟩ := Outcome.ok.inj h
    exact hm
  · split at h
    · obtain ⟨_, rfl⟩ := Outcome.ok.inj h
      exact hm
    · cases h

theorem ready_of_readItem {list index v : Value} (h : readItem list index m = .ok v m') :
    Ready m₀ m' := by
  unfold readItem at h
  cases hi : m.listIndex list index with
  | error e => rw [hi] at h; cases h
  | ok i =>
    rw [hi] at h
    cases hitem : m.listItem? list i with
    | none => simp only [bind, Except.bind, hitem] at h; cases h
    | some u =>
      simp only [bind, Except.bind, hitem] at h
      obtain ⟨_, rfl⟩ := Outcome.ok.inj h
      exact hm

theorem ready_of_readGlobal {slot : Nat} {v : Value} (h : readGlobal slot m = .ok v m') :
    Ready m₀ m' := by
  unfold readGlobal at h
  split at h
  · obtain ⟨_, rfl⟩ := Outcome.ok.inj h
    exact hm
  · cases h

theorem ready_of_writeItem {list index v : Value} (h : writeItem list index v m = .ok () m') :
    Ready m₀ m' := by
  unfold writeItem Machine.setIndex at h
  cases hi : m.listIndex list index with
  | error e => rw [hi] at h; cases h
  | ok i =>
    rw [hi] at h
    cases hitem : m.listItem? list i with
    | none => simp only [bind, Except.bind, hitem] at h; cases h
    | some u =>
      cases hid : list.asObject? with
      | none => simp only [bind, Except.bind, hitem, hid] at h; cases h
      | some id =>
        simp only [bind, Except.bind, hitem, hid] at h
        obtain ⟨_, rfl⟩ := Outcome.ok.inj h
        exact { hm with sourced := hm.sourced.modify_setItem id i v }

theorem ready_of_writeGlobal {slot : Nat} {v : Value} (h : writeGlobal slot v m = .ok () m') :
    Ready m₀ m' := by
  unfold writeGlobal Machine.setGlobal at h
  cases hg : m.globals.set? slot v with
  | none => rw [hg] at h; cases h
  | some g =>
    rw [hg] at h
    obtain ⟨_, rfl⟩ := Outcome.ok.inj h
    exact { hm with }

end

/-! ## Expressions -/

/-- Calls are as the evaluation of calls has them. -/
def Applies (call : Callback σ) (entry fuel : Nat) (m₀ : Machine σ)
    (apply : Value → List Value → Run σ Failure Value) : Prop :=
  ∀ {K : Activation} {m : Machine σ} {env temps : Array Value} {f : Value} {args : List Value}
    {pc : Nat} {pos : Position}, entry ≤ K.outer.size → Ready m₀ m →
    K.chunk.code[pc]? = some ⟨.call args.length, pos⟩ →
    (K.below ++ env ++ temps).size < m₀.options.maxStackSize →
    Leads call entry fuel K (K.load m env (temps.push f ++ args.toArray) pc) (apply f args m)
      (K.Pushed m₀ env temps (pc + 1))

section

variable {apply : Value → List Value → Run σ Failure Value} {env : Array Value} {globals : Nat}

open Activation

mutual

/-- **The code of an expression pushes the value of the expression.** -/
theorem Expr.leads_eval (happly : Applies call entry fuel m₀ apply) (hK : entry ≤ K.outer.size) :
    (e : Expr) → {m : Machine σ} → {temps : Array Value} → {i j : Nat} →
    Expr.Matches Eq env.size globals e e → e.At K.chunk i j → Ready m₀ m →
    Leads call entry fuel K (K.load m env temps i) (e.eval apply env m) (K.Pushed m₀ env temps j)
  | .constant pos v, _, _, _, _, _, ⟨⟨k, hcode, hconst⟩, rfl⟩, hm => by
    refine leads_push ?_ hm
    rw [step_load hcode, Machine.exec, hconst]
  | .boolean pos b, _, _, _, _, _, ⟨hcode, rfl⟩, hm => leads_push (step_load hcode) hm
  | .none pos, _, _, _, _, _, ⟨hcode, rfl⟩, hm => leads_push (step_load hcode) hm
  | .list pos items, _, _, _, _, .list hitems, ⟨k, hat, hcode, rfl⟩, hm => by
    rw [Expr.eval, Run.bind_apply]
    refine (Expr.leads_evalAll happly hK items hitems hat hm).bind ?_
    rintro vs m' S' ⟨hm', rfl, hlen⟩
    rw [← hlen] at hcode
    exact leads_of_follows (step_load hcode) (newList_load hm'.gcStep vs) fun v m'' h => by
      obtain ⟨_, rfl⟩ := Outcome.ok.inj h
      exact hm'.alloc (by simp)
  | .local pos slot, _, _, _, _, .local hslot, ⟨hcode, rfl⟩, hm => by
    refine leads_push ?_ hm
    rw [step_load hcode, Machine.exec, getLocal_load hslot]
  | .global pos slot, _, _, _, _, _, ⟨hcode, rfl⟩, hm =>
    leads_of_follows (step_load hcode) (getGlobal_load slot) fun _ _ h => ready_of_readGlobal hm h
  | .index pos object place, _, _, _, _, .index hobject hplace, ⟨k, n, hat, hat', hcode, rfl⟩,
      hm => by
    rw [Expr.eval, Run.bind_apply]
    refine (Expr.leads_eval happly hK object hobject hat hm).bind ?_
    rintro list m' S' ⟨hm', rfl, _⟩
    rw [Run.bind_apply]
    refine (Expr.leads_eval happly hK place hplace hat' hm').bind ?_
    rintro index m'' S'' ⟨hm'', rfl, _⟩
    refine leads_of_follows ?_ (getIndex_load list index) fun _ _ h => ready_of_readItem hm'' h
    rw [step_load hcode, Machine.exec, withTwo_load]
  | .call pos callee args, _, _, _, _, .call hcallee hargs, ⟨k, n, hat, hat', hcode, rfl⟩, hm => by
    rw [Expr.eval, Run.bind_apply]
    refine (Expr.leads_eval happly hK callee hcallee hat hm).bind ?_
    rintro f m' S' ⟨hm', rfl, hroom⟩
    rw [Run.bind_apply]
    refine (Expr.leads_evalAll happly hK args hargs hat' hm').bind ?_
    rintro vs m'' S'' ⟨hm'', rfl, hlen⟩
    rw [← hlen] at hcode
    exact happly hK hm'' hcode hroom
  | .unary pos op operand, _, _, _, _, .unary hoperand, ⟨k, hat, hcode, rfl⟩, hm => by
    rw [Expr.eval, Run.bind_apply]
    refine (Expr.leads_eval happly hK operand hoperand hat hm).bind ?_
    rintro v m' S' ⟨hm', rfl, _⟩
    refine leads_of_follows ?_ (unary_load op v) fun _ _ h => ready_of_operateUnary hm' h
    rw [step_load hcode, Machine.exec, withTop_load]
  | .binary pos op lhs rhs, _, _, _, _, .binary hlhs hrhs, ⟨k, n, hat, hat', hcode, rfl⟩, hm => by
    rw [Expr.eval, Run.bind_apply]
    refine (Expr.leads_eval happly hK lhs hlhs hat hm).bind ?_
    rintro x m' S' ⟨hm', rfl, _⟩
    rw [Run.bind_apply]
    refine (Expr.leads_eval happly hK rhs hrhs hat' hm').bind ?_
    rintro y m'' S'' ⟨hm'', rfl, _⟩
    refine leads_of_follows ?_ (binary_load hm''.gcStep op x y) fun _ _ h => ready_of_operate hm'' h
    rw [step_load hcode, Machine.exec, withTwo_load]
  | .logical pos op lhs rhs, _, temps, _, _, .logical hlhs hrhs, ⟨k, hat, hjump, hpop, hat'⟩,
      hm => by
    rw [Expr.eval, Run.bind_apply]
    refine (Expr.leads_eval happly hK lhs hlhs hat hm).bind ?_
    rintro v m' S' ⟨hm', rfl, hroom⟩
    have hstep : (K.load m' env (temps.push v) k).step entry = _ := step_load_shortcut hjump
    by_cases hd : decides op v
    · rw [if_pos hd] at hstep ⊢
      exact .next_le hstep (.of_ok ⟨hm', rfl, hroom⟩)
    · rw [if_neg hd] at hstep ⊢
      refine .next_le hstep (.next_le ?_ (Expr.leads_eval happly hK rhs hrhs hat' hm'))
      rw [step_load hpop, Machine.exec, withTop_load]

/-- The code of expressions pushes their values. -/
theorem Expr.leads_evalAll (happly : Applies call entry fuel m₀ apply) (hK : entry ≤ K.outer.size) :
    (es : List Expr) → {m : Machine σ} → {temps : Array Value} → {i j : Nat} →
    Expr.MatchesAll Eq env.size globals es es → Expr.AtAll K.chunk es i j → Ready m₀ m →
    Leads call entry fuel K (K.load m env temps i) (Expr.evalAll apply env es m) fun vs m' S' =>
      Ready m₀ m' ∧ S' = K.load m' env (temps ++ vs.toArray) j ∧ vs.length = es.length
  | [], _, _, _, _, _, rfl, hm => .of_ok ⟨hm, by simp, rfl⟩
  | e :: es, _, _, _, _, .cons he hes, ⟨k, hat, hat'⟩, hm => by
    rw [Expr.evalAll, Run.bind_apply]
    refine (Expr.leads_eval happly hK e he hat hm).bind ?_
    rintro v m' S' ⟨hm', rfl, _⟩
    rw [Run.bind_apply]
    refine (Expr.leads_evalAll happly hK es hes hat' hm').bind ?_
    rintro vs m'' S'' ⟨hm'', rfl, hlen⟩
    exact .of_ok ⟨hm'', by simp, by simp [hlen]⟩

end

/-! ## Statements -/

/-- The machine after the code of a statement: at the next statement, behind the loop around, or
about to return. -/
def Exit.Arrived (K : Activation) (m₀ : Machine σ) (locals : Nat) (inLoop : Bool) (exit pc : Nat)
    (e : Exit) (m S : Machine σ) : Prop :=
  Ready m₀ m ∧
    match e with
    | .next env => env.size = locals ∧ S = K.load m env #[] pc
    | .left env => inLoop = true ∧ env.size = locals ∧ S = K.load m env #[] exit
    | .returned v =>
      ∃ env r pos, K.chunk.code[r]? = some ⟨.ret, pos⟩ ∧ S = K.load m env #[v] r

/-- A jump on a condition that lies on top of the stack. -/
theorem step_load_jumpIfFalse {pc target : Nat} {v : Value}
    (h : K.chunk.code[pc]? = some ⟨.jumpIfFalse target, pos⟩) :
      (K.load m env (#[].push v) pc).step entry =
      .next (if v.isTruthy then K.load m env #[] (pc + 1) else K.load m env #[] target) := by
  rw [step_load h, Machine.exec, withTop_load, jump_load]

theorem step_load_jump {pc target : Nat} (h : K.chunk.code[pc]? = some ⟨.jump target, pos⟩) :
    (K.load m env #[] pc).step entry = .next (K.load m env #[] target) := by
  rw [step_load h, Machine.exec, jump_load]

/-- The code of a loop repeats the body as the loop does. Each turn costs at least one
instruction. -/
theorem leads_repeatWhile {cond : Array Value → Run σ Failure Value}
    {body : Array Value → Run σ Failure Exit} {locals i k n exit : Nat} {inLoop : Bool}
    (hcond : ∀ m env, Ready m₀ m → env.size = locals →
      Leads call entry fuel K (K.load m env #[] i) (cond env m) (K.Pushed m₀ env #[] k))
    (hjif : K.chunk.code[k]? = some ⟨.jumpIfFalse (n + 1), pos⟩)
    (hbody : ∀ m env, Ready m₀ m → env.size = locals →
      Leads call entry fuel K (K.load m env #[] (k + 1)) (body env m)
        (Exit.Arrived K m₀ locals true (n + 1) n))
    (hjump : K.chunk.code[n]? = some ⟨.jump i, pos⟩) :
    ∀ turns ≤ fuel, ∀ m env, Ready m₀ m → env.size = locals →
      Leads call entry turns K (K.load m env #[] i) (repeatWhile cond body turns env m)
        (Exit.Arrived K m₀ locals inLoop exit (n + 1)) := by
  intro turns
  induction turns with
  | zero => exact fun _ _ _ _ _ _ => rfl
  | succ turns ih =>
    intro hle m env hm henv
    rw [repeatWhile, Run.bind_apply]
    refine ((hcond m env hm henv).mono hle).bind ?_
    rintro v m' S' ⟨hm', rfl, _⟩
    have hstep : (K.load m' env (#[].push v) k).step entry = _ := step_load_jumpIfFalse hjif
    by_cases hv : v.isTruthy = true
    · rw [if_pos hv] at hstep ⊢
      rw [Run.bind_apply]
      refine .next_le hstep (((hbody m' env hm' henv).mono hle).bind ?_)
      rintro e m'' S'' ⟨hm'', harrived⟩
      cases e with
      | next env' =>
        obtain ⟨henv', rfl⟩ := harrived
        exact .next (step_load_jump hjump) (ih (Nat.le_of_succ_le hle) m'' env' hm'' henv')
      | left env' =>
        obtain ⟨_, henv', rfl⟩ := harrived
        exact .of_ok ⟨hm'', henv', rfl⟩
      | returned w => exact .of_ok ⟨hm'', harrived⟩
    · rw [if_neg hv] at hstep ⊢
      exact .next_le hstep (.of_ok ⟨hm', henv, rfl⟩)

theorem leads_assign {target : Target} {v : Value} {pc exit : Nat} {inLoop : Bool}
    (hcode : K.chunk.code[pc]? = some ⟨target.store, pos⟩)
    (hbounds : target.InBounds env.size globals) (hm : Ready m₀ m) :
    Leads call entry fuel K (K.load m env (#[].push v) pc)
      ((target.assign env v m).andThen fun env m => .ok (.next env) m)
      (Exit.Arrived K m₀ env.size inLoop exit (pc + 1)) := by
  cases target with
  | «local» slot =>
    have hstep : (K.load m env (#[].push v) pc).step entry =
        .next (K.load m (env.setIfInBounds slot v) #[] (pc + 1)) := by
      rw [step_load hcode, Target.store, Machine.exec, withTop_load, setLocal_load hbounds]
      rfl
    exact .next_le hstep (.of_ok ⟨hm, by simp, rfl⟩)
  | global slot =>
    rw [Target.assign, Run.bind_apply, Outcome.andThen_assoc]
    have hset : Leads call entry fuel K (K.load m env (#[].push v) pc) (writeGlobal slot v m)
        fun _ m' S' =>
        Ready m₀ m' ∧ S' = K.load m' env #[] (pc + 1) := by
      refine leads_of_changes ?_ (setGlobal_load slot v) fun m' h =>
        ⟨ready_of_writeGlobal hm h, rfl⟩
      rw [step_load hcode, Target.store, Machine.exec, withTop_load]
    refine hset.bind ?_
    rintro _ m' S' ⟨hm', rfl⟩
    exact .of_ok ⟨hm', rfl, rfl⟩

mutual

/-- **The code of a statement does what the statement means.** -/
theorem Stmt.leads_eval (happly : Applies call entry fuel m₀ apply) (hK : entry ≤ K.outer.size) :
    (s : Stmt) → {m : Machine σ} → {env : Array Value} → {inLoop : Bool} → {exit i j : Nat} →
    Stmt.Matches Eq env.size globals inLoop s s → s.At K.chunk exit i j → Ready m₀ m →
    Leads call entry fuel K (K.load m env #[] i) (s.eval apply fuel env m)
      (Exit.Arrived K m₀ env.size inLoop exit j)
  | .expr pos e, _, _, _, _, _, _, .expr he, ⟨k, hat, hcode, rfl⟩, hm => by
    rw [Stmt.eval, Run.bind_apply]
    refine (e.leads_eval happly hK he hat hm).bind ?_
    rintro v m' S' ⟨hm', rfl, _⟩
    refine .next_le ?_ (.of_ok ⟨hm', rfl, rfl⟩)
    rw [step_load hcode, Machine.exec, withTop_load]
  | .assign pos target value, _, _, _, _, _, _, .assign hbounds hvalue, ⟨k, hat, hcode, rfl⟩,
      hm => by
    rw [Stmt.eval, Run.bind_apply]
    refine (value.leads_eval happly hK hvalue hat hm).bind ?_
    rintro v m' S' ⟨hm', rfl, _⟩
    rw [Run.bind_apply]
    exact leads_assign hcode hbounds hm'
  | .setIndex pos object place value, _, env, _, _, _, _, .setIndex hobject hplace hvalue,
      ⟨k, n, p, hat, hat', hat'', hcode, rfl⟩, hm => by
    rw [Stmt.eval, Run.bind_apply]
    refine (object.leads_eval happly hK hobject hat hm).bind ?_
    rintro list m₁ S₁ ⟨hm₁, rfl, _⟩
    rw [Run.bind_apply]
    refine (place.leads_eval happly hK hplace hat' hm₁).bind ?_
    rintro index m₂ S₂ ⟨hm₂, rfl, _⟩
    rw [Run.bind_apply]
    refine (value.leads_eval happly hK hvalue hat'' hm₂).bind ?_
    rintro v m₃ S₃ ⟨hm₃, rfl, _⟩
    rw [Run.bind_apply]
    have hset : Leads call entry fuel K (K.load m₃ env (((#[].push list).push index).push v) p)
        (writeItem list index v m₃) fun _ m' S' =>
        Ready m₀ m' ∧ S' = K.load m' env #[] (p + 1) := by
      refine leads_of_changes ?_ (setIndex_load list index v) fun m' h =>
        ⟨ready_of_writeItem hm₃ h, rfl⟩
      rw [step_load hcode, Machine.exec, withTop_load, withTwo_load]
    refine hset.bind ?_
    rintro _ m' S' ⟨hm', rfl⟩
    exact .of_ok ⟨hm', rfl, rfl⟩
  | .ret pos value, _, env, _, _, _, _, .ret hvalue, ⟨k, hat, hcode, rfl⟩, hm => by
    rw [Stmt.eval, Run.bind_apply]
    refine (value.leads_eval happly hK hvalue hat hm).bind ?_
    rintro v m' S' ⟨hm', rfl, _⟩
    exact .of_ok ⟨hm', env, k, pos, hcode, rfl⟩
  | .branch pos cond body rest, _, env, _, _, _, _, .branch hcond hbody hrest,
      ⟨k, n, hat, hjif, hat', hjump, hat''⟩, hm => by
    rw [Stmt.eval, Run.bind_apply]
    refine (cond.leads_eval happly hK hcond hat hm).bind ?_
    rintro v m' S' ⟨hm', rfl, _⟩
    have hstep : (K.load m' env (#[].push v) k).step entry = _ := step_load_jumpIfFalse hjif
    by_cases hv : v.isTruthy = true
    · rw [if_pos hv] at hstep ⊢
      refine .next_le hstep ((Stmt.leads_evalAll happly hK body hbody hat' hm').finish ?_)
      rintro e m'' S'' ⟨hm'', harrived⟩
      cases e with
      | next env' =>
        obtain ⟨henv', rfl⟩ := harrived
        exact .next_le (step_load_jump hjump) (.of_ok ⟨hm'', henv', rfl⟩)
      | left env' | returned w => exact .of_ok ⟨hm'', harrived⟩
    · rw [if_neg hv] at hstep ⊢
      exact .next_le hstep (Stmt.leads_evalAll happly hK rest hrest hat'' hm')
  | .loop pos cond body, m, env, _, _, _, _, .loop hcond hbody, ⟨k, n, hat, hjif, hat', hjump, rfl⟩,
      hm => by
    refine leads_repeatWhile (fun m env' hm (henv : env'.size = env.size) => ?_) hjif
      (fun m env' hm henv => ?_) hjump fuel (Nat.le_refl fuel) m env hm rfl
    · rw [← henv] at hcond
      exact cond.leads_eval happly hK hcond hat hm
    · rw [← henv] at hbody ⊢
      exact Stmt.leads_evalAll happly hK body hbody hat' hm
  | .leave pos, _, _, _, _, _, _, .leave, ⟨hcode, rfl⟩, hm =>
    .next_le (step_load_jump hcode) (.of_ok ⟨hm, rfl, rfl, rfl⟩)
  | .pass, _, _, _, _, _, _, .pass, rfl, hm => .of_ok ⟨hm, rfl, rfl⟩

/-- The code of statements does what they mean. -/
theorem Stmt.leads_evalAll (happly : Applies call entry fuel m₀ apply) (hK : entry ≤ K.outer.size) :
    (ss : List Stmt) → {m : Machine σ} → {env : Array Value} → {inLoop : Bool} → {exit i j : Nat} →
    Stmt.MatchesAll Eq env.size globals inLoop ss ss → Stmt.AtAll K.chunk ss exit i j → Ready m₀ m →
    Leads call entry fuel K (K.load m env #[] i) (Stmt.evalAll apply fuel ss env m)
      (Exit.Arrived K m₀ env.size inLoop exit j)
  | [], _, _, _, _, _, _, _, rfl, hm => .of_ok ⟨hm, rfl, rfl⟩
  | s :: ss, _, env, _, _, _, _, .cons hs hss, ⟨k, hat, hat'⟩, hm => by
    rw [Stmt.evalAll, Run.bind_apply]
    refine (Stmt.leads_eval happly hK s hs hat hm).bind ?_
    rintro e m' S' ⟨hm', harrived⟩
    cases e with
    | next env' =>
      obtain ⟨henv', rfl⟩ := harrived
      rw [← henv'] at hss ⊢
      exact Stmt.leads_evalAll happly hK ss hss hat' hm'
    | left env' | returned w => exact .of_ok ⟨hm', harrived⟩

end

/-- A body that ends with a `ret` has no next statement. -/
theorem Stmt.evalAll_ret_ne_next {ss : List Stmt} {e : Expr} {env env' : Array Value} :
    Stmt.evalAll apply fuel (ss ++ [.ret pos e]) env m ≠ .ok (.next env') m' := by
  induction ss generalizing env m with
  | nil =>
    rw [List.nil_append, Stmt.evalAll, Run.bind_apply, Stmt.eval, Run.bind_apply]
    cases e.eval apply env m <;> simp [Run.pure_apply]
  | cons s ss ih =>
    rw [List.cons_append, Stmt.evalAll, Run.bind_apply]
    cases s.eval apply fuel env m with
    | ok exit m₁ =>
      cases exit with
      | next env₁ => exact ih
      | _ => simp [Run.pure_apply]
    | _ => simp

/-- The code of a function gets to a `ret` with the function's result on top of the stack. -/
theorem Func.leads_evalBody {d : Func} (happly : Applies call entry fuel m₀ apply)
    (hK : entry ≤ K.outer.size) (hd : d.Scoped globals) (hchunk : K.chunk = d.chunk)
    {args : List Value} (hargs : args.length = d.params) (hm : Ready m₀ m) :
    Leads call entry fuel K
      (K.load m (args.toArray ++ Array.replicate (d.locals - d.params) Value.none) #[] 0)
      (d.evalBody apply fuel args m) fun v m' S' =>
        Ready m₀ m' ∧ ∃ env r pos, K.chunk.code[r]? = some ⟨.ret, pos⟩ ∧
        S' = K.load m' env #[v] r := by
  have hsize : (args.toArray ++ Array.replicate (d.locals - d.params) Value.none).size =
      d.locals := by
    have := hd.params_le
    simp only [Array.size_append, List.size_toArray, Array.size_replicate, hargs]
    omega
  have hbody := hd.body
  have hat := Func.at_chunk hd 0
  rw [← hsize] at hbody
  rw [← hchunk] at hat
  rw [Func.evalBody, Run.bind_apply]
  intro hsafe
  have hleads := Stmt.leads_evalAll happly hK d.body hbody hat hm hsafe
  cases hout : Stmt.evalAll apply fuel d.body
      (args.toArray ++ Array.replicate (d.locals - d.params) Value.none) m with
  | ok exit m' =>
    rw [hout] at hleads
    obtain ⟨n, S', hs, hm', harrived⟩ := hleads
    cases exit with
    | next env =>
      obtain ⟨ss, pos, v, hends⟩ := hd.ends
      rw [hends] at hout
      exact absurd hout Stmt.evalAll_ret_ne_next
    | left env => exact absurd harrived.1 (by simp)
    | returned v => exact ⟨n, S', hs, hm', harrived⟩
  | failed f m' | unwound m' | exhausted => rw [hout] at hleads; exact hleads

end

/-! ## Calls -/

section

open Activation

variable {env temps : Array Value} {pc : Nat} {v : Value} {args : List Value}

/-- What covers a call covers the calls around it. -/
theorem covers_of_callee {f : ScriptFunction} (h : (K.callee f env temps v pc).Covers m S) :
    K.Covers m S := by
  obtain ⟨s, fr, rfl⟩ := h
  refine ⟨env ++ temps.push v ++ s, #[{ chunk := K.chunk, pc, base := K.below.size }] ++ fr, ?_⟩
  simp [callee, Array.append_assoc]

/-- A call of a native function in the middle of an expression. -/
theorem leads_applyNative (hcall : Contained call) (f : NativeFunction (Native σ)) (hm : Ready m₀ m)
    (hstep : S.step entry =
      .native f args (K.below ++ env ++ temps).size
        (K.load m env (temps.push v ++ args.toArray) pc))
    (hroom : (K.below ++ env ++ temps).size < m₀.options.maxStackSize) :
    Leads call entry (fuel + 1) K S (applyNative call f args m) (K.Pushed m₀ env temps pc) := by
  let m₁ : Machine σ := m.enterNative
  have hm₁ : Ready m₀ m₁ := { hm with }
  have hready := hcall.ready (h := f.code args) hm₁
  -- the native function sees the machine with the whole stack, the evaluation the one without
  have hdetached : call (f.code args) (K.load m env (temps.push v ++ args.toArray) pc).enterNative =
      (call (f.code args) m₁).onMachine fun m' => K.load m' env (temps.push v ++ args.toArray) pc :=
    hcall.detached (f.code args) m₁ _ _ hm.inEval
  cases hout : call (f.code args) m₁ with
  | failed e m₂ => exact e.elim
  | exhausted =>
    have happly : applyNative call f args m = .exhausted := by
      simp only [applyNative, Run.bind_apply, Run.modify, Outcome.andThen_ok, Run.infallible,
        m₁, hout, Outcome.andThen_exhausted]
    rw [hout] at hdetached
    rw [happly]
    intro _
    rw [runSteps, hstep]
    simp only [hdetached, Outcome.onMachine]
  | unwound m₂ =>
    have happly : applyNative call f args m = .unwound m₂ := by
      simp only [applyNative, Run.bind_apply, Run.modify, Outcome.andThen_ok, Run.infallible,
        m₁, hout, Outcome.andThen_unwound]
    rw [hout] at hdetached
    rw [happly]
    refine fun _ => ⟨1, _, ?_, covers_load K m₂ env (temps.push v ++ args.toArray) pc⟩
    rw [runSteps, hstep]
    simp only [hdetached, Outcome.onMachine]
  | ok w m₂ =>
    rw [hout] at hdetached hready
    let m₃ : Machine σ := m₂.leaveNative
    have hm₃ : Ready m₀ m₃ := { hready with }
    have hresume : (K.load m₂ env (temps.push v ++ args.toArray) pc).leaveNative.resume f.name
        (K.below ++ env ++ temps).size w = _ :=
      resume_load (m := m₃) v args f.name w
    have happly : applyNative call f args m =
        if w.isInterrupt then .failed .panic m₃
        else if (w.asObject?.map fun id => m₃.heap.contains id) = some false then
          .ofChecked (m₃.internalError
            ("native function `" ++ f.name ++ "` returned a freed object"))
        else .ok w m₃ := by
      simp only [applyNative, Run.bind_apply, Run.modify, Outcome.andThen_ok, Run.infallible,
        m₁, hout]
      rfl
    have hfails : ∀ {e : Failure} {m' m'' : Machine σ},
        (K.load m₂ env (temps.push v ++ args.toArray) pc).leaveNative.resume f.name
          (K.below ++ env ++ temps).size w = .error (e, m'') →
        K.Covers m' m'' → Leads call entry (fuel + 1) K S (.failed e m' : Outcome σ Failure Value)
          (K.Pushed m₀ env temps pc) := by
      intro e m' m'' he hc _
      refine ⟨1, m'', ?_, hc⟩
      rw [runSteps, hstep]
      simp only [hdetached, Outcome.onMachine, he]
    rw [happly]
    by_cases hint : w.isInterrupt = true
    · rw [if_pos hint] at hresume ⊢
      exact hfails hresume (covers_load K m₃ env (temps.push v ++ args.toArray) pc)
    · rw [if_neg hint] at hresume ⊢
      by_cases hfreed : (w.asObject?.map fun id => m₃.heap.contains id) = some false
      · rw [if_pos hfreed] at hresume ⊢
        exact hfails hresume (covers_load K _ env (temps.push v ++ args.toArray) pc)
      · rw [if_neg hfreed] at hresume ⊢
        rw [push_load, if_neg (by rw [hm₃.options]; omega)] at hresume
        refine fun _ => ⟨1, _, .single (.native hstep ?_ hresume), hm₃, rfl, hroom⟩
        exact hdetached

/-- **Calls are executed as they are evaluated.** A level of fuel costs the code at least one
instruction. -/
theorem applies_apply (hcall : Contained call) (sources : Declarations) (fuel : Nat) :
    Applies call entry fuel m₀ (apply call sources fuel) := by
  induction fuel with
  | zero => exact fun _ _ _ _ _ => rfl
  | succ fuel ih =>
    intro K m env temps v args pc pos hK hm hcode hroom
    have hstep : (K.load m env (temps.push v ++ args.toArray) pc).step entry = _ :=
      (step_load hcode).trans (call_load v args)
    have hfails : ∀ {e : Failure} {m' : Machine σ},
        (K.load m env (temps.push v ++ args.toArray) pc).step entry =
          .failed e (K.load m' env (temps.push v ++ args.toArray) (pc + 1)) →
        Leads call entry (fuel + 1) K (K.load m env (temps.push v ++ args.toArray) pc)
          (.failed e m' : Outcome σ Failure Value) (K.Pushed m₀ env temps (pc + 1)) := by
      intro e m' h
      exact .of_failed h (covers_load K m' env (temps.push v ++ args.toArray) (pc + 1))
    unfold apply
    cases hobj : m.object? v with
    | none => rw [hobj] at hstep; exact hfails hstep
    | some o =>
      rw [hobj] at hstep
      cases o with
      | string s | list items => exact hfails hstep
      | native f =>
        simp only at hstep ⊢
        by_cases harity : args.length = f.arity
        · rw [if_pos harity] at hstep ⊢
          exact leads_applyNative hcall f hm hstep hroom
        · rw [if_neg harity] at hstep ⊢
          exact hfails hstep
      | function f =>
        simp only at hstep ⊢
        by_cases harity : args.length = f.arity
        · rw [if_pos harity] at hstep ⊢
          obtain ⟨id, hid⟩ : ∃ id, m.heap.get? id = some (.function f) := by
            unfold Machine.object? at hobj
            split at hobj
            · exact ⟨_, hobj⟩
            · cases hobj
          obtain ⟨d', globals', hscoped', hscript'⟩ := hm.sourced id f hid
          have hsome := sources.isSome_find? hscoped'
          rw [hscript'] at hsome
          obtain ⟨d, hd⟩ := Option.isSome_iff_exists.1 hsome
          obtain ⟨globals, hscoped⟩ := sources.inBounds hd
          obtain rfl : d.script = f := sources.script_eq hd
          rw [hd]
          have henter : (K.load m env (temps.push v ++ args.toArray) (pc + 1)).enter d.script _ =
              _ ∨ _ :=
            enter_load v args d.script
          rcases henter with hopen | ⟨m', hfull, hmessage⟩
          · rw [hopen] at hstep
            have hbody := Func.leads_evalBody (K := K.callee d.script env temps v (pc + 1)) ih
              (by simp [callee]; omega) hscoped rfl harity hm
            refine .next hstep ((hbody.outer fun _ _ => covers_of_callee).finish ?_)
            rintro w m' S' ⟨hm', env', r, pos', hret, rfl⟩
            refine leads_push ?_ hm'
            rw [step_load hret, Machine.exec, show (#[w] : Array Value) = #[].push w from rfl,
              withTop_load]
            exact ret_load_callee hK w
          · rw [hfull] at hstep
            exact fun hsafe => absurd ⟨m', hstep, hmessage⟩ hsafe.not_overflows
        · rw [if_neg harity] at hstep ⊢
          exact hfails hstep

/-! ## Programs -/

/-- How the run of a program's code ends if its evaluation ends with `o`: in the same way, up to the
report on a failure, and up to what an unwinding leaves on the stack. -/
def Agrees (call : Callback σ) (chunk : Chunk) (m : Machine σ) (fuel : Nat)
    (o : Outcome σ Failure Value) : Prop :=
  match o with
  | .ok v m' => ∃ n, execute call n chunk m = .ok v m'
  | .failed f m' => ∃ n report, execute call n chunk m =
      .failed f { m' with report, stack := m.stack, frames := m.frames }
  | .unwound m' => ∃ n s fr, execute call n chunk m =
      .unwound { m' with stack := m.stack ++ s, frames := m.frames ++ fr }
  | .exhausted => execute call fuel chunk m = .exhausted

/-- The run of a program's code, and what is put in order after it. -/
theorem execute_eq (call : Callback σ) (n : Nat) (chunk : Chunk) (m : Machine σ) :
    execute call n chunk m =
      match runSteps call m.frames.size n (start chunk m) with
      | .ok v m' => .ok v { m' with
          frames := m'.frames.shrink m.frames.size, stack := m'.stack.shrink m.stack.size }
      | .failed f m' => .failed f { m' with
          report := runtimeReport f m'.message (m'.frames.toList.drop m.frames.size).reverse
          frames := m'.frames.shrink m.frames.size
          stack := m'.stack.shrink m.stack.size }
      | .unwound m' => .unwound m'
      | .exhausted => .exhausted := rfl

/-- **The code of a program runs as the program is evaluated.** -/
theorem Func.agrees_eval (hcall : Contained call) (sources : Declarations) {d : Func}
    {globals : Nat} (hd : d.Scoped globals) (hlocals : d.locals = 0) (hm : Ready m m)
    (hsafe : Safe call m.frames.size (start d.chunk m)) (fuel : Nat) :
    Agrees call d.chunk m fuel (d.eval call sources fuel m) := by
  let K : Activation := { chunk := d.chunk, below := m.stack, outer := m.frames }
  have hparams : d.params = 0 := by
    have := hd.params_le
    omega
  have hstart : start d.chunk m = K.load m #[] #[] 0 := by
    simp [start, load, K]
  have happly : Applies call m.frames.size fuel m (apply call sources fuel) :=
    applies_apply hcall sources fuel
  have hbody := Func.leads_evalBody (K := K) happly (Nat.le_refl _) hd rfl
    (show ([] : List Value).length = d.params from hparams.symm) hm
  have henv : ([] : List Value).toArray ++ Array.replicate (d.locals - d.params) Value.none =
      #[] := by
    simp [hlocals]
  rw [henv, ← hstart] at hbody
  have hbody := hbody hsafe
  unfold Func.eval
  cases hout : d.evalBody (apply call sources fuel) fuel [] m with
  | ok v m' =>
    rw [hout] at hbody
    obtain ⟨n, S', hs, hm', env, r, pos, hret, rfl⟩ := hbody
    have hdone : (K.load m' env (#[].push v) r).step m.frames.size =
        .done v { m' with stack := m.stack ++ env, frames := m.frames } := by
      rw [step_load hret, Machine.exec, withTop_load]
      exact ret_load_outermost rfl v
    have hrun : runSteps call m.frames.size (n + 1) (start d.chunk m) =
        .ok v { m' with stack := m.stack ++ env, frames := m.frames } := by
      rw [hs.runSteps_eq 1, show (#[v] : Array Value) = #[].push v from rfl, runSteps, hdone]
    have hframes : m'.frames.shrink m'.frames.size = m'.frames := by simp
    refine ⟨n + 1, ?_⟩
    rw [execute_eq, hrun]
    simp only [shrink_append_left, ← hm'.stack, ← hm'.frames, hframes]
  | failed f m' =>
    rw [hout] at hbody
    obtain ⟨n, _, hrun, s, fr, rfl⟩ := hbody
    refine ⟨n, runtimeReport f m'.message ((m.frames ++ fr).toList.drop m.frames.size).reverse, ?_⟩
    rw [execute_eq, hrun]
    simp only [shrink_append_left, K]
  | unwound m' =>
    rw [hout] at hbody
    obtain ⟨n, _, hrun, s, fr, rfl⟩ := hbody
    refine ⟨n, s, fr, ?_⟩
    rw [execute_eq, hrun]
  | exhausted =>
    rw [hout] at hbody
    show execute call fuel d.chunk m = .exhausted
    rw [execute_eq, hbody]

end

end Core

end ScriptMachine
