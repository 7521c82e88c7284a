import ScriptMachine.Proofs.Growth
import ScriptMachine.Proofs.Simulation
/-!
# Callbacks in the middle of an evaluation

While an evaluation is in progress, evaluations that callbacks ask for are refused and garbage is
not collected. So a callback neither looks at the stack and the calls of the evaluation nor changes
them.

* `Unseen.pairs_run`: **every host program ends in the same way on corresponding machines**;
* `Host.detached_run`, `Host.contained_run`: it leaves the stack and the calls of the evaluation
  alone.
-/

namespace ScriptMachine

variable {σ ε α β : Type}

/-- The same machine with another stack and other calls in progress. -/
def Machine.withCalls (m : Machine σ) (s : Array Value) (fr : Array Frame) : Machine σ :=
  { m with stack := s, frames := fr }

/-- The same machine with another stack, other calls in progress and another message. -/
def Machine.withUnseen (m : Machine σ) (s : Array Value) (fr : Array Frame) (message : String) :
    Machine σ :=
  { m with stack := s, frames := fr, message }

/-- Two runs that end in the same way on machines that are related. -/
inductive Outcome.Pairs (rel : Machine σ → Machine σ → Prop) : Outcome σ ε α → Outcome σ ε α → Prop
  | ok {a : α} {m m' : Machine σ} (h : rel m m') : Pairs rel (.ok a m) (.ok a m')
  | failed {e : ε} {m m' : Machine σ} (h : rel m m') : Pairs rel (.failed e m) (.failed e m')
  | unwound {m m' : Machine σ} (h : rel m m') : Pairs rel (.unwound m) (.unwound m')
  | exhausted : Pairs rel .exhausted .exhausted

/-- A correspondence between machines in the middle of an evaluation that differ in what no callback
can see. It lasts when all else changes on both machines alike, and when both get a new message. -/
structure Unseen (σ : Type) where
  rel : Machine σ → Machine σ → Prop
  inEval : ∀ {m m'}, rel m m' → m.inEval = true
  same : ∀ {m m'}, rel m m' → m' = m.withUnseen m'.stack m'.frames m'.message
  change : ∀ {m m' n : Machine σ}, rel m m' → n.inEval = true →
    rel (n.withUnseen m.stack m.frames m.message) (n.withUnseen m'.stack m'.frames m'.message)
  setMessage : ∀ {m m'}, rel m m' → ∀ message, rel { m with message } { m' with message }

namespace Unseen

variable {R : Unseen σ} {m m' : Machine σ}

/-- Changes that look at nothing unseen. -/
theorem rel_change {f : Machine σ → Machine σ} (h : R.rel m m') (heval : (f m).inEval = m.inEval)
    (hf : ∀ s fr t, f (m.withUnseen s fr t) = (f m).withUnseen s fr t) : R.rel (f m) (f m') := by
  have hm : f m = (f m).withUnseen m.stack m.frames m.message := hf m.stack m.frames m.message
  have hm' : f m' = (f m).withUnseen m'.stack m'.frames m'.message := by
    rw [R.same h]
    exact hf _ _ _
  rw [hm', hm]
  exact R.change h (heval.trans (R.inEval h))

/-- A machine and the same one with another stack and other calls. -/
def calls (s : Array Value) (fr : Array Frame) : Unseen σ where
  rel m m' := m.inEval = true ∧ m' = m.withCalls s fr
  inEval h := h.1
  same h := by rw [h.2]; rfl
  change h hn := ⟨hn, by rw [h.2]; rfl⟩
  setMessage h message := ⟨h.1, by rw [h.2]; rfl⟩

end Unseen

/-- A computation that, in the middle of an evaluation, looks at nothing unseen and does not change
it, and does not end the evaluation. -/
def Run.Secluded (x : Run σ ε α) : Prop :=
  ∀ s fr t m, m.inEval = true →
    x (m.withUnseen s fr t) = (x m).onMachine (·.withUnseen s fr t) ∧ (x m).All (·.inEval = true)

namespace Run

theorem Secluded.pairs {x : Run σ ε α} (hx : x.Secluded) {R : Unseen σ} {m m' : Machine σ}
    (h : R.rel m m') : Outcome.Pairs R.rel (x m) (x m') := by
  have hin := R.inEval h
  obtain ⟨hself, heval⟩ := hx m.stack m.frames m.message m hin
  have hother := (hx m'.stack m'.frames m'.message m hin).1
  rw [← R.same h] at hother
  rw [show m.withUnseen m.stack m.frames m.message = m from rfl] at hself
  rw [hother]
  generalize x m = o at hself heval ⊢
  cases o with
  | ok a n =>
    obtain ⟨-, hn⟩ := Outcome.ok.inj hself
    rw [hn]
    exact .ok (R.change h heval)
  | failed e n =>
    obtain ⟨-, hn⟩ := Outcome.failed.inj hself
    rw [hn]
    exact .failed (R.change h heval)
  | unwound n =>
    rw [Outcome.unwound.inj hself]
    exact .unwound (R.change h heval)
  | exhausted => exact .exhausted

theorem secluded_gets {f : Machine σ → α} (hf : ∀ m s fr t, f (m.withUnseen s fr t) = f m) :
    (gets f : Run σ ε α).Secluded := by
  intro s fr t m hm
  refine ⟨?_, hm⟩
  show Outcome.ok (f (m.withUnseen s fr t)) (m.withUnseen s fr t) =
    Outcome.ok (f m) (m.withUnseen s fr t)
  rw [hf]

theorem secluded_lift {f : Machine σ → α × Machine σ} (hf : ∀ m s fr t, m.inEval = true →
      f (m.withUnseen s fr t) = ((f m).1, (f m).2.withUnseen s fr t) ∧ (f m).2.inEval = true) :
    (lift f : Run σ ε α).Secluded := by
  intro s fr t m hm
  obtain ⟨heq, heval⟩ := hf m s fr t hm
  refine ⟨?_, heval⟩
  show Outcome.ok (f (m.withUnseen s fr t)).1 (f (m.withUnseen s fr t)).2 = _
  rw [heq]
  rfl

theorem secluded_modify {f : Machine σ → Machine σ}
    (hf : ∀ m s fr t, f (m.withUnseen s fr t) = (f m).withUnseen s fr t)
    (heval : ∀ m, (f m).inEval = m.inEval) : (modify f : Run σ ε Unit).Secluded := by
  intro s fr t m hm
  refine ⟨?_, (heval m).trans hm⟩
  show Outcome.ok () (f (m.withUnseen s fr t)) = _
  rw [hf]
  rfl

end Run

theorem Outcome.Pairs.attempt {x : Run σ ε α} {rel : Machine σ → Machine σ → Prop}
    {m m' : Machine σ} (h : Pairs rel (x m) (x m')) :
    Pairs rel ((x.attempt : Run σ Empty _) m) ((x.attempt : Run σ Empty _) m') := by
  unfold Run.attempt
  generalize x m = o at h ⊢
  generalize x m' = o' at h ⊢
  cases h with
  | ok h | failed h => exact .ok h
  | unwound h => exact .unwound h
  | exhausted => exact .exhausted

/-! ## Compilations -/

/-- Compilations do not look at what callbacks cannot see. -/
def Link.unseen (R : Unseen σ) : Link σ where
  World := Unit
  le _ _ := True
  val _ v v' := v = v'
  rel _ m m' := R.rel m m'
  reach _ := 0
  le_refl _ := trivial
  le_trans _ _ := trivial
  val_mono _ h := h
  val_number _ _ := rfl
  names h := by rw [R.same h]; rfl
  imports h := by rw [R.same h]; rfl
  lookup h _ := by rw [R.same h]; rfl
  function? {_ m _} h index name := by
    rw [R.same h]
    show Option.Rel Eq (m.modules.function? index name) (m.modules.function? index name)
    cases m.modules.function? index name with
    | none => exact .none
    | some v => exact .some rfl
  string {_ m m'} h t := by
    refine ⟨(), trivial, Nat.le_refl _,
      R.rel_change (f := fun m => (m.alloc (.string t)).2) h rfl fun _ _ _ => rfl, ?_⟩
    rw [R.same h]
    rfl
  function {_ m m' d _ _} h hd := by
    obtain rfl := hd.eq
    refine ⟨(), trivial, Nat.zero_le _,
      R.rel_change (f := fun m => (m.alloc (.function d.script)).2) h rfl fun _ _ _ => rfl, ?_⟩
    rw [R.same h]
    rfl
  commit {_ m m' b} h := R.rel_change (f := Compile.commit b) h rfl fun _ _ _ => rfl

variable {call : Callback σ} {R : Unseen σ}

namespace Unseen

variable (hcall : ∀ h m m', R.rel m m' → Outcome.Pairs R.rel (call h m) (call h m'))
    (hgrows : Callback.Grows call)

include hcall hgrows

theorem calls_link : (Link.unseen R).Calls call call := by
  intro name _ m m' index handle loader hrel _
  have hbegin : R.rel (m.beginLoad index) (m'.beginLoad index) :=
    R.rel_change (f := fun m => m.beginLoad index) hrel rfl fun _ _ _ => rfl
  have hpairs := hcall (loader handle) _ _ hbegin
  have hnames := hgrows (loader handle) (m.beginLoad index)
  revert hpairs hnames
  generalize call (loader handle) (m.beginLoad index) = o
  generalize call (loader handle) (m'.beginLoad index) = o'
  intro hpairs hnames
  cases hpairs with
  | @ok v n n' h =>
    refine .ok trivial ⟨?_, Nat.le_refl _, hnames.names⟩
    exact R.rel_change (f := fun n => n.finishLoad index) h rfl fun _ _ _ => rfl
  | @failed e => exact e.elim
  | unwound h => exact .unwound (show (Link.unseen R).le () () from trivial) h
  | exhausted => exact .exhausted

theorem pairs_compileSource (source name : String) {m m' : Machine σ} (h : R.rel m m') :
    Outcome.Pairs R.rel (compileSource call source name m) (compileSource call source name m') := by
  have hrel : (Link.unseen R).rel () m m' := h
  have hends :=
    Link.ends_compileSource source name (fun name _ => calls_link hcall hgrows name) hrel
      (Nat.zero_le _)
  revert hends
  generalize compileSource call source name m = o
  generalize compileSource call source name m' = o'
  intro hends
  cases hends with
  | ok _ h =>
    obtain ⟨h, _, _, d, d', rfl, rfl, _, hd⟩ := h
    rw [hd.eq]
    exact .ok h
  | failed _ h => exact .failed h
  | unwound _ h => exact .unwound h
  | exhausted => exact .exhausted

end Unseen

/-! ## Looking at values -/

namespace Machine

variable {m m' : Machine σ}

theorem itemText_congr (h : m'.heap = m.heap) (room : Nat) (v : Value) :
    m'.itemText room v = m.itemText room v := by
  induction room generalizing v with
  | zero => unfold itemText; rw [h]
  | succ room ih =>
    have hitems : m'.itemText room = m.itemText room := funext ih
    unfold itemText
    simp only [h, hitems]

theorem display_congr (h : m'.heap = m.heap) (v : Value) : m'.display v = m.display v := by
  have hitem := itemText_congr h displayDepth v
  unfold display asString? object?
  rw [h, hitem]

theorem toJsonIn_congr (h : m'.heap = m.heap) (room : Nat) (path : List ObjectId) (v : Value) :
    m'.toJsonIn room path v = m.toJsonIn room path v := by
  induction room generalizing path v with
  | zero => unfold toJsonIn; rw [h]
  | succ room ih =>
    have hitems : ∀ path, m'.toJsonIn room path = m.toJsonIn room path :=
      fun path => funext (ih path)
    unfold toJsonIn
    simp only [h, hitems]

/-! ## Requests -/

theorem pinForHost_withUnseen (m : Machine σ) (v : Value) (s : Array Value) (fr : Array Frame)
    (t : String) : (m.withUnseen s fr t).pinForHost v = (m.pinForHost v).withUnseen s fr t := by
  unfold pinForHost
  cases v.asObject? with
  | none => rfl
  | some id =>
    show (if m.nativeDepth = 0 then _ else _) = Machine.withUnseen (if m.nativeDepth = 0 then _
      else _) s fr t
    split <;> rfl

@[simp] theorem inEval_pinForHost (m : Machine σ) (v : Value) :
    (m.pinForHost v).inEval = m.inEval := by
  unfold pinForHost
  split
  · rfl
  · split <;> rfl

theorem collectGarbage_of_inEval (hm : m.inEval = true) : m.collectGarbage = (0, m) := by
  unfold collectGarbage
  rw [if_pos hm]

theorem secluded_collectGarbage : (Run.lift (·.collectGarbage) : Run σ ε _).Secluded := by
  refine Run.secluded_lift fun m s fr t hm => ?_
  rw [collectGarbage_of_inEval hm,
    collectGarbage_of_inEval (show (m.withUnseen s fr t).inEval = true from hm)]
  exact ⟨rfl, hm⟩

theorem release_of_inEval (hm : m.inEval = true) (v : Value) :
    m.release v =
      match v.asObject? with
      | none => (.ok (), m)
      | some id =>
        match m.heap.unpin id with
        | (.error _, heap) =>
          (.error .invalidRelease, { m with heap, invalidReleases := m.invalidReleases + 1 })
        | (.ok _, heap) => (.ok (), { m with heap }) := by
  unfold release
  cases v.asObject? with
  | none => rfl
  | some id =>
    dsimp only
    rcases m.heap.unpin id with ⟨fault | left, heap⟩
    · rfl
    · dsimp only
      rw [collectGarbage_of_inEval (show { m with heap }.inEval = true from hm), ite_self]

theorem secluded_release (v : Value) : (Run.lift (·.release v) : Run σ ε _).Secluded := by
  refine Run.secluded_lift fun m s fr t hm => ?_
  rw [release_of_inEval hm, release_of_inEval (show (m.withUnseen s fr t).inEval = true from hm)]
  cases v.asObject? with
  | none => exact ⟨rfl, hm⟩
  | some id =>
    dsimp only [withUnseen]
    rcases m.heap.unpin id with ⟨_ | _, heap⟩ <;> exact ⟨rfl, hm⟩

theorem secluded_retain (v : Value) : (Run.lift (·.retain v) : Run σ ε _).Secluded := by
  refine Run.secluded_lift fun m s fr t hm => ?_
  unfold retain
  cases v.asObject? with
  | none => exact ⟨rfl, hm⟩
  | some id =>
    dsimp only [withUnseen]
    rcases m.heap.pin id with ⟨_ | _, heap⟩ <;> exact ⟨rfl, hm⟩

theorem secluded_adopt (o : Object (Native σ)) : (Run.lift (·.adopt o) : Run σ ε _).Secluded := by
  refine Run.secluded_lift fun m s fr t hm => ⟨?_, ?_⟩
  · exact congrArg (Prod.mk _) (pinForHost_withUnseen (m.alloc o).2 (m.alloc o).1 s fr t)
  · exact (inEval_pinForHost _ _).trans hm

mutual

theorem buildJson_withUnseen (depth : Nat) (s : Array Value) (fr : Array Frame) (t : String) :
    (j : Json) → (m : Machine σ) → buildJson depth j (m.withUnseen s fr t) =
      ((buildJson depth j m).1, (buildJson depth j m).2.withUnseen s fr t) ∧
      (buildJson depth j m).2.inEval = m.inEval
  | .null, m | .bool _, m | .int _, m | .float _, m | .string _, m | .object _, m => by
    unfold buildJson
    exact ⟨rfl, rfl⟩
  | .array items, m => by
    obtain ⟨hitems, heval⟩ := buildItems_withUnseen (depth + 1) s fr t items m
    unfold buildJson
    rw [hitems]
    split
    · exact ⟨rfl, rfl⟩
    · rcases hp : buildItems (depth + 1) items m with ⟨_ | vs, n⟩ <;> rw [hp] at heval <;>
        exact ⟨rfl, heval⟩

theorem buildItems_withUnseen (depth : Nat) (s : Array Value) (fr : Array Frame) (t : String) :
    (items : List Json) → (m : Machine σ) → buildItems depth items (m.withUnseen s fr t) =
      ((buildItems depth items m).1, (buildItems depth items m).2.withUnseen s fr t) ∧
      (buildItems depth items m).2.inEval = m.inEval
  | [], m => ⟨rfl, rfl⟩
  | item :: items, m => by
    obtain ⟨hitem, heval⟩ := buildJson_withUnseen depth s fr t item m
    unfold buildItems
    rw [hitem]
    rcases hp : buildJson depth item m with ⟨_ | v, n⟩ <;> rw [hp] at heval
    · exact ⟨rfl, heval⟩
    · obtain ⟨hitems, heval'⟩ := buildItems_withUnseen depth s fr t items n
      dsimp only
      rw [hitems]
      rcases hp' : buildItems depth items n with ⟨_ | vs, k⟩ <;> rw [hp'] at heval' <;>
        exact ⟨rfl, heval'.trans heval⟩

end

theorem secluded_ofJson (j : Json) : (Run.lift (·.ofJson j) : Run σ ε _).Secluded := by
  refine Run.secluded_lift fun m s fr t hm => ?_
  obtain ⟨hbuild, heval⟩ := buildJson_withUnseen 0 s fr t j m
  unfold ofJson
  rw [hbuild]
  rcases hp : buildJson 0 j m with ⟨_ | v, n⟩ <;> rw [hp] at heval
  · exact ⟨rfl, heval.trans hm⟩
  · exact ⟨congrArg (Prod.mk _) (n.pinForHost_withUnseen v s fr t),
      (inEval_pinForHost _ _).trans (heval.trans hm)⟩

end Machine

namespace Unseen

variable {m m' : Machine σ}

/-- An evaluation inside of another one is refused with a message of its own. -/
theorem rel_refused (h : R.rel m m') (message report : String) :
    R.rel { m with message, report } { m' with message, report } :=
  R.setMessage (R.rel_change (f := fun m => { m with report }) h rfl fun _ _ _ => rfl) message

theorem inEval_right (h : R.rel m m') : m'.inEval = true := by
  have hin : m.inEval = true := R.inEval h
  rw [R.same h]
  exact hin

theorem pairs_eval (call : Callback σ) (fuel : Nat) (source : String) (h : R.rel m m') :
    Outcome.Pairs R.rel (eval call fuel source m : Outcome σ ε _) (eval call fuel source m') := by
  rw [eval_of_inEval (R.inEval h), eval_of_inEval (inEval_right h)]
  exact .ok (rel_refused h _ _)

theorem pairs_guardedEval (call : Callback σ) (fuel : Nat) (source : SizedText) (h : R.rel m m') :
    Outcome.Pairs R.rel (guardedEval call fuel source m : Outcome σ ε _)
      (guardedEval call fuel source m') := by
  unfold guardedEval
  cases source.decode? with
  | none => exact .ok (R.rel_change (f := fun m => { m with report := _ }) h rfl fun _ _ _ => rfl)
  | some text =>
    dsimp only
    rw [eval_of_inEval (R.inEval h), eval_of_inEval (inEval_right h)]
    exact .ok (rel_refused h _ _)

/-- Requests end in the same way on corresponding machines. -/
theorem pairs_perform (hcall : ∀ h m m', R.rel m m' → Outcome.Pairs R.rel (call h m) (call h m'))
    (hgrows : Callback.Grows call) (fuel : Nat) (r : Request) (h : R.rel m m') :
    Outcome.Pairs R.rel (r.perform call fuel m) (r.perform call fuel m') := by
  have hplain (hr : (r.perform call fuel).Secluded) :
      Outcome.Pairs R.rel (r.perform call fuel m) (r.perform call fuel m') := hr.pairs h
  cases r with
  | eval source => exact pairs_eval call fuel source h
  | evalBytes source => exact pairs_guardedEval call fuel source h
  | compile source name => exact (pairs_compileSource hcall hgrows source name h).attempt
  | createString text | createList items => exact hplain (Machine.secluded_adopt _)
  | raise message => exact .ok (R.setMessage h message)
  | print line | discard pointer size =>
    exact hplain (Run.secluded_modify (fun _ _ _ _ => rfl) fun _ => rfl)
  | release v => exact hplain (Machine.secluded_release v)
  | retain v => exact hplain (Machine.secluded_retain v)
  | collect => exact hplain Machine.secluded_collectGarbage
  | display v =>
    exact hplain (Run.secluded_gets fun m s fr t =>
      Machine.display_congr (show (m.withUnseen s fr t).heap = m.heap from rfl) v)
  | exportJson v =>
    exact hplain (Run.secluded_gets fun m s fr t =>
      Machine.toJsonIn_congr (show (m.withUnseen s fr t).heap = m.heap from rfl) _ _ v)
  | importJson j => exact hplain (Machine.secluded_ofJson j)
  | acquire size =>
    exact hplain (Run.secluded_lift (f := (·.acquire size)) fun _ _ _ _ hm => ⟨rfl, hm⟩)
  | typeName v | asString v | listItems v | stats | options | report | moduleStatus name =>
    exact hplain (Run.secluded_gets fun _ _ _ _ => rfl)

/-! ## Host programs -/

theorem pairs_interpret (hcall : ∀ h m m', R.rel m m' → Outcome.Pairs R.rel (call h m) (call h m'))
    (hgrows : Callback.Grows call) (fuel : Nat) (program : Host σ) (h : R.rel m m') :
    Outcome.Pairs R.rel (program.interpret call fuel m) (program.interpret call fuel m') := by
  induction program generalizing m m' with
  | finish v => exact .ok h
  | unwind => exact .unwound h
  | ask r next ih =>
    have hpairs := pairs_perform hcall hgrows fuel r h
    unfold Host.interpret
    revert hpairs
    generalize r.perform call fuel m = o
    generalize r.perform call fuel m' = o'
    intro hpairs
    cases hpairs with
    | ok h => exact ih _ h
    | @failed e => exact e.elim
    | unwound h => exact .unwound h
    | exhausted => exact .exhausted
  | read next ih =>
    have hhost : m'.host = m.host := by rw [R.same h]; rfl
    unfold Host.interpret
    rw [hhost]
    exact ih m.host h
  | write t next ih =>
    exact ih (R.rel_change (f := fun m => { m with host := t }) h rfl fun _ _ _ => rfl)
  | addLoader name loader next _ ih =>
    exact ih (R.rel_change (f := (·.addLoader name loader)) h rfl fun _ _ _ => rfl)
  | setFunction handle name arity body next _ ih =>
    have hset (s : Array Value) (fr : Array Frame) (t : String) :
        (m.withUnseen s fr t).setFunction handle name arity body =
          ((m.setFunction handle name arity body).1,
            (m.setFunction handle name arity body).2.withUnseen s fr t) ∧
        (m.setFunction handle name arity body).2.inEval = m.inEval := by
      unfold Machine.setFunction
      show (if m.modules.accepts handle then _ else _) = _ ∧ _
      split <;> exact ⟨rfl, rfl⟩
    have hresult : (m'.setFunction handle name arity body).1 =
        (m.setFunction handle name arity body).1 := by
      rw [R.same h, (hset _ _ _).1]
    have hrel :=
      R.rel_change (f := fun m => (m.setFunction handle name arity body).2) h (hset #[] #[] "").2
        fun s fr t => congrArg Prod.snd (hset s fr t).1
    show Outcome.Pairs R.rel ((next (m.setFunction handle name arity body).1).interpret call fuel _)
      ((next (m'.setFunction handle name arity body).1).interpret call fuel _)
    rw [hresult]
    exact ih _ hrel

/-- **Every host program ends in the same way on corresponding machines.** -/
theorem pairs_run (fuel : Nat) (program : Host σ) (h : R.rel m m') :
    Outcome.Pairs R.rel (Host.run fuel program m) (Host.run fuel program m') := by
  induction fuel generalizing program m m' with
  | zero => exact .exhausted
  | succ fuel ih =>
    exact pairs_interpret (fun program _ _ h => ih program h) (Host.grows_run fuel) fuel program h

end Unseen

/-! ## The stack and the calls -/

/-- A computation that, in the middle of an evaluation, neither looks at the stack and the calls nor
changes them, and does not end the evaluation. -/
def Run.Detached (x : Run σ ε α) : Prop :=
  ∀ s fr m, m.inEval = true →
    x (m.withCalls s fr) = (x m).onMachine (·.withCalls s fr) ∧ (x m).All (·.inEval = true)

namespace Host

/-- **No host program looks at the stack and the calls of an evaluation in progress, or changes
them.** -/
theorem detached_run (fuel : Nat) (h : Host σ) : (run fuel h).Detached := by
  intro s fr m hm
  have hrel : (Unseen.calls s fr).rel m (m.withCalls s fr) := ⟨hm, rfl⟩
  have hpairs := Unseen.pairs_run fuel h hrel
  generalize run fuel h m = o at hpairs ⊢
  generalize run fuel h (m.withCalls s fr) = o' at hpairs ⊢
  cases hpairs with
  | ok h | failed h | unwound h => exact ⟨congrArg _ h.2, h.1⟩
  | exhausted => exact ⟨rfl, trivial⟩

/-- A callback leaves the stack and the calls alone, and does not end the evaluation. -/
theorem calls_of_run {fuel : Nat} {h : Host σ} {v : Value} {m n : Machine σ} (hm : m.inEval = true)
    (hr : run fuel h m = .ok v n) : n.stack = m.stack ∧ n.frames = m.frames ∧ n.inEval = true := by
  obtain ⟨hcalls, hin⟩ := detached_run fuel h m.stack m.frames m hm
  rw [show m.withCalls m.stack m.frames = m from rfl, hr] at hcalls
  rw [hr] at hin
  obtain ⟨-, hn⟩ := Outcome.ok.inj hcalls
  exact ⟨by rw [hn]; rfl, by rw [hn]; rfl, hin⟩

theorem contained_run (fuel : Nat) : Contained (run fuel : Callback σ) := by
  refine ⟨fun h m s fr hm => (detached_run fuel h s fr m hm).1, fun h m hm => ?_, fun h m hs => ?_⟩
  · have heval := (detached_run fuel h m.stack m.frames m hm).2
    have hgrows := grows_run fuel h m
    cases hr : run fuel h m with
    | exhausted => trivial
    | ok v n | unwound n => rw [hr] at heval hgrows; exact ⟨heval, hgrows.options⟩
    | failed e n => exact e.elim
  · exact (grows_run fuel h m).mono fun _ hgrows => hgrows.heap.sourced hs

end Host

/-- Compiling a program does not end the evaluation it belongs to. -/
theorem inEval_of_bindProgram {depth : Nat} {source name : String} {program : Program}
    {m m' : Machine σ} {d : Core.Func} (hm : m.inEval = true)
    (h : bindProgram (Host.run depth) source name program m = .ok d m') : m'.inEval = true := by
  let R : Unseen σ := .calls m.stack m.frames
  have hrel : (Link.unseen R).rel () m m := ⟨hm, rfl⟩
  have hcalls : (Link.unseen R).Calls (Host.run depth) (Host.run depth) :=
    Unseen.calls_link (fun program _ _ h => Unseen.pairs_run depth program h) (Host.grows_run depth)
  have hends :=
    Link.ends_bindProgram source name program (fun name _ => hcalls name) hrel (Nat.zero_le _)
  rw [h] at hends
  cases hends with | ok _ h => exact h.1.1

theorem inEval_of_compileSource {depth : Nat} {source name : String} {m n : Machine σ}
    {chunk : Chunk} (hm : m.inEval = true)
    (h : compileSource (Host.run depth) source name m = .ok chunk n) : n.inEval = true := by
  have hrel : (Unseen.calls m.stack m.frames).rel m m := ⟨hm, rfl⟩
  have hpairs := Unseen.pairs_compileSource (fun program _ _ h => Unseen.pairs_run depth program h)
    (Host.grows_run depth) source name hrel
  rw [h] at hpairs
  cases hpairs with | ok h => exact h.1

end ScriptMachine
