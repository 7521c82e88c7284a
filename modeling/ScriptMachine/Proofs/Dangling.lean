import ScriptMachine.Proofs.Hosting
/-!
# No dangling references

Whatever a machine refers to is alive, and so is everything that this leads to. The host may do what
it likes, in native functions, in loaders and between evaluations, as long as the lists that it
makes hold live objects.

* `Machine.Occurs`: the machines that occur, before and after every instruction and callback;
* `Machine.Occurs.noDangling`: **no machine that occurs has a dangling reference**.
-/

namespace ScriptMachine

variable {σ : Type}

namespace Machine

/-! ## References -/

/-- An object value that is found in a machine, or that what is found there leads to. -/
inductive Refers (m : Machine σ) : ObjectId → Prop
  | global {slot : Nat} {v : Value} {id : ObjectId} (found : m.globals.get? slot = some v)
    (object : v.asObject? = some id) : Refers m id
  | installed {e : ModuleEntry (Loader σ)} {name : String} {v : Value} {id : ObjectId}
    (entry : e ∈ m.modules.entries) (found : (name, v) ∈ e.functions)
    (object : v.asObject? = some id) :
    Refers m id
  | stack {v : Value} {id : ObjectId} (found : v ∈ m.stack) (object : v.asObject? = some id) :
    Refers m id
  | code {f : Frame} {v : Value} {id : ObjectId} (frame : f ∈ m.frames)
    (found : v ∈ f.chunk.constants) (object : v.asObject? = some id) : Refers m id
  | pinned {id : ObjectId} (pins : 0 < m.heap.pins id) : Refers m id
  | item {id id' : ObjectId} {items : Array Value} {v : Value} (before : Refers m id)
    (list : m.heap.get? id = some (.list items)) (found : v ∈ items)
    (object : v.asObject? = some id') :
    Refers m id'
  | constant {id id' : ObjectId} {f : ScriptFunction} {v : Value} (before : Refers m id)
    (function : m.heap.get? id = some (.function f)) (found : v ∈ f.chunk.constants)
    (object : v.asObject? = some id') : Refers m id'

/-- Everything that a machine refers to is alive. -/
def NoDangling (m : Machine σ) : Prop := ∀ id, m.Refers id → m.heap.contains id = true

end Machine

/-! ## Hosts -/

/-- The objects that a request hands over are alive. A program is compiled in the middle of an
evaluation only. -/
def Request.Fair (m : Machine σ) : Request → Prop
  | .createList items => ∀ v ∈ items, ∀ id, v.asObject? = some id → m.heap.contains id = true
  | .compile _ _ => m.inEval = true
  | _ => True

namespace Machine

/-- What a host may bring about: any number of requests, each of them fair, and other uses of the
machine. Native functions and loaders that a request calls are up to the host as well; those that it
does not call may be taken not to come back. -/
inductive Acts : Machine σ → Machine σ → Prop
  | refl (m : Machine σ) : Acts m m
  | trans {m n n' : Machine σ} (first : Acts m n) (second : Acts n n') : Acts m n'
  | ask {m n : Machine σ} {call : Callback σ} {fuel : Nat} {r : Request} {reply : r.Reply}
    (fair : r.Fair m) (returns : ∀ h p v q, call h p = .ok v q → Acts p q)
    (unwinds : ∀ h p q, call h p = .unwound q → Acts p q)
    (performed : r.perform call fuel m = .ok reply n) : Acts m n
  | unwind {m n : Machine σ} {call : Callback σ} {fuel : Nat} {r : Request}
    (fair : r.Fair m) (returns : ∀ h p v q, call h p = .ok v q → Acts p q)
    (unwinds : ∀ h p q, call h p = .unwound q → Acts p q)
    (performed : r.perform call fuel m = .unwound n) : Acts m n
  | write (m : Machine σ) (host : σ) : Acts m { m with host }
  | addLoader (m : Machine σ) (name : String) (loader : Loader σ) : Acts m (m.addLoader name loader)
  | setFunction (m : Machine σ) (handle : ModuleHandle) (name : String) (arity : Nat)
    (body : Native σ) : Acts m (m.setFunction handle name arity body).2

end Machine

/-- Callbacks that are up to the host. -/
structure Callback.Hosted (call : Callback σ) : Prop where
  returns : ∀ h p v q, call h p = .ok v q → p.Acts q
  unwinds : ∀ h p q, call h p = .unwound q → p.Acts q

/-- Callbacks that do not come back. -/
theorem Callback.hosted_exhausted : Callback.Hosted (fun _ _ => .exhausted : Callback σ) :=
  ⟨(fun _ _ _ _ h => nomatch h), fun _ _ _ h => nomatch h⟩

theorem Callback.Hosted.acts {call : Callback σ} (h : call.Hosted) {m n : Machine σ} (fuel : Nat)
    (r : Request) {reply : r.Reply} (fair : r.Fair m)
    (performed : r.perform call fuel m = .ok reply n) : m.Acts n :=
  .ask fair h.returns h.unwinds performed

/-- A compilation runs a host program on a machine: its outcome depends on what the program does
there. -/
def CompilationRuns (call : Callback σ) (source name : String) (m : Machine σ) (h : Host σ)
    (n : Machine σ) : Prop :=
  ∃ call' : Callback σ, (∀ h' n', (h', n') ≠ (h, n) → call' h' n' = call h' n') ∧
    compileSource call' source name m ≠ compileSource call source name m

namespace Machine

/-- The machines that occur: between evaluations, before and after every instruction, when a native
function or a loader is called, and whatever host programs make of them. -/
inductive Occurs : Machine σ → Prop
  | new (options : Options) (host : σ) : Occurs (Machine.new options host)
  | acts {m n : Machine σ} (before : Occurs m) (acts : m.Acts n) : Occurs n
  /-- An evaluation begins. -/
  | opens {m : Machine σ} (before : Occurs m) : Occurs m.beginEval
  /-- A loader is called. -/
  | loads {m n : Machine σ} {call : Callback σ} {source name : String} {h : Host σ}
    (before : Occurs m) (evaluates : m.inEval = true) (hosted : call.Hosted)
    (loader : CompilationRuns call source name m h n) :
    Occurs n
  /-- The code of a program is about to run. -/
  | starts {m n : Machine σ} {call : Callback σ} {source name : String} {chunk : Chunk}
    (before : Occurs m) (evaluates : m.inEval = true) (hosted : call.Hosted)
    (compiled : compileSource call source name m = .ok chunk n) :
    Occurs (Core.start chunk n)
  /-- An instruction was executed. -/
  | steps {m : Machine σ} (before : Occurs m) (evaluates : m.inEval = true) (entry : Nat) :
    Occurs (m.step entry).machine
  /-- A native function is called. -/
  | calls {m : Machine σ} (before : Occurs m) : Occurs m.enterNative
  /-- A native function has returned, with whatever result. -/
  | resumes {m : Machine σ} (before : Occurs m) (evaluates : m.inEval = true) (name : String)
    (callee : Nat) (v : Value) :
    Occurs (Step.ofChecked (m.leaveNative.resume name callee v)).machine

end Machine

/-! ## Live objects -/

/-- Every object may be known, and every live one is. -/
def Policy.live : Policy σ where
  allows _ _ := True
  loader _ := True
  full := True
  mono _ h := h
  string _ _ := trivial
  list _ _ := trivial
  function _ := trivial
  of_full _ _ _ := trivial

variable {A : ObjectId → Prop} {m n : Machine σ} {call : Callback σ} {r : Request}

theorem Policy.Known.noDangling_of_covers (h : Policy.live.Known A m)
    (hcovers : Policy.live.Covers A m) : m.NoDangling := by
  intro id hid
  refine Heap.contains_iff.2 ?_
  suffices hA : A id by
    obtain ⟨o, ho, -⟩ := h.object id hA
    exact ⟨o, ho⟩
  induction hid with
  | global found object =>
    exact h.roots _ (mem_roots.2 (.inl (Globals.mem_values_of_get? found))) _ object
  | @installed e name v id entry found object =>
    refine h.roots v (mem_roots.2 (.inr (.inl ?_))) _ object
    exact List.mem_flatMap.2 ⟨e, Array.mem_toList_iff.2 entry,
      List.mem_map.2 ⟨(name, v), found, rfl⟩⟩
  | stack found object => exact h.roots _ (mem_roots.2 (.inr (.inr (.inl found)))) _ object
  | code frame found object =>
    exact h.roots _ (mem_roots.2 (.inr (.inr (.inr ⟨_, frame, found⟩)))) _ object
  | @pinned id pins =>
    cases ho : m.heap.get? id with
    | none => rw [Heap.pins_eq_zero_of_get?_eq_none ho] at pins; cases pins
    | some o => exact hcovers trivial id o ho
  | item _ holds found object ih | constant _ holds found object ih =>
    obtain ⟨o, ho, hrefs, -⟩ := h.object _ ih
    obtain rfl := Option.some.inj (ho.symm.trans holds)
    exact hrefs _ found _ object

/-- Whatever value a host program returns, it refers to a known object or to none that is alive. -/
theorem Policy.Leads.live {o : Outcome σ Empty Value}
    (h : Policy.live.Leads A m (fun _ _ _ => True) o) :
    Policy.live.Leads A m (fun A' v n => (n.object? v).isSome → Knows A' v) o := by
  cases o with
  | ok v n =>
    obtain ⟨A', honward, -⟩ := h
    refine ⟨A', honward, fun hfits hlive id hid => ?_⟩
    unfold Machine.object? at hlive
    rw [hid] at hlive
    obtain ⟨o, ho⟩ := Option.isSome_iff_exists.1 hlive
    exact (honward.holds hfits).2 trivial id o ho
  | failed e n | unwound n => exact h
  | exhausted => trivial

/-- One machine leads to another, and from live objects to live objects. -/
def Machine.Preserves (m n : Machine σ) : Prop :=
  m.Grows n ∧ ∀ A, Policy.live.Holds A m → ∃ A', Policy.live.Carries A m A' n

theorem Machine.Preserves.of_onward (hgrows : m.Grows n)
    (h : ∀ A, Policy.live.Holds A m → ∃ A', Policy.live.Onward A m A' n) : m.Preserves n :=
  ⟨hgrows, fun A hA => (h A hA).imp fun _ => Policy.Onward.carries⟩

theorem Policy.trusts_live (returns : ∀ h p v q, call h p = .ok v q → p.Preserves q)
    (unwinds : ∀ h p q, call h p = .unwound q → p.Preserves q) : Policy.live.Trusts call := by
  have hgrows : Callback.Grows call := by
    intro h p
    cases hr : call h p with
    | ok v q => exact (returns h p v q hr).1
    | unwound q => exact (unwinds h p q hr).1
    | failed e q => exact e.elim
    | exhausted => trivial
  have hanswers : ∀ {A p} h, Policy.live.Runs A p →
      Policy.live.Leads A p (fun _ _ _ => True) (call h p) := by
    intro A p h hp
    have hcall : Policy.live.Answers A p (fun _ _ => True) (call h p) := by
      cases hr : call h p with
      | ok v q => exact ((returns h p v q hr).2 A hp.holds).imp fun _ hq => ⟨hq, fun _ => trivial⟩
      | unwound q => exact (unwinds h p q hr).2 A hp.holds
      | failed e q => exact e.elim
      | exhausted => trivial
    exact hcall.leads (hgrows h p) hp
  exact ⟨hgrows, fun _ hm _ => (hanswers _ hm).live, fun _ _ hm => hanswers _ hm⟩

theorem Request.Fair.proper (h : r.Fair m) (hm : Policy.live.Holds A m)
    (hfits : m.heap.Fits) : r.Proper Policy.live A m := by
  cases r with
  | createList items =>
    intro _ v hv id hid
    obtain ⟨o, ho⟩ := Heap.contains_iff.1 (h v hv id hid)
    exact (hm hfits).2 trivial id o ho
  | compile source name => exact h
  | _ => trivial

namespace Machine

/-- A fair request leads from live objects to live objects. -/
theorem preserves_of_perform (h : Policy.live.Trusts call) (fair : r.Fair m) (fuel : Nat) :
    (r.perform call fuel m).All m.Preserves := by
  have hgrows := r.grows_perform h.grows fuel m
  have hperform : ∀ {A}, Policy.live.Holds A m → m.heap.Fits →
      Policy.live.Answers A m (fun _ _ => True) (r.perform call fuel m) := fun hm hfits =>
    (h.perform hm fuel r (fair.proper hm hfits)).mono fun _ _ _ => trivial
  have hpreserves : ∀ {n}, m.Grows n → (∀ {A}, Policy.live.Holds A m → m.heap.Fits →
      ∃ A', Policy.live.Carries A m A' n) → m.Preserves n := by
    intro n hn hcarries
    refine ⟨hn, fun A hm => ?_⟩
    by_cases hfits : m.heap.Fits
    · exact hcarries hm hfits
    · exact ⟨A, Policy.carries_of_not_fits hn hfits⟩
  cases hr : r.perform call fuel m with
  | exhausted => trivial
  | failed e n => exact e.elim
  | unwound n =>
    rw [hr] at hgrows hperform
    exact hpreserves hgrows hperform
  | ok a n =>
    rw [hr] at hgrows hperform
    exact hpreserves hgrows fun hm hfits => (hperform hm hfits).imp fun _ h => h.1

/-- Whatever a host brings about, it leads from live objects to live objects. -/
theorem Acts.preserves (h : m.Acts n) : m.Preserves n := by
  induction h with
  | refl m => exact .of_onward (.refl m) fun A hm => ⟨A, .refl hm⟩
  | trans _ _ ih ih' =>
    refine ⟨ih.1.trans ih'.1, fun A hm => ?_⟩
    obtain ⟨A', hcarries⟩ := ih.2 A hm
    obtain ⟨A'', hcarries'⟩ := ih'.2 A' hcarries.holds
    exact ⟨A'', hcarries.trans hcarries'⟩
  | @ask m n _ fuel _ _ fair _ _ performed ihr ihu
  | @unwind m n _ fuel _ fair _ _ performed ihr ihu =>
    have hperform := preserves_of_perform (Policy.trusts_live ihr ihu) fair fuel
    rwa [performed] at hperform
  | write m host =>
    exact .of_onward (.of_eq rfl rfl rfl) fun A hm => ⟨A, .of_eq hm rfl rfl rfl rfl rfl rfl rfl⟩
  | addLoader m name loader =>
    exact .of_onward (.of_eq rfl rfl rfl) fun A hm => ⟨A, Policy.onward_addLoader hm name trivial⟩
  | setFunction m handle name arity body =>
    exact .of_onward (m.grows_setFunction handle name arity body) fun A hm =>
      Policy.onward_setFunction hm handle name arity fun _ => trivial

end Machine

theorem Callback.Hosted.trusts (h : call.Hosted) : Policy.live.Trusts call :=
  Policy.trusts_live (fun g p v q hr => (h.returns g p v q hr).preserves)
    fun g p q hr => (h.unwinds g p q hr).preserves

/-! ## Machines that occur -/

theorem Machine.Occurs.holds (h : m.Occurs) : ∃ A, Policy.live.Holds A m := by
  induction h with
  | new options host => exact Policy.holds_new (fun _ _ _ => trivial) options host
  | acts _ acts ih =>
    obtain ⟨A, hA⟩ := ih
    obtain ⟨A', hcarries⟩ := acts.preserves.2 A hA
    exact ⟨A', hcarries.holds⟩
  | opens _ ih | calls _ ih =>
    obtain ⟨A, hA⟩ := ih
    exact ⟨A, hA.of_get? rfl rfl rfl rfl rfl id fun _ => rfl⟩
  | @loads m n call source name h _ evaluates hosted loader ih =>
    obtain ⟨A, hA⟩ := ih
    obtain ⟨call', hsame, hne⟩ := loader
    -- otherwise it would make no difference what the loader does
    refine Classical.byContradiction fun hnone => hne ?_
    refine hosted.trusts.compileSource_congr (hA.runs fun _ => evaluates) (fun h' n' A' hn' =>
      ?_) source name
    exact hsame h' n' fun heq => hnone ⟨A', (Prod.mk.inj heq).2 ▸ hn'.holds⟩
  | @starts m n call source name chunk _ evaluates hosted compiled ih =>
    obtain ⟨A, hA⟩ := ih
    have hruns := hA.runs fun _ => evaluates
    have hcompile := hosted.trusts.compileSource hruns source name
    rw [compiled] at hcompile
    obtain ⟨A', honward, hconstants⟩ := hcompile
    have hstart : Policy.live.Runs A' (Core.start chunk n) :=
      (honward.runs hruns).setCalls (fun _ hv => hv) fun f hf =>
        (Array.mem_push.1 hf).imp_right fun hf => by rw [hf]; exact hconstants
    exact ⟨A', hstart.holds⟩
  | steps _ evaluates entry ih =>
    obtain ⟨A, hA⟩ := ih
    exact ((hA.runs fun _ => evaluates).step entry).imp fun _ h => h.holds
  | @resumes m _ evaluates name callee v ih =>
    obtain ⟨A, hA⟩ := ih
    have hlive := Policy.Leads.live (o := .ok v m) ⟨A, .refl hA, fun _ => trivial⟩
    obtain ⟨A', honward, hv⟩ := hlive
    exact ((honward.holds.runs fun _ => evaluates).resume name callee hv).imp fun _ h => h.holds

/-- **No machine that occurs has a dangling reference**, as long as its heap does not outgrow
addresses. -/
theorem Machine.Occurs.noDangling (h : m.Occurs) (hfits : m.heap.Fits) : m.NoDangling := by
  obtain ⟨A, hA⟩ := h.holds
  exact (hA hfits).1.noDangling_of_covers (hA hfits).2

/-- A list that holds a string, both made by the host. -/
theorem Machine.Occurs.noDangling_createList :
    (((Machine.new {} () : Machine Unit).createString "a").2.createList
      [.ofObject ⟨5, 0⟩]).2.NoDangling := by
  have hstring : (Machine.new {} () : Machine Unit).Acts ((Machine.new {} ()).createString "a").2 :=
    Callback.hosted_exhausted.acts 0 (.createString "a") trivial rfl
  have hlist : ((Machine.new {} () : Machine Unit).createString "a").2.Acts
      (((Machine.new {} ()).createString "a").2.createList [.ofObject ⟨5, 0⟩]).2 := by
    refine Callback.hosted_exhausted.acts 0 (.createList [.ofObject ⟨5, 0⟩])
      (fun v hv id hid => ?_) rfl
    obtain rfl := List.mem_singleton.1 hv
    obtain rfl := Option.some.inj ((Value.asObject?_ofObject _).symm.trans hid)
    decide
  exact noDangling (.acts (.acts (.new {} ()) hstring) hlist) (by decide)

end ScriptMachine
