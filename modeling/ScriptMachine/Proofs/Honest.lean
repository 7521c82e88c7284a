import ScriptMachine.Proofs.Hosting
/-!
# Honest functions

A native function is honest if the value that it gives back is no object, or one that it has made,
or one that its arguments lead to. Scripts then come across no functions but those that were
compiled for them.

* `Policy.honest`, `Policy.trusts_honest`: **honest programs lead from known objects to known
  objects**;
* `Machine.InSession`: machines that evaluate one source text after the other, with honest
  functions.
-/

namespace ScriptMachine

variable {σ : Type}

/-- A program for the middle of an evaluation that returns a value it knows, at first the values in
`K` and later what it learns from replies. The functions and loaders that it leaves with the machine
are honest as well. -/
inductive Host.Honest : (Value → Prop) → Host σ → Prop
  | finish {K : Value → Prop} {v : Value} (known : K v) : Honest K (.finish v)
  | unwind {K : Value → Prop} : Honest K .unwind
  | ask {K : Value → Prop} {r : Request} {next : r.Reply → Host σ}
    (rest : ∀ reply, Honest (fun v => K v ∨ r.Learns K reply v) (next reply)) :
    Honest K (.ask r next)
  | read {K : Value → Prop} {next : σ → Host σ} (rest : ∀ s, Honest K (next s)) :
    Honest K (.read next)
  | write {K : Value → Prop} (s : σ) {next : Host σ} (rest : Honest K next) :
    Honest K (.write s next)
  | addLoader {K : Value → Prop} (name : String) {loader : Loader σ} {next : Host σ}
    (honest : ∀ handle, Honest (fun v => v.asObject? = none) (loader handle))
    (rest : Honest K next) :
    Honest K (.addLoader name loader next)
  | setFunction {K : Value → Prop} (handle : ModuleHandle) (name : String) (arity : Nat)
    {body : Native σ} {next : Except Failure Unit → Host σ}
    (honest : ∀ args, Honest (fun v => v.asObject? = none ∨ v ∈ args) (body args))
    (rest : ∀ result, Honest K (next result)) : Honest K (.setFunction handle name arity body next)

/-- A function that returns no object, or one that it has made, or one that its arguments lead
to. -/
def Native.Honest (body : Native σ) : Prop :=
  ∀ args, Host.Honest (fun v => v.asObject? = none ∨ v ∈ args) (body args)

/-- A loader that leaves honest functions and loaders with the machine. -/
def Loader.Honest (loader : Loader σ) : Prop :=
  ∀ handle, Host.Honest (fun v => v.asObject? = none) (loader handle)

/-! ## Known objects -/

/-- Scripts come across functions that were compiled with their variables in place, and honest
ones. -/
def Policy.honest : Policy σ where
  allows b
    | .function f => ∃ d : Core.Func, d.Scoped b ∧ f = d.script
    | .native f => Native.Honest f.code
    | .string _ | .list _ => True
  loader l := Loader.Honest l
  full := False
  mono {b b' o} hle h := by
    cases o with
    | function f =>
      obtain ⟨d, hd, rfl⟩ := h
      exact ⟨d, hd.mono (fun _ _ h => h) hle, rfl⟩
    | native f => exact h
    | string text => trivial
    | list items => trivial
  string _ _ := trivial
  list _ _ := trivial
  function hd := ⟨_, hd, rfl⟩
  of_full h := h.elim

theorem Request.Learns.mono {K K' : Value → Prop} {r : Request} {reply : r.Reply} {v : Value}
    (h : r.Learns K reply v) (hK : ∀ v, K v → K' v) : r.Learns K' reply v := by
  cases r with
  | createList items => exact ⟨fun item hitem => hK item (h.1 item hitem), h.2⟩
  | listItems list => exact ⟨hK list h.1, h.2⟩
  | _ => exact h

namespace Policy

variable {P : Policy σ} {A A' : ObjectId → Prop} {m n : Machine σ} {call : Callback σ}

/-- One thing after the other. -/
theorem Onward.leads {ε α : Type} {post : (ObjectId → Prop) → α → Machine σ → Prop}
    {o : Outcome σ ε α} (h : P.Onward A m A' n) (ho : P.Leads A' n post o) :
    P.Leads A m post o := by
  cases o with
  | ok a n' =>
    obtain ⟨A'', h', ha⟩ := ho
    exact ⟨A'', h.trans h', ha⟩
  | failed e n' | unwound n' => exact ho.imp fun _ h' => h.trans h'
  | exhausted => trivial

theorem Leads.mono {ε α : Type} {post post' : (ObjectId → Prop) → α → Machine σ → Prop}
    {o : Outcome σ ε α} (h : P.Leads A m post o) (hpost : ∀ A' a n, post A' a n → post' A' a n) :
    P.Leads A m post' o := by
  cases o with
  | ok a n =>
    obtain ⟨A', honward, ha⟩ := h
    exact ⟨A', honward, fun hfits => hpost A' a n (ha hfits)⟩
  | failed e n | unwound n => exact h
  | exhausted => trivial

theorem proper_honest {r : Request}
    (h : ∀ source name, r = .compile source name → m.inEval = true) :
    r.Proper Policy.honest A m := by
  cases r with
  | createList items => exact fun hfull => hfull.elim
  | compile source name => exact h source name rfl
  | _ => trivial

/-- Honest programs lead from known objects to known objects, and return known values. -/
theorem leads_of_honest (htrusts : Policy.honest.Trusts call) (fuel : Nat) {K : Value → Prop}
    {h : Host σ} (hh : h.Honest K) (hm : Policy.honest.Runs A m)
    (hK : m.heap.Fits → ∀ v, K v → Knows A v) :
    Policy.honest.Leads A m (fun A' v _ => Knows A' v) (h.interpret call fuel m) := by
  induction hh generalizing A m with
  | finish known => exact ⟨A, .refl hm.holds, fun hfits => hK hfits _ known⟩
  | unwind => exact ⟨A, .refl hm.holds⟩
  | @ask K r next rest ih =>
    by_cases hfits : m.heap.Fits
    · have hproper : r.Proper Policy.honest A m := proper_honest fun _ _ _ => (hm hfits).1
      have hleads :=
        (htrusts.perform hm.holds fuel r hproper).leads (r.grows_perform htrusts.grows fuel m) hm
      unfold Host.interpret
      split <;> rename_i hr <;> rw [hr] at hleads
      · rename_i reply n
        obtain ⟨A', honward, hlearns⟩ := hleads
        refine honward.leads (ih reply (honward.runs hm) fun hn v hv => ?_)
        rcases hv with hv | hv
        · exact (hK hfits v hv).mono (honward.keeps hn).1
        · exact hlearns hn v (hv.mono (hK hfits))
      · exact hleads
      · trivial
    · exact leads_of_not_fits (Host.grows_interpret htrusts.grows fuel _ m) hfits
  | read rest ih => exact ih _ hm hK
  | write s rest ih =>
    have honward : Policy.honest.Onward A m A { m with host := s } :=
      .of_eq hm.holds rfl rfl rfl rfl rfl rfl rfl
    exact honward.leads (ih (honward.runs hm) hK)
  | addLoader name honest rest _ ih =>
    have honward := onward_addLoader hm.holds name (show Policy.honest.loader _ from honest)
    exact honward.leads (ih (honward.runs hm) hK)
  | @setFunction K handle name arity body next honest rest _ ih =>
    obtain ⟨A', honward⟩ := onward_setFunction hm.holds handle name arity
      (show ∀ b, Policy.honest.allows b (.native ⟨name, arity, body⟩) from fun _ => honest)
    refine honward.leads (ih _ (honward.runs hm) fun hn v hv => ?_)
    exact (hK (hn.of_le honward.grows.heap.size) v hv).mono (honward.keeps hn).1

/-- So do honest functions, when their arguments are known. -/
theorem leads_of_code (htrusts : Policy.honest.Trusts call) (fuel : Nat) {c : Native σ}
    {args : List Value} (hcode : Policy.honest.code c) (hm : Policy.honest.Runs A m)
    (hargs : ∀ v ∈ args, Knows A v) :
    Policy.honest.Leads A m (fun A' v _ => Knows A' v) ((c args).interpret call fuel m) := by
  obtain ⟨b, f, hf, rfl⟩ := hcode
  have hhonest : Host.Honest _ (f.code args) := hf args
  exact leads_of_honest htrusts fuel hhonest hm fun _ v hv =>
    hv.elim knows_of_asObject?_eq_none (hargs v)

/-- **Honest functions and loaders lead from known objects to known objects.** -/
theorem trusts_honest (fuel : Nat) : Policy.honest.Trusts (Host.run fuel : Callback σ) := by
  induction fuel with
  | zero => exact ⟨Host.grows_run 0, fun _ _ _ => trivial, fun _ _ _ => trivial⟩
  | succ fuel ih =>
    refine ⟨Host.grows_run (fuel + 1), fun hcode hm hargs => ?_, fun handle hl hm => ?_⟩
    · exact (leads_of_code ih fuel hcode hm hargs).mono fun _ _ _ hv _ => hv
    · exact (leads_of_honest ih fuel (hl handle) hm fun _ _ => knows_of_asObject?_eq_none).mono
        fun _ _ _ _ => trivial

/-- What an honest function returns is known. -/
theorem returns_known {fuel entry callee : Nat} {f : NativeFunction (Native σ)} {args : List Value}
    {v : Value} {after : Machine σ} (hm : Policy.honest.Runs A m) (hfits : m.heap.Fits)
    (hasks : m.step entry = .native f args callee n)
    (hruns : Host.run fuel (f.code args) n.enterNative = .ok v after) :
    ∃ A', Policy.honest.Runs A' after ∧ (after.heap.Fits → Knows A' v) := by
  obtain ⟨A', hbefore, hcode, hargs⟩ := hm.asks hfits hasks
  cases fuel with
  | zero => cases hruns
  | succ fuel =>
    have hleads := leads_of_code (trusts_honest fuel) fuel hcode hbefore hargs
    rw [show Host.interpret _ _ _ _ = _ from hruns] at hleads
    obtain ⟨A'', honward, hv⟩ := hleads
    exact ⟨A'', honward.runs hbefore, hv⟩

end Policy

/-! ## The core library -/

open Host in
/-- The functions of the core library are honest. -/
theorem Library.honest_core {e : LibraryEntry σ} (he : e ∈ (Library.core : Library σ).entries) :
    Native.Honest e.body := by
  intro args
  have hargument : (argument args).asObject? = none ∨ argument args ∈ args := by
    cases args with
    | nil => exact .inl rfl
    | cons v args => exact .inr List.mem_cons_self
  have hnumber (x : Double) : (Value.ofDouble x).asObject? = none := Value.asObject?_ofDouble x
  simp only [core, List.mem_cons, List.not_mem_nil, or_false] at he
  rcases he with rfl | rfl | rfl | rfl | rfl
  · exact .ask fun _ => .ask fun _ => .finish (.inl (.inl (.inl Value.asObject?_none)))
  · exact .ask fun _ => .ask fun _ => .finish (.inr rfl)
  · refine .ask fun text => ?_
    cases text with
    | some s => exact .finish (.inl (.inl (hnumber _)))
    | none =>
      refine .ask fun items => ?_
      cases items with
      | some items => exact .finish (.inl (.inl (.inl (hnumber _))))
      | none => exact .ask fun _ => .ask fun _ => .finish (.inr rfl)
  · exact .ask fun _ => .ask fun _ => .finish (.inr rfl)
  · refine .ask fun text => ?_
    cases text with
    | some s => exact .finish (.inl hargument)
    | none => exact .ask fun _ => .ask fun _ => .finish (.inr rfl)

/-! ## Sessions -/

namespace Policy

variable {P : Policy σ} {A : ObjectId → Prop} {m n : Machine σ} {call : Callback σ}

/-- What is made for a program that is not run is not known. -/
theorem Holds.alloc_aside (h : P.Holds A m) (hfull : ¬ P.full) (o : Object (Native σ)) :
    P.Holds A (m.alloc o).2 := fun hfits =>
  ⟨known_alloc_aside (h (hfits.of_le (m.heap.size_le_alloc o))).1 o hfits, fun h => absurd h hfull⟩

theorem Holds.commit (h : P.Holds A m) (b : Build) : P.Holds A (Compile.commit b m) := by
  refine h.of_roots rfl (m.grows_commit b).size_globals (fun v hv => .inl ?_) id
  rwa [roots_commit] at hv

theorem Holds.setModules {r : Registry (Loader σ)} (h : P.Holds A m)
    (hvalues : ∀ v ∈ r.values, v ∈ m.modules.values) (hloaders : P.Admits m.modules → P.Admits r) :
    P.Holds A { m with modules := r } := fun hfits =>
  ⟨(h hfits).1.setModules (fun v hv => .inl (hvalues v hv)) (hloaders (h hfits).1.loaders),
    (h hfits).2⟩

/-- Allowed loaders lead from known objects to known objects, also when no evaluation is in
progress. -/
def Loads (P : Policy σ) (call : Callback σ) : Prop :=
  ∀ A m l handle, P.loader l → P.Holds A m → (call (l handle) m).All fun n => ∃ A', P.Holds A' n

/-- So do compilations, whether or not the program will run. -/
theorem Loads.compileSource (hloads : P.Loads call) (hgrows : Callback.Grows call)
    (hfull : ¬ P.full) (hm : P.Holds A m) (source name : String) :
    (compileSource call source name m).All fun n => ∃ A', P.Holds A' n := by
  let holds (n : Machine σ) : Prop := ∃ A', P.Holds A' n
  let R : Link σ := .self holds holds holds (fun _ _ h => h.imp fun _ h => h.alloc_aside hfull _)
    (fun _ _ _ _ h => h.imp fun _ h => h.alloc_aside hfull _) fun _ b h => h.imp
      fun _ h => h.commit b
  have hcalls : R.Calls call call := by
    refine fun name => Link.loads_self fun {n index handle l} ⟨A', hn⟩ hlookup => ?_
    have hbegin : P.Holds A' (n.beginLoad index) :=
      hn.setModules (fun _ => Registry.mem_values_beginLoad) fun h => h.beginLoad index
    have hgrown := hgrows (l handle) (n.beginLoad index)
    have hload : (call (l handle) (n.beginLoad index)).All holds := by
      by_cases hfits : n.heap.Fits
      · obtain ⟨e, he, hstate⟩ := Registry.mem_entries_of_lookup hlookup
        exact hloads A' _ l handle ((hn hfits).1.loaders e he l hstate) hbegin
      · exact Outcome.All.mono hgrown fun n' hn' =>
          ⟨A', fun hf => absurd (hf.of_le hn'.heap.size) hfits⟩
    cases hr : call (l handle) (n.beginLoad index) with
    | ok v n' =>
      rw [hr] at hload hgrown
      obtain ⟨A₁, hA₁⟩ := hload
      exact ⟨⟨A₁, hA₁.setModules (fun _ => Registry.mem_values_finishLoad)
        fun h => h.finishLoad index⟩, hgrown.names⟩
    | failed e n' => exact e.elim
    | unwound n' => rw [hr] at hload; exact hload
    | exhausted => trivial
  exact Outcome.leaves_iff_all.1 <|
    (Link.leaves_compileSource (fun name _ => hcalls name) ⟨A, hm⟩ name).mono (fun _ _ h => h.1)
      (fun _ _ h => h) fun _ h => h

theorem Answers.holds {ε α : Type} {post : (ObjectId → Prop) → α → Prop} {o : Outcome σ ε α}
    (h : P.Answers A m post o) : o.All fun n => ∃ A', P.Holds A' n := by
  cases o with
  | ok a n => exact h.imp fun _ h => h.1.holds
  | failed e n | unwound n => exact h.imp fun _ h => h.holds
  | exhausted => trivial

/-- Every request leads from known objects to known objects, whether or not an evaluation is in
progress. -/
theorem holds_perform (htrusts : Policy.honest.Trusts call) (hloads : Policy.honest.Loads call)
    (fuel : Nat) (r : Request) (hm : Policy.honest.Holds A m) :
    (r.perform call fuel m).All fun n => ∃ A', Policy.honest.Holds A' n := by
  by_cases hr : ∃ source name, r = .compile source name
  · obtain ⟨source, name, rfl⟩ := hr
    have hcompile := hloads.compileSource htrusts.grows (fun hfull => hfull) hm source name
    show Outcome.All _ (Run.attempt (compileSource call source name) m)
    unfold Run.attempt
    split <;> rename_i hc <;> rw [hc] at hcompile <;> exact hcompile
  · have hproper : r.Proper Policy.honest A m :=
      proper_honest fun source name h => absurd ⟨source, name, h⟩ hr
    exact (htrusts.perform hm fuel r hproper).holds

/-- Honest programs lead from known objects to known objects, also when no evaluation is in
progress. -/
theorem holds_of_honest (htrusts : Policy.honest.Trusts call) (hloads : Policy.honest.Loads call)
    (fuel : Nat) {K : Value → Prop} {h : Host σ} (hh : h.Honest K) (hm : Policy.honest.Holds A m) :
    (h.interpret call fuel m).All fun n => ∃ A', Policy.honest.Holds A' n := by
  induction hh generalizing A m with
  | finish known | unwind => exact ⟨A, hm⟩
  | @ask K r next rest ih =>
    have hperform := holds_perform htrusts hloads fuel r hm
    unfold Host.interpret
    split <;> rename_i hr <;> rw [hr] at hperform
    · obtain ⟨A', hn⟩ := hperform
      exact ih _ hn
    · exact hperform
    · trivial
  | read rest ih => exact ih _ hm
  | write s rest ih => exact ih (hm.of_get? rfl rfl rfl rfl rfl id fun _ => rfl)
  | addLoader name honest rest _ ih =>
    exact ih (onward_addLoader hm name (show Policy.honest.loader _ from honest)).holds
  | @setFunction K handle name arity body next honest rest _ ih =>
    obtain ⟨A', honward⟩ := onward_setFunction hm handle name arity
      (show ∀ b, Policy.honest.allows b (.native ⟨name, arity, body⟩) from fun _ => honest)
    exact ih _ honward.holds

theorem loads_honest (fuel : Nat) : Policy.honest.Loads (Host.run fuel : Callback σ) := by
  induction fuel with
  | zero => exact fun _ _ _ _ _ _ => trivial
  | succ fuel ih =>
    exact fun _ _ _ handle hl hm => holds_of_honest (trusts_honest fuel) ih fuel (hl handle) hm

end Policy

namespace Machine

/-- Machines on which a host evaluates one source text after the other. The host may do what it
likes, but the functions and loaders that it leaves with the machine are honest. -/
inductive InSession : Machine σ → Prop
  | new (options : Options) (host : σ) : InSession (.new options host)
  | ran {m n : Machine σ} {fuel : Nat} {h : Host σ} {v : Value} (before : InSession m)
    (honest : h.Honest fun _ => True) (runs : h.run fuel m = .ok v n) : InSession n
  | unwound {m n : Machine σ} {fuel : Nat} {h : Host σ} (before : InSession m)
    (honest : h.Honest fun _ => True) (runs : h.run fuel m = .unwound n) : InSession n
  -- A compilation has come to a loader; the loaders before it have run.
  | loads {m n : Machine σ} {call : Callback σ} {fuel : Nat} {source name : String}
    (before : InSession m) (runs : ∀ h k, call h k = h.run fuel k ∨ call h k = .unwound k)
    (stops : compileSource call source name m = .unwound n) : InSession n

theorem InSession.holds {m : Machine σ} (h : m.InSession) : ∃ A, Policy.honest.Holds A m := by
  have hrun {m : Machine σ} {A : ObjectId → Prop} (fuel : Nat) {h : Host σ}
      (hh : h.Honest fun _ => True) (hm : Policy.honest.Holds A m) :
          (h.run fuel m).All fun n => ∃ A', Policy.honest.Holds A' n := by
    cases fuel with
    | zero => trivial
    | succ fuel =>
      exact Policy.holds_of_honest (Policy.trusts_honest fuel) (Policy.loads_honest fuel) fuel hh hm
  induction h with
  | new options host => exact Policy.holds_new (fun e he _ => Library.honest_core he) options host
  | @ran m n fuel h v _ honest runs ih | @unwound m n fuel h _ honest runs ih =>
    obtain ⟨A, hm⟩ := ih
    have hn := hrun fuel honest hm
    rwa [runs] at hn
  | @loads m n call fuel source name _ runs stops ih =>
    obtain ⟨A, hm⟩ := ih
    have hloads : Policy.honest.Loads call := fun A k l handle hl hk => by
      rcases runs (l handle) k with heq | heq <;> rw [heq]
      · exact Policy.loads_honest fuel A k l handle hl hk
      · exact ⟨A, hk⟩
    have hn :=
      hloads.compileSource (Callback.grows_of_runs runs) (fun hfull => hfull) hm source name
    rwa [stops] at hn

end Machine

end ScriptMachine
