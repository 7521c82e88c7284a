import ScriptMachine.Proofs.Builtins
/-!
# The environment of programs

A new machine has the functions of the core library as its first objects, and its variables refer to
them, in order. Whatever happens in runs of host programs with loaders that neither compile nor
evaluate, a later machine has the same built-in functions, and the variables of an earlier one.

* `Machine.Next`, `Machine.Later`: what may happen in such runs, and the machines that this leads
  to;
* `Machine.Later.environment`: **the environment that later programs find**.
-/

namespace ScriptMachine

variable {σ : Type}

/-! ## New machines -/

namespace Globals

/-- A built-in variable of a new name comes behind the others. -/
theorem slots_defineBuiltin {g : Globals} {name : String} (h : name ∉ g.names.map Prod.fst)
    (v : Value) : (g.defineBuiltin name v).slots =
      g.slots.push { name, value := some v, builtin := true } := by
  have hnew : g.slot? name = none := by
    rw [← Option.not_isSome_iff_eq_none, slot?_isSome_iff]
    exact h
  have hslot : (g.add name hnew).slot? name = some g.slots.size := by simp [slot?, add]
  unfold defineBuiltin
  simp only [declare_of_none hnew, hslot]
  unfold modify add
  refine Array.ext_getElem? fun i => ?_
  rw [Array.getElem?_modify, Array.getElem?_push, Array.getElem?_push]
  by_cases hi : i = g.slots.size
  · simp [hi]
  · simp [hi, Ne.symm hi]

end Globals

namespace Machine

/-- A machine with the functions of a library and nothing else, in the order of the library. -/
structure Opened (m : Machine σ) (entries : List (LibraryEntry σ)) : Prop where
  objects : m.heap.slots =
    (entries.map fun e =>
      { object := some (.native { name := e.name, arity := e.arity, code := e.body }) }).toArray
  free : m.heap.freeList = []
  globals : m.globals.slots = (entries.mapIdx fun i e =>
    { name := e.name, value := some (.ofObject ⟨UInt32.ofNat i, 0⟩), builtin := true }).toArray

/-- The variables have the names of the functions. -/
theorem Opened.names {m : Machine σ} {entries : List (LibraryEntry σ)} (h : m.Opened entries) :
    m.globals.names.map Prod.fst = entries.map (·.name) := by
  rw [Globals.names, h.globals]
  refine List.ext_getElem? fun i => ?_
  simp [Function.comp_def]

theorem Opened.snoc {m : Machine σ} {entries : List (LibraryEntry σ)} (h : m.Opened entries)
    {e : LibraryEntry σ} (he : e.name ∉ entries.map (·.name)) : Opened
      { (m.alloc (.native { name := e.name, arity := e.arity, code := e.body })).2 with
        globals := m.globals.defineBuiltin e.name
          (m.alloc (.native { name := e.name, arity := e.arity, code := e.body })).1 }
              (entries ++ [e]) := by
  have hfresh : e.name ∉ m.globals.names.map Prod.fst := by rwa [h.names]
  have hsize : m.heap.slots.size = entries.length := by simp [h.objects]
  refine ⟨?_, ?_, ?_⟩
  · simp [Machine.alloc, Heap.alloc, h.free, h.objects]
  · simp [Machine.alloc, Heap.alloc, h.free]
  · rw [Globals.slots_defineBuiltin hfresh]
    simp [Machine.alloc, Heap.alloc, h.free, h.globals, hsize, List.mapIdx_append]

theorem Opened.openBuiltins {m : Machine σ} (h : m.Opened []) (l : Library σ)
    (hl : (l.entries.map (·.name)).Nodup) : (m.openBuiltins l).Opened l.entries := by
  -- With the functions that are in place already; their names are not those of the others.
  have hfoldl (done rest : List (LibraryEntry σ)) (m : Machine σ) (h : m.Opened done)
      (hnodup : ((done ++ rest).map (·.name)).Nodup) :
        Opened (m.openBuiltins { l with entries := rest }) (done ++ rest) := by
    induction rest generalizing done m with
    | nil => rwa [List.append_nil]
    | cons e rest ih =>
      rw [← List.singleton_append, ← List.append_assoc] at hnodup ⊢
      have hnew : e.name ∉ done.map (·.name) := by
        rw [List.map_append, List.map_append] at hnodup
        have hdisjoint := (List.nodup_append.1 (List.nodup_append.1 hnodup).1).2.2
        exact fun hmem => hdisjoint _ hmem _ List.mem_cons_self rfl
      exact ih (done ++ [e]) _ (h.snoc hnew) hnodup
  exact hfoldl [] l.entries m h hl

theorem nodup_core : ((Library.core : Library σ).entries.map (·.name)).Nodup := by
  show ["print", "panic", "len", "typeof", "string"].Nodup
  decide

theorem opened_new (options : Options) (host : σ) :
    (Machine.new options host).Opened Library.core.entries :=
  Opened.openBuiltins ⟨rfl, rfl, rfl⟩ Library.core nodup_core

section Opened

variable {m : Machine σ} {entries : List (LibraryEntry σ)} (h : m.Opened entries)

include h

/-- The variables of a library that is opened. -/
theorem Opened.slots_eq (i : Nat) : m.globals.slots[i]? = entries[i]?.map fun e =>
    { name := e.name, value := some (.ofObject ⟨UInt32.ofNat i, 0⟩), builtin := true } := by
  simp [h.globals]

theorem Opened.size_eq : m.globals.size = entries.length := by
  simp [Globals.size, h.globals]

/-- Its objects. -/
theorem Opened.get?_eq_some_iff {id : ObjectId} {o : Object (Native σ)} : m.heap.get? id = some o ↔
    id.generation = 0 ∧ ∃ e, entries[id.index.toNat]? = some e ∧
      o = .native { name := e.name, arity := e.arity, code := e.body } := by
  rw [Heap.get?_eq_some_iff, h.objects]
  simp only [List.getElem?_toArray, List.getElem?_map, Option.map_eq_some_iff]
  constructor
  · rintro ⟨s, ⟨e, he, rfl⟩, hgeneration, ho⟩
    exact ⟨hgeneration.symm, e, he, (Option.some.inj ho).symm⟩
  · rintro ⟨hgeneration, e, he, rfl⟩
    exact ⟨_, ⟨e, he, rfl⟩, hgeneration.symm, rfl⟩

theorem Opened.tidy : m.heap.Tidy where
  free := by simp [h.free]
  nodup := by simp [h.free]
  unmarked i s hs := by
    rw [h.objects, List.getElem?_toArray, List.getElem?_map] at hs
    obtain ⟨e, -, rfl⟩ := Option.map_eq_some_iff.1 hs
    rfl

theorem Opened.founded : m.Founded where
  builtin slot hslot := by
    rw [h.size_eq] at hslot
    simp [Globals.isBuiltin, h.slots_eq, hslot]
  native id o ho := by
    obtain ⟨-, e, -, rfl⟩ := h.get?_eq_some_iff.1 ho
    exact ⟨_, rfl⟩
  held id o ho := by
    obtain ⟨hgeneration, e, he, -⟩ := h.get?_eq_some_iff.1 ho
    refine ⟨id.index.toNat, .ofObject id, ?_, ?_, Value.asObject?_ofObject id⟩
    · rw [h.size_eq]
      exact (List.getElem?_eq_some_iff.1 he).1
    · obtain ⟨index, generation⟩ := id
      cases hgeneration
      simp [Globals.get?, h.slots_eq, he]

end Opened

end Machine

/-- The functions of the core library are tame. -/
theorem Library.tame_core : ∀ e ∈ (Library.core : Library σ).entries, ∀ args,
    (e.body args).Tame := by
  intro e he args
  simp only [core, List.mem_cons, List.not_mem_nil, or_false] at he
  rcases he with rfl | rfl | rfl | rfl | rfl
  · exact .ask _ fun _ => .ask _ fun _ => .finish _
  · exact .ask _ fun _ => .ask _ fun _ => .finish _
  · refine .ask _ fun s => ?_
    cases s with
    | some s => exact .finish _
    | none =>
      refine .ask _ fun items => ?_
      cases items with
      | some items => exact .finish _
      | none => exact .ask _ fun _ => .ask _ fun _ => .finish _
  · exact .ask _ fun _ => .ask _ fun _ => .finish _
  · refine .ask _ fun s => ?_
    cases s with
    | some s => exact .finish _
    | none => exact .ask _ fun _ => .ask _ fun _ => .finish _

namespace Machine

/-- A new machine keeps itself. -/
theorem upholds_new (options : Options) (host : σ) :
    (Machine.new options host).Upholds (Machine.new options host) where
  nodup := by
    rw [(opened_new options host).names]
    exact nodup_core
  apart name _ := rfl
  builtins slot _ := rfl
  natives _ := ⟨(opened_new options host).tidy, fun _ _ ho => ho⟩
  objects id o ho := by
    obtain ⟨-, e, he, rfl⟩ := (opened_new options host).get?_eq_some_iff.1 ho
    refine ⟨by simp, fun f hf => ?_⟩
    cases hf
    exact Library.tame_core e (List.mem_of_getElem? he)
  frames f hf := absurd hf (Array.not_mem_empty f)
  loaders e he := absurd he (Array.not_mem_empty e)

/-! ## Later machines -/

/-- What may happen to a machine in runs of tame host programs: a whole run, or what goes on inside
of one. -/
inductive Next (m : Machine σ) : Machine σ → Prop
  | ran {n : Machine σ} {h : Host σ} {fuel : Nat} {v : Value} (tame : h.Tame)
    (runs : h.run fuel m = .ok v n) : Next m n
  | unwound {n : Machine σ} {h : Host σ} {fuel : Nat} (tame : h.Tame)
    (runs : h.run fuel m = .unwound n) : Next m n
  -- An evaluation begins, and its program is compiled; on the way to a loader, the loaders before
  -- it run.
  | evaluate : Next m m.beginEval
  | load {n : Machine σ} {call : Callback σ} {fuel : Nat} {source name : String}
    (runs : ∀ h k, call h k = h.run fuel k ∨ call h k = .unwound k)
    (stops : compileSource call source name m = .unwound n) : Next m n
  | start {n : Machine σ} {fuel : Nat} {source name : String} {chunk : Chunk}
    (compiles : compileSource (Host.run fuel) source name m = .ok chunk n) :
    Next m (Core.start chunk n)
  -- The program runs.
  | step (entry : Nat) : Next m (m.step entry).machine
  | call : Next m m.enterNative
  | resume (name : String) (callee : Nat) (v : Value) :
    Next m (Step.ofChecked (m.leaveNative.resume name callee v)).machine

/-- The way from one machine to a later one. -/
def Later : Machine σ → Machine σ → Prop := Relation.ReflTransGen Next

variable {m₀ m n : Machine σ}

theorem Next.upholds (hnext : m.Next n) (hm₀ : m₀.Founded) (h : m₀.Upholds m) : m₀.Upholds n := by
  cases hnext with
  | @ran _ p fuel v tame runs | @unwound _ p fuel tame runs =>
    have hrun := (Host.upholds_run hm₀ fuel).upholds tame h
    rwa [runs] at hrun
  | evaluate | call => exact h.aside rfl rfl rfl rfl rfl
  | @load _ call fuel source name runs stops =>
    -- A loader that is not run leaves everything as it is.
    have hrun := Host.upholds_run hm₀ fuel
    have hcall : call.Upholds m₀ := by
      refine ⟨fun {p k} htame hk => ?_, fun {p k} habstains => ?_⟩
      · rcases runs p k with heq | heq <;> rw [heq]
        · exact hrun.upholds htame hk
        · exact hk
      · rcases runs p k with heq | heq <;> rw [heq]
        · exact hrun.sameNames habstains
        · exact ⟨rfl, rfl⟩
    have hcompile := upholds_compileSource hcall hm₀ h source name
    rwa [stops] at hcompile
  | @start k fuel source name chunk compiles =>
    have hcompile := upholds_compileSource (Host.upholds_run hm₀ fuel) hm₀ h source name
    rw [compiles] at hcompile
    exact hcompile.2.start hcompile.1
  | step entry => exact (upkeep_upholds hm₀).step h entry
  | resume name callee v =>
    have hback : m₀.Upholds m.leaveNative := h.aside rfl rfl rfl rfl rfl
    exact (upkeep_upholds hm₀).resume hback name callee v

theorem Next.grows (hnext : m.Next n) : m.Grows n := by
  cases hnext with
  | @ran _ p fuel v tame runs | @unwound _ p fuel tame runs =>
    have hrun := Host.grows_run fuel p m
    rwa [runs] at hrun
  | evaluate | call => exact .of_eq rfl rfl rfl
  | @load _ call fuel source name runs stops =>
    have hcompile := grows_compileSource (Callback.grows_of_runs runs) source name m
    rwa [stops] at hcompile
  | @start k fuel source name chunk compiles =>
    have hcompile := grows_compileSource (Host.grows_run fuel) source name m
    rw [compiles] at hcompile
    exact hcompile.trans (.of_eq rfl rfl rfl)
  | step entry => exact m.grows_step entry
  | resume name callee v =>
    have hback : m.Grows m.leaveNative := .of_eq rfl rfl rfl
    exact hback.trans (grows_resume _ name callee v)

theorem Later.upholds (hlater : m.Later n) (hm₀ : m₀.Founded) (h : m₀.Upholds m) :
    m₀.Upholds n := by
  induction hlater with
  | refl => exact h
  | tail _ hnext ih => exact hnext.upholds hm₀ ih

theorem Later.grows (hlater : m.Later n) : m.Grows n := by
  induction hlater with
  | refl => exact .refl m
  | tail _ hnext ih => exact ih.trans hnext.grows

/-- The machines that the instructions of a program pass through, with the native functions that it
calls. -/
theorem Later.of_steps {depth entry count : Nat} (hm₀ : m₀.Founded) (h : m₀.Upholds m)
    (hsteps : Steps (Host.run depth) entry count m n) : m.Later n := by
  induction hsteps with
  | refl m => exact .refl
  | @cons count m k n head tail ih =>
    have hstep : m.Later (m.step entry).machine := .single (.step entry)
    have hhead : m.Later k := by
      cases head with
      | next steps => rwa [steps] at hstep
      | @native f args callee v before after _ asks runs resumes =>
        rw [asks] at hstep
        -- The function is one of the objects, and these are tame.
        obtain ⟨id, hid⟩ := get?_of_step_native asks
        have hrun := Next.ran ((h.objects id _ hid).native f rfl args) runs
        have hresume := Next.resume (m := after) f.name callee v
        rw [resumes] at hresume
        exact ((hstep.tail .call).tail hrun).tail hresume
    exact hhead.trans (ih (hhead.upholds hm₀ h))

/-! ## The environment -/

/-- Names and slots belong to each other one to one. -/
theorem Upholds.slot?_eq_some_iff (h : m₀.Upholds m) {name : String} {slot : Nat} :
    m.globals.slot? name = some slot ↔ (m.globals.slots[slot]?).map (·.name) = some name := by
  have hnames : (m.globals.slots[slot]?).map (·.name) = (m.globals.names.map Prod.fst)[slot]? := by
    simp [Globals.names, Function.comp_def]
  rw [hnames, Globals.slot?_eq_idxOf?, List.idxOf?_eq_some_iff, List.getElem?_eq_some_iff]
  constructor
  · rintro ⟨hlt, hname, -⟩
    exact ⟨hlt, hname⟩
  · rintro ⟨hlt, hname⟩
    refine ⟨hlt, hname, fun j hj hother => Nat.ne_of_lt hj ?_⟩
    exact h.nodup.getElem_inj_iff.1 (hother.trans hname.symm)

/-- What programs find on a machine, and what of it was there on an earlier one. -/
structure Environment (m n : Machine σ) : Prop where
  /-- The index leads from a name to a slot exactly if this slot has the name. -/
  slot_iff : ∀ name slot,
    n.globals.byName.lookup name = some slot ↔ (n.globals.slots[slot]?).map (·.name) = some name
  /-- A name keeps its slot. -/
  keeps : ∀ name slot, m.globals.slot? name = some slot → n.globals.slot? name = some slot
  /-- A name is a variable or a module, but not both. -/
  apart : ∀ name, ¬ ((n.globals.slot? name).isSome = true ∧ (n.imports.lookup name).isSome = true)
  /-- The built-in variables hold the functions of the core library. -/
  builtins : ∀ (i : Nat) (e : LibraryEntry σ), Library.core.entries[i]? = some e →
    n.globals.slots[i]? =
      some { name := e.name, value := some (.ofObject ⟨UInt32.ofNat i, 0⟩), builtin := true }
  natives : n.heap.Fits → ∀ (i : Nat) (e : LibraryEntry σ), Library.core.entries[i]? = some e →
    n.heap.get? ⟨UInt32.ofNat i, 0⟩ =
      some (.native { name := e.name, arity := e.arity, code := e.body })
  /-- What each instruction of a program finds that is evaluated next comes later, so all of this
  holds there, too. -/
  instructions : ∀ {depth count : Nat} {source name : String} {chunk : Chunk} {p q : Machine σ},
    compileSource (Host.run depth) source name n.beginEval = .ok chunk p →
    Steps (Host.run depth) p.frames.size count (Core.start chunk p) q → n.Later q

/-- **The environment that later programs find.** The index by name and the slots are inverse to
each other, a name keeps its slot, no name is both a variable and a module, and the built-in
variables keep their functions: at every moment of all runs of host programs with loaders that
neither compile nor evaluate, however the evaluations end. -/
theorem Later.environment {options : Options} {host : σ} (hm : (Machine.new options host).Later m)
    (hn : m.Later n) : Environment m n := by
  have hopened := opened_new options host
  have hupholds : (Machine.new options host).Upholds n :=
    Later.upholds (hm.trans hn) hopened.founded (upholds_new options host)
  refine ⟨fun name slot => hupholds.slot?_eq_some_iff,
    fun name slot => Globals.slot?_of_prefix hn.grows.names,
    fun name ⟨hglobal, himport⟩ => ?_, fun i e he => ?_, fun hfits i e he => ?_,
    fun {depth count source name chunk p q} hcompile hsteps => ?_⟩
  · rw [hupholds.apart name hglobal] at himport
    cases himport
  · have hslot : i < (Machine.new options host).globals.size := by
      rw [hopened.size_eq]
      exact (List.getElem?_eq_some_iff.1 he).1
    rw [hupholds.builtins i hslot, hopened.slots_eq, he, Option.map_some]
  · have hlt : i < 5 := (List.getElem?_eq_some_iff.1 he).1
    have hindex : (UInt32.ofNat i).toNat = i :=
      UInt32.toNat_ofNat_of_lt' (Nat.lt_trans hlt (by decide))
    exact (hupholds.natives hfits).2 _ _
      (hopened.get?_eq_some_iff.2 ⟨rfl, e, by rw [hindex, he], rfl⟩)
  · have hopen : n.Later n.beginEval := .single .evaluate
    have hstart : n.Later (Core.start chunk p) := hopen.tail (.start hcompile)
    exact hstart.trans
      (Later.of_steps hopened.founded (hstart.upholds hopened.founded hupholds) hsteps)

/-- A program imports a module and calls a function that assigns to a parameter in place of a
built-in variable. -/
theorem Later.environment_shadowed : ∃ n : Machine Unit, (Machine.new {} ()).Later (.new {} ()) ∧
    (Machine.new {} ()).Later n ∧ Environment (.new {} ()) n ∧ n.globals.slot? "print" = some 0 ∧
    n.globals.slot? "g" = some 5 ∧ n.globals.slot? "y" = some 6 ∧
    n.imports.lookup "m" = some 0 := by
  let loader : Loader Unit :=
    fun handle => .setFunction handle "f" 0 (fun _ => .finish .none) fun _ => .finish .none
  let program : Host Unit := .addLoader "m" loader
    (.ask (.eval "import m\nfunc g(print):\n    print = m.f()\n    return print\ny = g(len)\n")
      fun _ => .finish .none)
  have hloader (handle : ModuleHandle) : (loader handle).Tame :=
    .setFunction handle "f" 0 (fun _ => .finish _) fun _ => .finish _
  have hprogram : program.Tame :=
    .addLoader "m" (fun handle => .setFunction handle "f" 0 _ fun _ => .finish _) hloader (.ask _
      fun _ => .finish _)
  obtain ⟨v, n, hruns, hfacts⟩ := Outcome.exists_of_value? (o := program.run 20 (.new {} ()))
    (fun _ n => n.globals.slot? "print" = some 0 ∧ n.globals.slot? "g" = some 5 ∧
      n.globals.slot? "y" = some 6 ∧ n.imports.lookup "m" = some 0) (by decide +kernel)
  have hn : (Machine.new {} ()).Later n := .single (.ran hprogram hruns)
  exact ⟨n, .refl, hn, Later.environment .refl hn, hfacts⟩

end Machine

end ScriptMachine
