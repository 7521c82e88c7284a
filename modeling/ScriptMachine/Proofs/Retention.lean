import ScriptMachine.Proofs.Known
import ScriptMachine.Proofs.Lifecycle
import ScriptMachine.Proofs.Pins
/-!
# What lasts on the heap

Objects are freed by collections and by nothing else, and only the items of lists ever change. The
functions of a loaded module outlast all collections, since its table is not given up.

* `Path.retains_points`: **strings and functions last until the next collection, and the functions
  of loaded modules for ever**;
* `Draft.Later.quiet`: **compilations collect nothing inside of an evaluation**;
* `Path.hushed_of_abandoned`: nor does anything, once an evaluation was given up.
-/

namespace ScriptMachine

variable {σ : Type}

/-! ## Heaps -/

/-- Nothing changes objects but lists. -/
def Object.Fixed {ν : Type} (o : Object ν) : Prop := ∀ items, o ≠ .list items

theorem Object.Fixed.setItem {ν : Type} {o : Object ν} (h : o.Fixed) (i : Nat) (v : Value) :
    o.setItem i v = o := by
  cases o with
  | list items => exact absurd rfl (h items)
  | _ => rfl

namespace Heap

variable {ν : Type} {held held' : ObjectId → Prop} {h h' h'' : Heap ν}

/-- What becomes of objects from one heap to a later one, if those at certain addresses are held on
to. -/
structure Retains (held : ObjectId → Prop) (h h' : Heap ν) : Prop where
  size : h.slots.size ≤ h'.slots.size
  tidy : h.Tidy → h'.Tidy
  collections : h.collections ≤ h'.collections
  /-- An object stays if it is held on to, or if there was no collection. -/
  get? : h'.Fits → h.Tidy → ∀ {id : ObjectId} {o : Object ν}, h.get? id = some o → o.Fixed →
    held id ∨ h'.collections = h.collections → h'.get? id = some o

namespace Retains

theorem refl (h : Heap ν) : Retains held h h :=
  ⟨Nat.le_refl _, id, Nat.le_refl _, fun _ _ _ _ ho _ _ => ho⟩

theorem trans (hr : Retains held h h') (hr' : Retains held h' h'') : Retains held h h'' where
  size := Nat.le_trans hr.size hr'.size
  tidy ht := hr'.tidy (hr.tidy ht)
  collections := Nat.le_trans hr.collections hr'.collections
  get? := by
    intro hfits ht id o ho hfixed hor
    have hle := hr.collections
    have hle' := hr'.collections
    -- If the number of collections is the same at the end, then it was the same in between.
    have ho' : h'.get? id = some o :=
      hr.get? (hfits.of_le hr'.size) ht ho hfixed (hor.imp_right fun heq => by omega)
    exact hr'.get? hfits (hr.tidy ht) ho' hfixed (hor.imp_right fun heq => by omega)

theorem mono (hr : Retains held h h') (hle : ∀ id, held' id → held id) : Retains held' h h' :=
  ⟨hr.size, hr.tidy, hr.collections, fun hfits ht _ _ ho hfixed hor =>
    hr.get? hfits ht ho hfixed (hor.imp_left (hle _))⟩

end Retains

section

variable (h : Heap ν)

@[simp] theorem collections_alloc (o : Object ν) : (h.alloc o).2.collections = h.collections := by
  unfold alloc
  split <;> rfl

@[simp] theorem collections_pin (id : ObjectId) : (h.pin id).2.collections = h.collections := by
  unfold pin
  split <;> rfl

@[simp] theorem collections_unpin (id : ObjectId) : (h.unpin id).2.collections = h.collections := by
  unfold unpin
  split
  · rfl
  · split <;> rfl

theorem retains_alloc (o : Object ν) : Retains held h (h.alloc o).2 where
  size := h.size_le_alloc o
  tidy ht := ht.alloc o
  collections := Nat.le_of_eq (h.collections_alloc o).symm
  get? hfits ht _ _ ho _ _ := ht.get?_alloc_of_some hfits ho

variable (id : ObjectId)

theorem retains_setItem (i : Nat) (v : Value) :
    Retains held h (h.modify id fun o => o.setItem i v) where
  size := Nat.le_of_eq (h.size_modify id _).symm
  tidy ht := ht.modify id _
  collections := by
    unfold modify
    split <;> exact Nat.le_refl _
  get? := by
    intro _ _ id' o ho hfixed _
    rw [get?_modify]
    split
    · rename_i hid
      rw [← hid, ho, Option.map_some, hfixed.setItem]
    · exact ho

theorem retains_pin : Retains held h (h.pin id).2 where
  size := Nat.le_of_eq (h.size_pin id).symm
  tidy ht := ht.pin id
  collections := Nat.le_of_eq (h.collections_pin id).symm
  get? _ _ _ _ ho _ _ := (h.get?_pin id _).trans ho

theorem retains_unpin : Retains held h (h.unpin id).2 where
  size := Nat.le_of_eq (h.size_unpin id).symm
  tidy ht := ht.unpin id
  collections := Nat.le_of_eq (h.collections_unpin id).symm
  get? _ _ _ _ ho _ _ := (h.get?_unpin id _).trans ho

end

/-- A collection keeps what its roots refer to. -/
theorem retains_collect {roots : List Value}
    (hheld : ∀ id, held id → ∃ v ∈ roots, v.asObject? = some id) :
    Retains held h (h.collect roots).2 where
  size := Nat.le_of_eq (h.size_collect roots).symm
  tidy ht := ht.collect roots
  collections := Nat.le_succ _
  get? := by
    intro _ _ id o ho _ hor
    rcases hor with hid | heq
    · obtain ⟨v, hv, hvid⟩ := hheld id hid
      exact get?_collect_eq_some_iff.2 ⟨ho, kept_of_mem_roots hv hvid ho⟩
    · exact absurd heq (Nat.succ_ne_self h.collections)

end Heap

/-! ## Modules -/

namespace Registry

variable {l : Type} {r r' : Registry l} {name : String} {v : Value}

/-- A function is in the table of a module. -/
def Lists (r : Registry l) (name : String) (v : Value) : Prop :=
  ∃ e ∈ r.entries, (name, v) ∈ e.functions

/-- The table of a module refers to an address. -/
def Has (r : Registry l) (id : ObjectId) : Prop := ∃ name v, r.Lists name v ∧ v.asObject? = some id

/-- The table of a loaded module refers to an address. -/
def Seals (r : Registry l) (id : ObjectId) : Prop :=
  ∃ (i : Nat) (e : ModuleEntry l), r.entries[i]? = some e ∧ e.state = .loaded ∧
    ∃ f ∈ e.functions, f.2.asObject? = some id

theorem Lists.mem_values (h : r.Lists name v) : v ∈ r.values := by
  obtain ⟨e, he, hf⟩ := h
  exact List.mem_flatMap.2 ⟨e, Array.mem_toList_iff.2 he, List.mem_map_of_mem hf⟩

variable {id : ObjectId}

theorem Seals.has (h : r.Seals id) : r.Has id := by
  obtain ⟨i, e, he, -, f, hf, hid⟩ := h
  exact ⟨f.1, f.2, ⟨e, Array.mem_of_getElem? he, hf⟩, hid⟩

theorem Keeps.seals (h : r.Keeps r') (hid : r.Seals id) : r'.Seals id := by
  obtain ⟨i, e, he, hstate, hf⟩ := hid
  exact ⟨i, e, h.loaded he hstate, hstate, hf⟩

theorem of_function? {i : Nat} (h : r.function? i name = some v) :
    ∃ e, r.entries[i]? = some e ∧ (name, v) ∈ e.functions := by
  unfold function? at h
  split at h
  · rename_i e he
    obtain ⟨f, hf, rfl⟩ := Option.map_eq_some_iff.1 h
    have hname : f.1 = name := by simpa using List.find?_some hf
    subst hname
    exact ⟨e, he, List.mem_of_find?_eq_some hf⟩
  · cases h

theorem lists_of_function? {i : Nat} (h : r.function? i name = some v) : r.Lists name v := by
  obtain ⟨e, he, hf⟩ := of_function? h
  exact ⟨e, Array.mem_of_getElem? he, hf⟩

/-- The functions of a module that an import finds loaded are in the table of a loaded module. -/
theorem seals_of_ready {object : String} {i : Nat} (hready : r.lookup object = .ready i)
    (h : r.function? i name = some v) (hid : v.asObject? = some id) : r.Seals id := by
  obtain ⟨-, e, he, hstate⟩ := lookup_eq_ready_iff.1 hready
  obtain ⟨e', he', hf⟩ := of_function? h
  obtain rfl := Option.some.inj (he.symm.trans he')
  exact ⟨i, e, he, hstate, _, hf, hid⟩

/-! ### Changes of tables -/

section

variable {i : Nat} {f : ModuleEntry l → ModuleEntry l}
  (h : ({ entries := r.entries.modify i f } : Registry l).Lists name v)

include h

theorem lists_modify : r.Lists name v ∨ ∃ e ∈ r.entries, (name, v) ∈ (f e).functions := by
  obtain ⟨e, he, hv⟩ := h
  rcases mem_entries_modify he with he | ⟨e', he', rfl⟩
  · exact .inl ⟨e, he, hv⟩
  · exact .inr ⟨e', he', hv⟩

theorem lists_of_modify (hf : ∀ e, (f e).functions = e.functions) : r.Lists name v := by
  rcases lists_modify h with h | ⟨e, he, hv⟩
  · exact h
  · exact ⟨e, he, hf e ▸ hv⟩

end

theorem lists_of_addLoader {other : String} {body : l} (h : (r.addLoader other body).Lists name v) :
    r.Lists name v := by
  unfold addLoader at h
  split at h
  · obtain ⟨e, he, hv⟩ := h
    rcases Array.mem_push.1 he with he | rfl
    · exact ⟨e, he, hv⟩
    · cases hv
  · refine lists_of_modify h fun e => ?_
    split <;> rfl

/-- What is in a table after a function was installed is that function, or was there before. -/
theorem lists_of_install {handle : ModuleHandle} {other : String} {u : Value}
    (h : (r.install handle other u).Lists name v) : r.Lists name v ∨ name = other ∧ v = u := by
  rcases lists_modify h with h | ⟨e, he, hv⟩
  · exact .inl h
  · rcases List.mem_cons.1 hv with hv | hv
    · exact .inr (Prod.mk.inj hv)
    · exact .inl ⟨e, he, (List.mem_filter.1 hv).1⟩

end Registry

/-! ## Machines -/

namespace Machine

variable {m n k : Machine σ}

/-- The tables of modules are the same, and what they refer to is held on to. -/
structure Sustains (m n : Machine σ) : Prop where
  modules : n.modules = m.modules
  heap : m.heap.Retains m.modules.Has n.heap

namespace Sustains

theorem refl (m : Machine σ) : m.Sustains m := ⟨rfl, .refl _⟩

/-- Other parts of the machine may change. -/
theorem aside (h : m.Sustains n) (hmodules : k.modules = n.modules) (hheap : k.heap = n.heap) :
    m.Sustains k :=
  ⟨hmodules.trans h.modules, hheap ▸ h.heap⟩

theorem setHeap (h : m.Sustains n) {heap : Heap (Native σ)}
    (hheap : n.heap.Retains n.modules.Has heap) : m.Sustains { n with heap } :=
  ⟨h.modules, h.heap.trans (h.modules ▸ hheap)⟩

theorem collect (h : m.Sustains n) : m.Sustains n.collect.2 := by
  refine h.setHeap (Heap.retains_collect ?_)
  rintro id ⟨name, v, hv, hid⟩
  exact ⟨v, Policy.mem_roots.2 (.inr (.inl hv.mem_values)), hid⟩

end Sustains

variable (m : Machine σ)

/-- Instructions free objects at safe points only. -/
theorem upkeep_sustains : Upkeep m.Sustains where
  message _ h := h.aside rfl rfl
  stack _ h := h.aside rfl rfl
  push _ _ h := h.aside rfl rfl
  jump _ h := h.aside rfl rfl
  enter _ _ _ h := h.aside rfl rfl
  leave h := h.aside rfl rfl
  setGlobal _ _ _ _ h := h.aside rfl rfl
  setItem id i v h := h.setHeap (Heap.retains_setItem _ id i v)
  string s h := h.setHeap (Heap.retains_alloc _ (.string s))
  list items h := h.setHeap (Heap.retains_alloc _ (.list items))
  safePoint h := safePoint_of_collect h h.collect

theorem service_sustains : Service m.Sustains where
  aside h hstanding hheap := h.aside (congrArg (·.modules) hstanding) hheap
  string s h := h.setHeap (Heap.retains_alloc _ (.string s))
  list items h := h.setHeap (Heap.retains_alloc _ (.list items))
  pin id h := h.setHeap (Heap.retains_pin _ id)
  unpin id h := h.setHeap (Heap.retains_unpin _ id)
  collect _ h := h.collect

theorem sustains_conclude (result : Except Failure Value) : m.Sustains (m.conclude result) :=
  m.service_sustains.conclude (fun _ _ h => h.aside rfl rfl) (.refl m) result

end Machine

/-! ## Moves -/

variable {e : Event σ} {p q : Point σ}

/-- **What a move retains**: everything but lists unless there is a collection, and what the tables
of modules refer to. -/
theorem Moves.retains (h : Moves p e q) :
    p.machine.heap.Retains p.machine.modules.Has q.machine.heap := by
  cases h with
  | @reply _ m _ _ _ _ _ _ plain performed =>
    exact (m.service_sustains.plain (.refl m) plain performed).heap
  | @install _ m _ handle name arity body =>
    show m.heap.Retains m.modules.Has (m.setFunction handle name arity body).2.heap
    unfold Machine.setFunction
    split
    · exact m.heap.retains_alloc _
    · exact .refl _
  | @resume _ m _ _ _ _ resumes | @spoil _ m _ _ _ _ _ _ _ resumes =>
    exact (m.upkeep_sustains.of_resume resumes ⟨rfl, .refl _⟩).heap
  | makeString s | makeFunction f => exact Heap.retains_alloc _ _
  | start commits chunk =>
    subst commits
    exact .refl _
  | @step _ m _ calls _ steps | @call _ m _ calls _ _ _ _ steps | @finish _ m _ calls _ _ steps
  | @fail _ m _ calls _ _ steps => exact (m.upkeep_sustains.of_step steps (.refl m)).heap
  | @conclude _ m result => exact (m.sustains_conclude result).heap
  | _ => exact .refl _

theorem Machine.object?_eq_some_iff {m : Machine σ} {v : Value} {o : Object (Native σ)} :
    m.object? v = some o ↔ ∃ id, v.asObject? = some id ∧ m.heap.get? id = some o := by
  unfold object?
  cases v.asObject? <;> simp

/-- What is in the table of a module was there before the move, or the move has made it. -/
theorem Moves.lists_cases (h : Moves p e q) (ht : p.machine.heap.Tidy)
    (hfits : q.machine.heap.Fits) {name : String} {v : Value}
    (hv : q.machine.modules.Lists name v) :
    p.machine.modules.Lists name v ∨ ∃ f, f.name = name ∧
    q.machine.object? v = some (.native f) := by
  obtain ⟨hmodules, -⟩ | ⟨other, body, -, -, hmodules⟩ | ⟨handle, other, u, he, -, haccepts, -⟩ |
    ⟨other, index, handle, body, -, -, -, hmodules⟩ | ⟨other, index, body, -, -, hmodules⟩ |
    ⟨other, index, body, -, -, hmodules⟩ := h.modules_cases
  · rw [hmodules] at hv
    exact .inl hv
  · rw [hmodules] at hv
    exact .inl (Registry.lists_of_addLoader hv)
  · cases h with
    | @install ts m turn handle' name' arity body =>
      obtain ⟨rfl, rfl, -⟩ := Event.installed.inj he
      rw [Machine.setFunction_of_accepts haccepts] at hv hfits ⊢
      rcases Registry.lists_of_install hv with hv | ⟨rfl, rfl⟩
      · exact .inl hv
      · refine .inr ⟨⟨_, arity, body⟩, rfl, Machine.object?_eq_some_iff.2 ?_⟩
        exact ⟨_, Value.asObject?_ofObject _, ht.get?_alloc_self hfits⟩
    | _ => cases he
  · rw [hmodules] at hv
    exact .inl (Registry.lists_of_modify hv fun _ => rfl)
  · rw [hmodules] at hv
    exact .inl (Registry.lists_of_modify hv fun _ => rfl)
  · rw [hmodules] at hv
    exact .inl hv

/-- The functions in the tables of modules are native functions of these names. -/
def Machine.Stocked (m : Machine σ) : Prop :=
  ∀ name v, m.modules.Lists name v → ∃ f, f.name = name ∧ m.object? v = some (.native f)

theorem Moves.stocked (h : Moves p e q) (ht : p.machine.heap.Tidy)
    (hfits : q.machine.heap.Fits) (hp : p.machine.Stocked) : q.machine.Stocked := by
  intro name v hv
  rcases h.lists_cases ht hfits hv with hold | hnew
  · obtain ⟨f, hname, hf⟩ := hp name v hold
    obtain ⟨id, hid, hf⟩ := Machine.object?_eq_some_iff.1 hf
    have hstays := h.retains.get? hfits ht hf (by simp [Object.Fixed]) (.inl ⟨name, v, hold, hid⟩)
    exact ⟨f, hname, Machine.object?_eq_some_iff.2 ⟨id, hid, hstays⟩⟩
  · exact hnew

namespace Path

variable {options : Options} {host : σ} {q : Point σ} {hist : History σ}

/-- **What is found in the table of a module** is a native function of that name. -/
theorem stocked (h : Path (.new options host) hist q) (hfits : q.machine.heap.Fits) :
    q.machine.Stocked := by
  induction h with
  | start =>
    rintro name v ⟨e, he, -⟩
    cases Array.not_mem_empty e he
  | @move hist q r e before moves ih =>
    have hfits' := hfits.of_le moves.retains.size
    exact moves.stocked (before.tidy hfits') hfits (ih hfits')

/-- **What all moves retain**: everything but lists from one collection to the next, and the
functions of loaded modules for ever. -/
theorem retains_points (h : Path (.new options host) hist q) :
    (hist.points q).Pairwise fun next before =>
      before.machine.heap.Retains before.machine.modules.Seals next.machine.heap := by
  induction h with
  | start => exact List.pairwise_singleton _ _
  | @move hist q r e before moves ih =>
    refine List.pairwise_cons.2 ⟨fun x hx => ?_, ih⟩
    rcases List.mem_cons.1 hx with rfl | hx
    · exact moves.retains.mono fun _ hid => hid.has
    · -- A table that was sealed by then is still there.
      have hkeeps := (List.pairwise_cons.1 before.keeps_points).1 x hx
      refine ((List.pairwise_cons.1 ih).1 x hx).trans (moves.retains.mono fun id hid => ?_)
      exact (hkeeps.seals hid).has

end Path

/-- The same, along a course. -/
theorem Course.retains_of_suffix {options : Options} {host : σ} {hist hist' : History σ}
    (h : Course (.new options host) hist' q) (hsuffix : hist.points p <:+ hist'.points q) :
    p.machine.heap.Retains p.machine.modules.Seals q.machine.heap := by
  rcases List.mem_cons.1 (hsuffix.subset List.mem_cons_self) with rfl | hmem
  · exact .refl _
  · exact (List.pairwise_cons.1 h.path.retains_points).1 p hmem

/-! ## Inside of an evaluation -/

/-- A machine counts as evaluating, and so many collections have taken place. -/
structure Machine.Quiet (count : Nat) (m : Machine σ) : Prop where
  inEval : m.inEval = true
  collections : m.heap.collections = count

theorem Machine.service_quiet (count : Nat) : Service (Machine.Quiet (σ := σ) count) where
  aside h hstanding hheap := ⟨(congrArg (·.inEval) hstanding).trans h.inEval, hheap ▸ h.collections⟩
  string {m} _ h := ⟨h.inEval, (m.heap.collections_alloc _).trans h.collections⟩
  list {m} _ h := ⟨h.inEval, (m.heap.collections_alloc _).trans h.collections⟩
  pin {m} id h := ⟨h.inEval, (m.heap.collections_pin id).trans h.collections⟩
  unpin {m} id h := ⟨h.inEval, (m.heap.collections_unpin id).trans h.collections⟩
  collect hin h := absurd h.inEval (hin ▸ Bool.false_ne_true)

/-- The machine counts as evaluating, but no program runs: there are compilations and loaders
only. -/
structure Point.Hushed (count : Nat) (p : Point σ) : Prop where
  tasks : Quiet p.tasks
  machine : p.machine.Quiet count

/-- Nothing is collected then. Evaluations are turned down, and collections are left out. -/
theorem Moves.hushed {count : Nat} (h : Moves p e q) (hp : p.Hushed count) : q.Hushed count := by
  obtain ⟨htasks, hin, hcount⟩ := hp
  have hnone {t : Task σ} (hmem : t ∈ p.tasks)
      (ht : t ≠ .compilation ∧ ∀ name index body, t ≠ .loader name index body) : q.Hushed count :=
    absurd htasks (not_quiet hmem ht)
  cases h with
  | reply _ plain performed =>
    exact ⟨htasks, (Machine.service_quiet count).plain ⟨hin, hcount⟩ plain performed⟩
  | write | register | refuse | decode | unwind | escape => exact ⟨htasks, hin, hcount⟩
  | @install _ m _ handle name arity body =>
    refine ⟨htasks, ?_⟩
    unfold Machine.setFunction
    split
    · exact ⟨hin, (m.heap.collections_alloc _).trans hcount⟩
    · exact ⟨hin, hcount⟩
  | evaluate _ _ rests => cases hin.symm.trans rests
  | compile => exact ⟨htasks.cons (.inl rfl), hin, hcount⟩
  | load => exact ⟨htasks.cons (.inr ⟨_, _, _, rfl⟩), hin, hcount⟩
  | @makeString _ m s | @makeFunction _ m s =>
    exact ⟨htasks, hin, (m.heap.collections_alloc _).trans hcount⟩
  | sealed | compiled | rejected | abandon => exact ⟨htasks.tail, hin, hcount⟩
  | reject | start => exact hnone (List.mem_cons_of_mem _ List.mem_cons_self) (by simp)
  | resume | spoil | step | call | finish | fail | conclude | recover =>
    exact hnone List.mem_cons_self (by simp)

/-- **Compilations collect nothing inside of an evaluation**, whatever they load. -/
theorem Draft.Later.quiet {fuel count : Nat} {d k : Draft σ} (h : d.Later (Host.run fuel) k)
    (hd : d.machine.Quiet count) : k.machine.Quiet count := by
  let C : Conduct σ := .preserving (Point.Hushed count) Moves.hushed
  have hstart : Point.Hushed count ⟨[.compilation], false, d.machine⟩ :=
    ⟨Quiet.cons nofun (.inl rfl), hd⟩
  exact (Conduct.drafts (C := C) (C.run fuel) h [] hstart).machine

/-- **Nothing is ever freed again** once an evaluation was given up and nobody has put that right:
the machine counts as evaluating for good. -/
theorem Path.hushed_of_abandoned {options : Options} {host : σ} {hist : History σ}
    (h : Path (.new options host) hist q) (hp : (p, .abandoned (.evaluation false)) ∈ hist) :
    q.Hushed p.machine.heap.collections := by
  induction h with
  | start => cases hp
  | @move hist p' q e before moves ih =>
    rcases List.mem_cons.1 hp with heq | hp
    · -- Evaluations do not nest, so there is no other one.
      cases heq
      cases moves with
      | @abandon ts m task goes =>
        refine ⟨before.fair.ordered, ?_, rfl⟩
        cases hin : m.inEval with
        | true => rfl
        | false => exact absurd (before.fair.idle hin).1 (not_quiet List.mem_cons_self (by simp))
    · exact moves.hushed (ih hp)

end ScriptMachine
