import ScriptMachine.Proofs.Custody
/-!
# Known objects and the requests of hosts

What a host program asks for leads from known objects to known objects. In the middle of an
evaluation nothing is freed; outside of one, what nothing leads to may be.

* `Policy.Carries`: what a host program may bring about;
* `Policy.Trusts.perform`: **every request leads from known objects to known objects**.
-/

namespace ScriptMachine

variable {σ : Type}

theorem Machine.object?_of_listItems? {m : Machine σ} {v : Value} {items : Array Value}
    (h : m.listItems? v = some items) : m.object? v = some (.list items) := by
  unfold Machine.listItems? at h
  split at h
  · rename_i hobject
    exact Option.some.inj h ▸ hobject
  · cases h

variable {name : String}

namespace Globals

theorem size_le_defineBuiltin (g : Globals) (name : String) (v : Value) :
    g.size ≤ (g.defineBuiltin name v).size := by
  have hdeclare := (names_declare g name).length_le
  rw [length_names, length_names] at hdeclare
  unfold defineBuiltin
  dsimp only
  split
  · simpa [size, modify] using hdeclare
  · exact hdeclare

theorem mem_values_defineBuiltin {g : Globals} {u v : Value}
    (h : u ∈ (g.defineBuiltin name v).values) : u = v ∨ u ∈ g.values := by
  unfold defineBuiltin at h
  rw [← values_declare g name]
  dsimp only at h
  split at h
  · exact mem_values_modify (fun _ => rfl) h
  · exact .inr h

end Globals

namespace Registry

variable {l : Type} {r : Registry l}

theorem mem_values_install {handle : ModuleHandle} {u v : Value}
    (h : v ∈ (r.install handle name u).values) : v ∈ r.values ∨ v = u := by
  rcases mem_values_modify h with hv | ⟨e, he, hv⟩
  · exact .inl hv
  · rcases List.mem_cons.1 hv with rfl | hv
    · exact .inr rfl
    · obtain ⟨p, hp, rfl⟩ := List.mem_map.1 hv
      exact .inl (List.mem_flatMap.2 ⟨e, Array.mem_toList_iff.2 he,
        List.mem_map.2 ⟨p, (List.mem_filter.1 hp).1, rfl⟩⟩)

theorem mem_values_addLoader {loader : l} {v : Value} (h : v ∈ (r.addLoader name loader).values) :
    v ∈ r.values := by
  unfold addLoader at h
  split at h
  · simpa [values] using h
  · rcases mem_values_modify h with hv | ⟨e, he, hv⟩
    · exact hv
    · refine List.mem_flatMap.2 ⟨e, Array.mem_toList_iff.2 he, ?_⟩
      split at hv <;> exact hv

end Registry

namespace Policy

variable {P : Policy σ} {A A' A'' : ObjectId → Prop} {m n n' : Machine σ} {call : Callback σ}

theorem Admits.install {r : Registry (Loader σ)} (h : P.Admits r) (handle : ModuleHandle)
    (name : String) (v : Value) : P.Admits (r.install handle name v) :=
  h.modify fun _ _ hl => .inl hl

theorem Admits.addLoader {r : Registry (Loader σ)} (h : P.Admits r) (name : String) {l : Loader σ}
    (hl : P.loader l) : P.Admits (r.addLoader name l) := by
  unfold Registry.addLoader
  split
  · intro e he l' hl'
    rcases Array.mem_push.1 he with he | rfl
    · exact h e he l' hl'
    · cases hl'
      exact hl
  · refine h.modify fun e l' hl' => ?_
    split at hl'
    · cases hl'
      exact .inr hl
    · exact .inl hl'

/-- A host program leads from known objects to known objects. In the middle of an evaluation, it
neither frees nor changes any. -/
structure Carries (P : Policy σ) (A : ObjectId → Prop) (m : Machine σ) (A' : ObjectId → Prop)
    (n : Machine σ) : Prop where
  grows : m.Grows n
  holds : P.Holds A' n
  onward : m.inEval = true → P.Onward A m A' n

theorem Onward.carries (h : P.Onward A m A' n) : P.Carries A m A' n :=
  ⟨h.grows, h.holds, fun _ => h⟩

theorem Carries.trans (h : P.Carries A m A' n) (h' : P.Carries A' n A'' n') :
    P.Carries A m A'' n' where
  grows := h.grows.trans h'.grows
  holds := h'.holds
  onward hm := by
    by_cases hfits : n.heap.Fits
    · have honward := h.onward hm
      exact honward.trans (h'.onward ((honward.inEval hfits).trans hm))
    · have hleft : ¬ n'.heap.Fits := fun hf => hfits (hf.of_le h'.grows.heap.size)
      exact ⟨h.grows.trans h'.grows, h'.holds, fun hf => absurd hf hleft, fun hf => absurd hf hleft⟩

/-- Changes of pins, or of parts that have nothing to do with objects. -/
theorem Onward.of_get? (h : P.Holds A m) (hgrows : m.Grows n) (hglobals : n.globals = m.globals)
    (hmodules : n.modules = m.modules) (hstack : n.stack = m.stack) (hframes : n.frames = m.frames)
    (hsize : n.heap.slots.size = m.heap.slots.size) (htidy : m.heap.Tidy → n.heap.Tidy)
    (hget : ∀ id, n.heap.get? id = m.heap.get? id) (hin : n.inEval = m.inEval) : P.Onward A m A n :=
  ⟨hgrows, h.of_get? hglobals hmodules hstack hframes hsize htidy hget, fun _ => hin,
    fun _ => ⟨fun _ h => h, fun id o ho => by rw [hget]; exact ho⟩⟩

/-- Changes of parts that have nothing to do with objects. -/
theorem Onward.of_eq (h : P.Holds A m) (hoptions : n.options = m.options) (hheap : n.heap = m.heap)
    (hglobals : n.globals = m.globals) (hmodules : n.modules = m.modules)
    (hstack : n.stack = m.stack)
    (hframes : n.frames = m.frames) (hin : n.inEval = m.inEval) : P.Onward A m A n :=
  .of_get? h (.of_eq hoptions hglobals hheap) hglobals hmodules hstack hframes (by rw [hheap])
    (fun ht => hheap ▸ ht) (fun id => by rw [hheap]) hin

/-! ## New objects -/

section

variable (h : P.Holds A m)

include h

variable {o : Object (Native σ)}

theorem onward_alloc (hfun : ∀ f, o ≠ .function f)
    (hrefs : m.heap.Fits → ∀ v ∈ o.references, Knows A v) (hallows : P.allows m.globals.size o) :
    P.Onward A m (fun id => A id ∨ id = (m.heap.alloc o).1) (m.alloc o).2 := by
  have hgrows : m.Grows (m.alloc o).2 := m.grows_alloc fun f hf => absurd hf (hfun f)
  refine ⟨hgrows, fun hfits => ?_, fun _ => rfl, fun hfits => ⟨fun _ => .inl, ?_⟩⟩
  · exact holds_alloc h (hrefs (hfits.of_le hgrows.heap.size)) hallows hfits
  · exact (h (hfits.of_le hgrows.heap.size)).1.tidy.keeps_alloc hfits

/-- An object that is left out of account. -/
theorem onward_alloc_aside (hfun : ∀ f, o ≠ .function f) (hfull : ¬ P.full) :
    P.Onward A m A (m.alloc o).2 := by
  have hgrows : m.Grows (m.alloc o).2 := m.grows_alloc fun f hf => absurd hf (hfun f)
  refine ⟨hgrows, fun hfits => ?_, fun _ => rfl, fun hfits => ⟨fun _ h => h, ?_⟩⟩
  · exact ⟨known_alloc_aside (h (hfits.of_le hgrows.heap.size)).1 o hfits,
      fun hf => absurd hf hfull⟩
  · exact (h (hfits.of_le hgrows.heap.size)).1.tidy.keeps_alloc hfits

theorem onward_pin (id : ObjectId) : P.Onward A m A { m with heap := (m.heap.pin id).2 } :=
  .of_get? h (.of_heap rfl rfl (m.heap.grows_pin id)) rfl rfl rfl rfl (Heap.size_pin m.heap id)
    (fun ht => ht.pin id) (Heap.get?_pin m.heap id) rfl

theorem onward_pinForHost (v : Value) : P.Onward A m A (m.pinForHost v) := by
  unfold Machine.pinForHost
  split
  · exact .refl h
  · split
    · exact onward_pin h _
    · exact .refl h

theorem onward_adopt (hfun : ∀ f, o ≠ .function f)
    (hrefs : m.heap.Fits → ∀ v ∈ o.references, Knows A v) (hallows : P.allows m.globals.size o) :
    ∃ A', P.Onward A m A' (m.adopt o).2 ∧ Knows A' (m.adopt o).1 := by
  have halloc := onward_alloc h hfun hrefs hallows
  exact ⟨_, halloc.trans (onward_pinForHost halloc.holds _), knows_ofObject (.inr rfl)⟩

theorem onward_adopt_aside (hfun : ∀ f, o ≠ .function f) (hfull : ¬ P.full) :
    P.Onward A m A (m.adopt o).2 := by
  have halloc := onward_alloc_aside h hfun hfull
  exact halloc.trans (onward_pinForHost halloc.holds _)

end

mutual

theorem onward_buildJson (depth : Nat) :
    (j : Json) → {A : ObjectId → Prop} → {m : Machine σ} → P.Holds A m →
    ∃ A', P.Onward A m A' (Machine.buildJson depth j m).2 ∧
      ((Machine.buildJson depth j m).2.heap.Fits →
      ∀ v, (Machine.buildJson depth j m).1 = .ok v → Knows A' v)
  | .null, A, m, h => by
    simp only [Machine.buildJson]
    exact ⟨A, .refl h,
      fun _ v hv => Except.ok.inj hv ▸ knows_of_asObject?_eq_none Value.asObject?_none⟩
  | .bool b, A, m, h => by
    simp only [Machine.buildJson]
    exact ⟨A, .refl h,
      fun _ v hv => Except.ok.inj hv ▸ knows_of_asObject?_eq_none (Value.asObject?_ofBool b)⟩
  | .int _, A, m, h | .float _, A, m, h => by
    simp only [Machine.buildJson]
    exact ⟨A, .refl h,
      fun _ v hv => Except.ok.inj hv ▸ knows_of_asObject?_eq_none (Value.asObject?_ofDouble _)⟩
  | .object _, A, m, h => by
    simp only [Machine.buildJson]
    exact ⟨A, .refl h, fun _ v hv => nomatch hv⟩
  | .string s, A, m, h => by
    simp only [Machine.buildJson]
    exact ⟨_, onward_alloc h (fun _ hf => nomatch hf)
      (fun _ _ hv => absurd hv (Array.not_mem_empty _)) (P.string _ s),
        fun _ v hv => Except.ok.inj hv ▸ knows_ofObject (.inr rfl)⟩
  | .array items, A, m, h => by
    obtain ⟨A', honward, hknown⟩ := onward_buildItems (depth + 1) items h
    unfold Machine.buildJson
    split
    · exact ⟨A, .refl h, fun _ v hv => nomatch hv⟩
    · split <;> rename_i hr <;> rw [hr] at honward hknown
      · exact ⟨A', honward, fun _ v hv => nomatch hv⟩
      · rename_i vs n
        exact ⟨_, honward.trans (onward_alloc honward.holds (fun _ hf => nomatch hf)
          (fun hfits v hv => hknown hfits vs rfl v (List.mem_toArray.1 hv)) (P.list _ _)),
          fun _ v hv => Except.ok.inj hv ▸ knows_ofObject (.inr rfl)⟩

theorem onward_buildItems (depth : Nat) :
    (items : List Json) → {A : ObjectId → Prop} → {m : Machine σ} →
    P.Holds A m → ∃ A', P.Onward A m A' (Machine.buildItems depth items m).2 ∧
      ((Machine.buildItems depth items m).2.heap.Fits →
        ∀ vs, (Machine.buildItems depth items m).1 = .ok vs → ∀ v ∈ vs, Knows A' v)
  | [], A, m, h => ⟨A, .refl h, fun _ vs hvs v hv => by
    rw [← Except.ok.inj hvs] at hv
    cases hv⟩
  | item :: items, A, m, h => by
    obtain ⟨A', honward, hknown⟩ := onward_buildJson depth item h
    unfold Machine.buildItems
    split <;> rename_i hr <;> rw [hr] at honward hknown
    · exact ⟨A', honward, fun _ vs hvs => nomatch hvs⟩
    · rename_i v n
      obtain ⟨A'', honward', hknown'⟩ := onward_buildItems depth items honward.holds
      split <;> rename_i hr' <;> rw [hr'] at honward' hknown'
      · exact ⟨A'', honward.trans honward', fun _ vs hvs => nomatch hvs⟩
      · rename_i vs n'
        refine ⟨A'', honward.trans honward', fun hfits us hus u hu => ?_⟩
        rw [← Except.ok.inj hus] at hu
        rcases List.mem_cons.1 hu with rfl | hu
        · exact (hknown (hfits.of_le honward'.grows.heap.size) u rfl).mono (honward'.keeps hfits).1
        · exact hknown' hfits vs rfl u hu

end

theorem onward_ofJson (h : P.Holds A m) (j : Json) :
    ∃ A', P.Onward A m A' (m.ofJson j).2 ∧
      ((m.ofJson j).2.heap.Fits → ∀ v, (m.ofJson j).1 = .ok v → Knows A' v) := by
  obtain ⟨A', honward, hknown⟩ := onward_buildJson 0 j h
  unfold Machine.ofJson
  split <;> rename_i hr <;> rw [hr] at honward hknown
  · exact ⟨A', honward, fun _ v hv => nomatch hv⟩
  · rename_i v n
    have hpin := onward_pinForHost honward.holds v
    exact ⟨A', honward.trans hpin, fun hfits u hu => hknown (hfits.of_le hpin.grows.heap.size) u hu⟩

theorem onward_retain (h : P.Holds A m) (v : Value) : P.Onward A m A (m.retain v).2 := by
  unfold Machine.retain
  split
  · exact .refl h
  · rename_i id _
    have hpin := onward_pin h id
    split <;> rename_i hr <;> rw [hr] at hpin <;> exact hpin

/-- Installing a function in a module. -/
theorem onward_setFunction (h : P.Holds A m) (handle : ModuleHandle) (name : String) (arity : Nat)
    {body : Native σ} (hbody : ∀ b, P.allows b (.native ⟨name, arity, body⟩)) :
    ∃ A', P.Onward A m A' (m.setFunction handle name arity body).2 := by
  unfold Machine.setFunction
  split
  · have halloc := onward_alloc h (o := .native ⟨name, arity, body⟩) (fun _ hf => nomatch hf)
      (fun _ _ hv => absurd hv (Array.not_mem_empty _)) (hbody _)
    refine ⟨_, halloc.grows.trans (.of_eq rfl rfl rfl), fun hfits => ?_, halloc.inEval,
      halloc.keeps⟩
    obtain ⟨hknown, hcovers⟩ := halloc.holds hfits
    refine ⟨hknown.setModules (fun v hv => ?_) (hknown.loaders.install handle name _), hcovers⟩
    rcases Registry.mem_values_install hv with hv | rfl
    · exact .inl hv
    · exact .inr (knows_ofObject (.inr rfl))
  · exact ⟨A, .refl h⟩

/-- Registering a loader. -/
theorem onward_addLoader (h : P.Holds A m) (name : String) {l : Loader σ} (hl : P.loader l) :
    P.Onward A m A (m.addLoader name l) := by
  refine ⟨.of_eq rfl rfl rfl, fun hfits => ?_, fun _ => rfl, fun _ => ⟨fun _ h => h, .refl _⟩⟩
  obtain ⟨hknown, hcovers⟩ := h hfits
  exact ⟨hknown.setModules (fun v hv => .inl (Registry.mem_values_addLoader hv))
    (hknown.loaders.addLoader name hl), hcovers⟩

/-! ## Collections and evaluations -/

theorem carries_collectGarbage (h : P.Holds A m) : ∃ A', P.Carries A m A' m.collectGarbage.2 := by
  cases hin : m.inEval with
  | true =>
    have hsame : m.collectGarbage.2 = m := by
      unfold Machine.collectGarbage
      rw [if_pos hin]
    exact ⟨A, hsame.symm ▸ (Onward.refl h).carries⟩
  | false =>
    obtain ⟨A', hn⟩ := h.collectGarbage
    exact ⟨A', m.grows_collectGarbage, hn, fun h => by rw [hin] at h; cases h⟩

theorem carries_release (h : P.Holds A m) (v : Value) : ∃ A', P.Carries A m A' (m.release v).2 := by
  unfold Machine.release
  split
  · exact ⟨A, (Onward.refl h).carries⟩
  · rename_i id _
    have hunpin : P.Onward A m A { m with heap := (m.heap.unpin id).2 } :=
      .of_get? h (.of_heap rfl rfl (m.heap.grows_unpin id)) rfl rfl rfl rfl
        (Heap.size_unpin m.heap id) (fun ht => ht.unpin id) (Heap.get?_unpin m.heap id) rfl
    split <;> rename_i hr <;> rw [hr] at hunpin
    · refine ⟨A, (hunpin.trans ?_).carries⟩
      exact .of_eq hunpin.holds rfl rfl rfl rfl rfl rfl rfl
    · dsimp only
      split
      · obtain ⟨A', hcollect⟩ := carries_collectGarbage hunpin.holds
        exact ⟨A', hunpin.carries.trans hcollect⟩
      · exact ⟨A, hunpin.carries⟩

/-- What comes out of a host program, or of a request that it makes. -/
def Answers {ε α : Type} (P : Policy σ) (A : ObjectId → Prop) (m : Machine σ)
    (post : (ObjectId → Prop) → α → Prop) : Outcome σ ε α → Prop
  | .ok a n => ∃ A', P.Carries A m A' n ∧ (n.heap.Fits → post A' a)
  | .failed _ n | .unwound n => ∃ A', P.Carries A m A' n
  | .exhausted => True

theorem Answers.mono {ε α : Type} {post post' : (ObjectId → Prop) → α → Prop} {o : Outcome σ ε α}
    (h : P.Answers A m post o) (hpost : ∀ A' a, post A' a → post' A' a) :
    P.Answers A m post' o := by
  cases o with
  | ok a n =>
    obtain ⟨A', hcarries, ha⟩ := h
    exact ⟨A', hcarries, fun hfits => hpost A' a (ha hfits)⟩
  | failed e n | unwound n => exact h
  | exhausted => trivial

theorem carries_of_not_fits (hgrows : m.Grows n) (hfits : ¬ m.heap.Fits) : P.Carries A m A n := by
  have hleft : ¬ n.heap.Fits := fun hf => hfits (hf.of_le hgrows.heap.size)
  exact ⟨hgrows, fun hf => absurd hf hleft,
    fun _ => ⟨hgrows, fun hf => absurd hf hleft, fun hf => absurd hf hleft,
      fun hf => absurd hf hleft⟩⟩

/-- In the middle of an evaluation nothing is freed. -/
theorem Answers.leads {ε α : Type} {post : (ObjectId → Prop) → α → Prop} {o : Outcome σ ε α}
    (h : P.Answers A m post o) (hgrows : o.All m.Grows) (hm : P.Runs A m) :
    P.Leads A m (fun A' a _ => post A' a) o := by
  by_cases hfits : m.heap.Fits
  · have hin := (hm hfits).1
    cases o with
    | ok a n =>
      obtain ⟨A', hcarries, ha⟩ := h
      exact ⟨A', hcarries.onward hin, ha⟩
    | failed e n | unwound n =>
      obtain ⟨A', hcarries⟩ := h
      exact ⟨A', hcarries.onward hin⟩
    | exhausted => trivial
  · exact leads_of_not_fits hgrows hfits

theorem Trusts.answers_eval {ε : Type} (h : P.Trusts call) (hm : P.Holds A m) (fuel : Nat)
    (source : String) :
    P.Answers A m (fun _ _ => True) (ScriptMachine.eval call fuel source m : Outcome σ ε _) := by
  have hgrows : (ScriptMachine.eval call fuel source m : Outcome σ ε _).All m.Grows :=
    grows_eval h.grows fuel source m
  have heval : (ScriptMachine.eval call fuel source m : Outcome σ ε _).All fun n => ∃ A',
      P.Holds A' n :=
    h.eval hm fuel source
  cases hin : m.inEval with
  | true =>
    rw [eval_of_inEval hin]
    exact ⟨A, Onward.carries (.of_eq hm rfl rfl rfl rfl rfl rfl rfl), fun _ => trivial⟩
  | false =>
    have hcarries : ∀ {n}, m.Grows n → (∃ A', P.Holds A' n) → ∃ A', P.Carries A m A' n :=
      fun hn ⟨A', hA'⟩ => ⟨A', hn, hA', fun h => by rw [hin] at h; cases h⟩
    cases hr : (ScriptMachine.eval call fuel source m : Outcome σ ε _) with
    | exhausted => trivial
    | failed e n | unwound n => rw [hr] at hgrows heval; exact hcarries hgrows heval
    | ok a n =>
      rw [hr] at hgrows heval
      obtain ⟨A', hA'⟩ := hcarries hgrows heval
      exact ⟨A', hA', fun _ => trivial⟩

theorem Holds.recover (h : P.Holds A m) : P.Holds A m.recover := by
  refine h.of_roots rfl (Nat.le_refl _) (fun v hv => .inl ?_) id
  rcases mem_roots.1 hv with hv | hv | hv | ⟨f, hf, -⟩
  · exact mem_roots.2 (.inl hv)
  · exact mem_roots.2 (.inr (.inl hv))
  · exact absurd hv (Array.not_mem_empty _)
  · exact absurd hf (Array.not_mem_empty _)

theorem Trusts.answers_guardedEval {ε : Type} (h : P.Trusts call) (hm : P.Holds A m) (fuel : Nat)
    (source : SizedText) :
    P.Answers A m (fun _ _ => True) (guardedEval call fuel source m : Outcome σ ε _) := by
  unfold guardedEval
  split
  · exact ⟨A, Onward.carries (.of_eq hm rfl rfl rfl rfl rfl rfl rfl), fun _ => trivial⟩
  · rename_i text _
    have heval : P.Answers A m (fun _ _ => True)
        (ScriptMachine.eval call fuel text m : Outcome σ ε _) :=
      h.answers_eval hm fuel text
    split <;> rename_i hr
    · rw [hr] at heval
      exact heval
    · rw [hr] at heval
      exact heval
    · -- an evaluation inside of another one is refused, so it is not unwound
      have hin : m.inEval = false := by
        cases hin : m.inEval with
        | false => rfl
        | true => rw [eval_of_inEval hin] at hr; cases hr
      rw [hr] at heval
      obtain ⟨A', hcarries⟩ := heval
      exact ⟨A', ⟨hcarries.grows.trans (.of_eq rfl rfl rfl), hcarries.holds.recover,
        fun h => by rw [hin] at h; cases h⟩, fun _ => trivial⟩
    · trivial

end Policy

/-! ## Requests -/

namespace Request

/-- The values in a reply that are known to a program that makes a request: those that were made for
it, and those that known values lead to. -/
def Learns (K : Value → Prop) : (r : Request) → r.Reply → Value → Prop
  | .createString _, reply, v => reply = v
  | .createList items, reply, v => (∀ item ∈ items, K item) ∧ reply = v
  | .raise _, reply, v => reply = v
  | .importJson _, reply, v => reply = .ok v
  | .listItems list, reply, v => K list ∧ ∃ items, reply = some items ∧ v ∈ items
  | _, _, _ => False

/-- What a request hands over is known, if all live objects have to be. A program is compiled in the
middle of an evaluation only. -/
def Proper (P : Policy σ) (A : ObjectId → Prop) (m : Machine σ) : Request → Prop
  | .createList items => P.full → ∀ v ∈ items, Knows A v
  | .compile _ _ => m.inEval = true
  | _ => True

end Request

namespace Policy

variable {P : Policy σ} {A A' : ObjectId → Prop} {m n : Machine σ} {call : Callback σ}

/-- **Every request leads from known objects to known objects.** -/
theorem Trusts.perform (h : P.Trusts call) (hm : P.Holds A m) (fuel : Nat) (r : Request)
    (hr : r.Proper P A m) :
    P.Answers A m (fun A' reply => ∀ v, r.Learns (Knows A) reply v → Knows A' v)
      (r.perform call fuel m) := by
  cases r with
  | eval source => exact (h.answers_eval hm fuel source).mono fun _ _ _ _ hv => hv.elim
  | evalBytes source => exact (h.answers_guardedEval hm fuel source).mono fun _ _ _ _ hv => hv.elim
  | compile source name =>
    have hcompile := h.compileSource (hm.runs fun _ => hr) source name
    show P.Answers A m _ (Run.attempt (ScriptMachine.compileSource call source name) m)
    unfold Run.attempt
    split <;> rename_i hc <;> rw [hc] at hcompile
    · obtain ⟨A', honward, -⟩ := hcompile
      exact ⟨A', honward.carries, fun _ _ hv => hv.elim⟩
    · obtain ⟨A', honward⟩ := hcompile
      exact ⟨A', honward.carries, fun _ _ hv => hv.elim⟩
    · obtain ⟨A', honward⟩ := hcompile
      exact ⟨A', honward.carries⟩
    · trivial
  | createString text =>
    obtain ⟨A', honward, hknown⟩ := onward_adopt hm (o := .string text) (fun _ hf => nomatch hf)
      (fun _ _ hv => absurd hv (Array.not_mem_empty _)) (P.string _ text)
    exact ⟨A', honward.carries, fun _ v hv => hv ▸ hknown⟩
  | createList items =>
    by_cases hitems : ∀ v ∈ items, Knows A v
    · obtain ⟨A', honward, hknown⟩ :=
        onward_adopt hm (o := .list items.toArray) (fun _ hf => nomatch hf)
          (fun _ v hv => hitems v (List.mem_toArray.1 hv)) (P.list _ _)
      exact ⟨A', honward.carries, fun _ v hv => hv.2 ▸ hknown⟩
    · have honward := onward_adopt_aside hm (o := .list items.toArray) (fun _ hf => nomatch hf)
        fun hfull => hitems (hr hfull)
      exact ⟨A, honward.carries, fun _ _ hv => absurd hv.1 hitems⟩
  | raise message =>
    refine ⟨A, Onward.carries (.of_eq hm rfl rfl rfl rfl rfl rfl rfl), fun _ v hv => ?_⟩
    exact hv ▸ knows_of_asObject?_eq_none Value.asObject?_interrupt
  | release v =>
    obtain ⟨A', hcarries⟩ := carries_release hm v
    exact ⟨A', hcarries, fun _ _ hv => hv.elim⟩
  | retain v => exact ⟨A, (onward_retain hm v).carries, fun _ _ hv => hv.elim⟩
  | collect =>
    obtain ⟨A', hcarries⟩ := carries_collectGarbage hm
    exact ⟨A', hcarries, fun _ _ hv => hv.elim⟩
  | importJson j =>
    obtain ⟨A', honward, hknown⟩ := onward_ofJson hm j
    exact ⟨A', honward.carries, fun hfits v hv => hknown hfits v hv⟩
  | listItems list =>
    refine ⟨A, (Onward.refl hm).carries, fun hfits v hv => ?_⟩
    obtain ⟨hlist, items, hitems, hv⟩ := hv
    exact ((hm hfits).1.of_object? hlist (Machine.object?_of_listItems? hitems)).1 v hv
  | print line | acquire size | discard pointer size =>
    exact ⟨A, Onward.carries (.of_eq hm rfl rfl rfl rfl rfl rfl rfl), fun _ _ hv => hv.elim⟩
  | typeName v | display v | asString v | stats | options | report | exportJson v
  | moduleStatus name =>
    exact ⟨A, (Onward.refl hm).carries, fun _ _ hv => hv.elim⟩

/-! ## New machines -/

theorem holds_openBuiltins (l : Library σ)
    (hl : ∀ e ∈ l.entries, ∀ b, P.allows b (.native ⟨e.name, e.arity, e.body⟩)) (hm : P.Holds A m) :
    ∃ A', P.Holds A' (m.openBuiltins l) := by
  unfold Machine.openBuiltins
  generalize l.entries = entries at hl
  induction entries generalizing A m with
  | nil => exact ⟨A, hm⟩
  | cons e entries ih =>
    have halloc := onward_alloc hm (o := .native ⟨e.name, e.arity, e.body⟩) (fun _ hf => nomatch hf)
      (fun _ _ hv => absurd hv (Array.not_mem_empty _)) (hl e List.mem_cons_self _)
    refine ih (A := fun id => A id ∨ id = (m.heap.alloc (.native ⟨e.name, e.arity, e.body⟩)).1) ?_
      fun e' he' => hl e' (List.mem_cons_of_mem _ he')
    refine halloc.holds.of_roots rfl (Globals.size_le_defineBuiltin _ _ _) (fun v hv => ?_) id
    rcases mem_roots.1 hv with hv | hv
    · rcases Globals.mem_values_defineBuiltin hv with rfl | hv
      · exact .inr (knows_ofObject (.inr rfl))
      · exact .inl (mem_roots.2 (.inl hv))
    · exact .inl (mem_roots.2 (.inr hv))

/-- New machines, if the functions of the core library are allowed. -/
theorem holds_new (hcore : ∀ e ∈ (Library.core : Library σ).entries, ∀ b,
    P.allows b (.native ⟨e.name, e.arity, e.body⟩)) (options : Options) (host : σ) :
    ∃ A, P.Holds A (Machine.new options host) := by
  refine holds_openBuiltins _ hcore (A := fun _ => False) fun _ => ⟨⟨.empty, ?_, ?_, ?_⟩, ?_⟩
  · intro v hv
    rcases mem_roots.1 hv with hv | hv | hv | ⟨f, hf, -⟩
    · exact absurd hv List.not_mem_nil
    · exact absurd hv List.not_mem_nil
    · exact absurd hv (Array.not_mem_empty _)
    · exact absurd hf (Array.not_mem_empty _)
  · intro e he
    exact absurd he (Array.not_mem_empty _)
  · exact fun _ hid => hid.elim
  · intro _ id o ho
    simp [Heap.get?, Heap.slot?] at ho

end Policy

end ScriptMachine
