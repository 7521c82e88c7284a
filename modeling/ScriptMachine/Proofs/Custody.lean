import ScriptMachine.Proofs.Emission
import ScriptMachine.Proofs.Known
/-!
# Known objects in the course of an evaluation

While a program is compiled, the strings and functions made for it are alive, since nothing is freed
before the program runs; from then on its code keeps them alive. So an evaluation leads from known
objects to known objects.

* `Policy.Trusts`: callbacks that lead from known objects to known objects;
* `Policy.Trusts.runs_of_steps`: **every state of a running program has its objects known**;
* `Policy.Trusts.eval`: whole evaluations.
-/

namespace ScriptMachine

variable {σ : Type}

/-- Every object of a heap is still where and what it was. -/
def Heap.Keeps {ν : Type} (h h' : Heap ν) : Prop := ∀ id o, h.get? id = some o → h'.get? id = some o

theorem Heap.Keeps.refl {ν : Type} (h : Heap ν) : h.Keeps h := fun _ _ ho => ho

theorem Heap.Keeps.trans {ν : Type} {h h' h'' : Heap ν} (hk : h.Keeps h') (hk' : h'.Keeps h'') :
    h.Keeps h'' := fun id o ho => hk' id o (hk id o ho)

theorem Heap.Tidy.keeps_alloc {ν : Type} {h : Heap ν} {o : Object ν} (ht : h.Tidy)
    (hfits : (h.alloc o).2.Fits) : h.Keeps (h.alloc o).2 :=
  fun _ _ ho => ht.get?_alloc_of_some hfits ho

section Steps

variable {call : Callback σ} {entry k : Nat} {m n : Machine σ}

theorem grows_of_native (hcall : Callback.Grows call) {f : NativeFunction (Native σ)}
    {args : List Value} {callee : Nat} {v : Value} {before after : Machine σ}
    (hasks : m.step entry = .native f args callee before)
    (hruns : call (f.code args) before.enterNative = .ok v after) : m.Grows after := by
  have hstep := m.grows_step entry
  have hrun := hcall (f.code args) before.enterNative
  rw [hasks] at hstep
  rw [hruns] at hrun
  have hbefore : m.Grows before.enterNative := hstep.trans (.of_eq rfl rfl rfl)
  exact hbefore.trans hrun

theorem grows_of_resume (m : Machine σ) (name : String) (callee : Nat) (v : Value) :
    m.Grows (Step.ofChecked (m.leaveNative.resume name callee v)).machine := by
  have hdepth : m.Grows m.leaveNative := .of_eq rfl rfl rfl
  exact hdepth.trans (Machine.grows_resume _ name callee v)

theorem Advances.grows (h : Advances call entry m n) (hcall : Callback.Grows call) : m.Grows n := by
  cases h with
  | next hstep =>
    have hgrows := m.grows_step entry
    rwa [hstep] at hgrows
  | @native f _ callee v _ after _ hasks hruns hresumes =>
    have hresume := grows_of_resume after f.name callee v
    rw [hresumes] at hresume
    exact (grows_of_native hcall hasks hruns).trans hresume

theorem Fails.grows {e : Failure} (h : Fails call entry m e n) (hcall : Callback.Grows call) :
    m.Grows n := by
  cases h with
  | step hstep =>
    have hgrows := m.grows_step entry
    rwa [hstep] at hgrows
  | @resume f _ callee v _ after _ hasks hruns hrefuses =>
    have hresume := grows_of_resume after f.name callee v
    rw [hrefuses] at hresume
    exact (grows_of_native hcall hasks hruns).trans hresume

theorem Steps.grows (h : Steps call entry k m n) (hcall : Callback.Grows call) : m.Grows n := by
  induction h with
  | refl m => exact .refl m
  | cons head _ ih => exact (head.grows hcall).trans ih

end Steps

namespace Policy

variable {P : Policy σ} {A A' A'' : ObjectId → Prop} {m n n' : Machine σ} {call : Callback σ}

/-- What happens leads from known objects to known objects, and neither frees nor changes any. -/
structure Onward (P : Policy σ) (A : ObjectId → Prop) (m : Machine σ) (A' : ObjectId → Prop)
    (n : Machine σ) : Prop where
  grows : m.Grows n
  holds : P.Holds A' n
  inEval : n.heap.Fits → n.inEval = m.inEval
  keeps : n.heap.Fits → (∀ id, A id → A' id) ∧ m.heap.Keeps n.heap

theorem Onward.refl (h : P.Holds A m) : P.Onward A m A m :=
  ⟨.refl m, h, fun _ => rfl, fun _ => ⟨fun _ h => h, .refl _⟩⟩

theorem Onward.trans (h : P.Onward A m A' n) (h' : P.Onward A' n A'' n') : P.Onward A m A'' n' where
  grows := h.grows.trans h'.grows
  holds := h'.holds
  inEval hfits := (h'.inEval hfits).trans (h.inEval (hfits.of_le h'.grows.heap.size))
  keeps hfits := by
    obtain ⟨hle', hkeeps'⟩ := h'.keeps hfits
    obtain ⟨hle, hkeeps⟩ := h.keeps (hfits.of_le h'.grows.heap.size)
    exact ⟨fun id hid => hle' id (hle id hid), hkeeps.trans hkeeps'⟩

theorem Onward.runs (h : P.Onward A m A' n) (hm : P.Runs A m) : P.Runs A' n :=
  h.holds.runs fun hfits =>
  (h.inEval hfits).trans (hm (hfits.of_le h.grows.heap.size)).1

/-- A run leads from known objects to known objects, and neither frees nor changes any. -/
def Leads {ε α : Type} (P : Policy σ) (A : ObjectId → Prop) (m : Machine σ)
    (post : (ObjectId → Prop) → α → Machine σ → Prop) : Outcome σ ε α → Prop
  | .ok a n => ∃ A', P.Onward A m A' n ∧ (n.heap.Fits → post A' a n)
  | .failed _ n | .unwound n => ∃ A', P.Onward A m A' n
  | .exhausted => True

/-- Callbacks that lead from known objects to known objects in the middle of an evaluation, when
they run an allowed function on known arguments, or an allowed loader. -/
structure Trusts (P : Policy σ) (call : Callback σ) : Prop where
  grows : Callback.Grows call
  native : ∀ {A m c args}, P.code c → P.Runs A m → (∀ v ∈ args, Knows A v) →
    P.Leads A m (fun A' v n => (n.object? v).isSome → Knows A' v) (call (c args) m)
  loader : ∀ {A m l} (handle : ModuleHandle), P.loader l → P.Runs A m →
    P.Leads A m (fun _ _ _ => True) (call (l handle) m)

/-! ## Compilations -/

/-- The known objects in the middle of a compilation, and those that were made for the program. -/
structure Draft where
  known : ObjectId → Prop
  made : ObjectId → Prop
  /-- The number of variables that functions made for the program may use. -/
  bound : Nat

/-- All objects that the program may refer to. -/
def Draft.all (w : Draft) (id : ObjectId) : Prop := w.known id ∨ w.made id

/-- A machine in the middle of a compilation that was begun on `m₀`. -/
structure Drafts (P : Policy σ) (m₀ : Machine σ) (w : Draft) (m : Machine σ) : Prop where
  inEval : m.inEval = true
  known : P.Known w.known m
  made : ∀ id, w.made id → ∃ o, m.heap.get? id = some o ∧ (∀ v ∈ o.references, Knows w.all v) ∧
    P.allows w.bound o
  covers : P.Covers w.all m
  keeps : m₀.heap.Keeps m.heap

section Drafts

variable {m₀ : Machine σ} {w : Draft}

variable (h : P.Drafts m₀ w m)

include h

/-- Once they are allowed, the objects made for the program are known. -/
theorem Drafts.known_all
    (hallows : ∀ o, P.allows w.bound o → P.allows m.globals.size o) : P.Known w.all m where
  tidy := h.known.tidy
  roots v hv := (h.known.roots v hv).mono fun _ => .inl
  loaders := h.known.loaders
  object id hid := by
    rcases hid with hid | hid
    · obtain ⟨o, ho, hrefs, hallowed⟩ := h.known.object id hid
      exact ⟨o, ho, fun v hv => (hrefs v hv).mono fun _ => .inl, hallowed⟩
    · obtain ⟨o, ho, hrefs, hallowed⟩ := h.made id hid
      exact ⟨o, ho, hrefs, hallows o hallowed⟩

/-- If the program is given up, the objects made for it may be forgotten, unless all have to be
known. -/
theorem Drafts.settle : ∃ A, (∀ id, w.known id → A id) ∧ (∀ id, A id → w.all id) ∧ P.Known A m ∧
    P.Covers A m := by
  by_cases hfull : P.full
  · exact ⟨w.all, fun _ => .inl, fun _ => id, h.known_all fun o _ => P.of_full hfull _ o, h.covers⟩
  · exact ⟨w.known, fun _ => id, fun _ => .inl, h.known, fun hf => absurd hf hfull⟩

/-- A new object for the program. -/
theorem Drafts.alloc {o : Object (Native σ)} {b : Nat}
    (hrefs : ∀ v ∈ o.references, Knows w.all v) (hallows : P.allows b o)
    (hfits : (m.heap.alloc o).2.Fits) :
    P.Drafts m₀ ⟨w.known, fun id => w.made id ∨ id = (m.heap.alloc o).1, max w.bound b⟩
      (m.alloc o).2 where
  inEval := h.inEval
  known := known_alloc_aside h.known o hfits
  made id hid := by
    have hall : ∀ id, w.all id → w.known id ∨ w.made id ∨ id = (m.heap.alloc o).1 := fun id hid =>
      hid.elim .inl fun hid => .inr (.inl hid)
    rcases hid with hid | rfl
    · obtain ⟨x, hx, hxrefs, hxallows⟩ := h.made id hid
      exact ⟨x, h.known.tidy.get?_alloc_of_some hfits hx, fun v hv => (hxrefs v hv).mono hall,
        P.mono (Nat.le_max_left _ _) hxallows⟩
    · exact ⟨o, h.known.tidy.get?_alloc_self hfits, fun v hv => (hrefs v hv).mono hall,
        P.mono (Nat.le_max_right _ _) hallows⟩
  covers hfull id x hx := by
    rcases covers_alloc h.covers o h.known.tidy hfits hfull id x hx with (hid | hid) | hid
    · exact .inl hid
    · exact .inr (.inl hid)
    · exact .inr (.inr hid)
  keeps := h.keeps.trans (h.known.tidy.keeps_alloc hfits)

end Drafts

/-- A machine beside itself in the middle of a compilation. What modules hold is known at any
rate. -/
def link (P : Policy σ) (m₀ : Machine σ) : Link σ where
  World := Draft
  le w w' := (∀ id, w.known id → w'.known id) ∧ ∀ id, w.made id → w'.made id
  val w v v' := v = v' ∧ Knows w.all v
  rel w m m' := m = m' ∧ m₀.Grows m ∧ (∀ v ∈ m.modules.values, Knows w.known v) ∧
    (m.heap.Fits → P.Drafts m₀ w m)
  reach := Draft.bound
  le_refl _ := ⟨fun _ h => h, fun _ h => h⟩
  le_trans h h' := ⟨fun id hid => h'.1 id (h.1 id hid), fun id hid => h'.2 id (h.2 id hid)⟩
  val_mono h hv := ⟨hv.1, hv.2.mono fun id hid => hid.imp (h.1 id) (h.2 id)⟩
  val_number _ x := ⟨rfl, knows_of_asObject?_eq_none (Value.asObject?_ofDouble x)⟩
  names h := by rw [h.1]
  imports h := by rw [h.1]
  lookup h _ := by rw [h.1]
  function? {w m _} h index name := by
    obtain ⟨rfl, -, hmodules, -⟩ := h
    cases hv : m.modules.function? index name with
    | none => exact .none
    | some v =>
      exact .some ⟨rfl, (hmodules v (Registry.mem_values_of_function? hv)).mono fun _ => .inl⟩
  string {w m _} h s := by
    obtain ⟨rfl, hgrows, hmodules, hdrafts⟩ := h
    have halloc := m.grows_alloc (o := .string s) fun _ hf => nomatch hf
    refine ⟨⟨w.known, fun id => w.made id ∨ id = (m.heap.alloc (.string s)).1, max w.bound 0⟩,
      ⟨fun _ h => h, fun _ => .inl⟩, Nat.le_of_eq (Nat.max_zero _),
      ⟨rfl, hgrows.trans halloc, hmodules, fun hfits => ?_⟩, rfl, knows_ofObject (.inr (.inr rfl))⟩
    exact (hdrafts (hfits.of_le halloc.heap.size)).alloc
      (fun _ hv => absurd hv (Array.not_mem_empty _)) (P.string 0 s) hfits
  function {w m m' d d' globals} h hd := by
    obtain ⟨rfl, hgrows, hmodules, hdrafts⟩ := h
    have heq : d.Matches Eq globals d' := hd.mono (fun _ _ hv => hv.1) (Nat.le_refl _)
    obtain rfl := heq.eq
    have hconstants := (hd.corresponds fun _ _ hv _ => hv.1).constants.mem.2
    have halloc := m.grows_alloc (o := .function d.script) fun f hf =>
      ⟨d, globals, heq, Object.function.inj hf⟩
    refine ⟨⟨w.known, fun id => w.made id ∨ id = (m.heap.alloc (.function d.script)).1,
      max w.bound globals⟩, ⟨fun _ h => h, fun _ => .inl⟩, Nat.le_refl _,
      ⟨rfl, hgrows.trans halloc, hmodules, fun hfits => ?_⟩, rfl, knows_ofObject (.inr (.inr rfl))⟩
    exact (hdrafts (hfits.of_le halloc.heap.size)).alloc hconstants (P.function heq) hfits
  commit {w m _ b} h := by
    obtain ⟨rfl, hgrows, hmodules, hdrafts⟩ := h
    have hcommit := m.grows_commit b
    refine ⟨rfl, hgrows.trans hcommit, hmodules, fun hfits => ?_⟩
    have hm := hdrafts hfits
    refine ⟨hm.inEval,
      hm.known.of_roots rfl hcommit.size_globals (fun v hv => .inl ?_) hm.known.loaders, hm.made,
      hm.covers, hm.keeps⟩
    rwa [roots_commit] at hv

theorem Known.setModules {r : Registry (Loader σ)} (h : P.Known A m)
    (hvalues : ∀ v ∈ r.values, v ∈ m.modules.values ∨ Knows A v) (hloaders : P.Admits r) :
    P.Known A { m with modules := r } := by
  refine h.of_roots rfl (Nat.le_refl _) (fun v hv => ?_) hloaders
  rcases mem_roots.1 hv with hv | hv | hv
  · exact .inl (mem_roots.2 (.inl hv))
  · exact (hvalues v hv).imp (fun hv => mem_roots.2 (.inr (.inl hv))) id
  · exact .inl (mem_roots.2 (.inr (.inr hv)))

/-- What a loader leaves in the middle of a compilation. -/
theorem Onward.drafts {m₀ : Machine σ} {w : Draft} {index : Nat}
    (h : P.Onward A (m.beginLoad index) A' n) (hle : ∀ id, w.known id → A id)
    (hm : P.Drafts m₀ w m) (hfits : n.heap.Fits) : P.Drafts m₀ { w with known := A' } n := by
  obtain ⟨hle', hkeeps⟩ := h.keeps hfits
  obtain ⟨hknown, hcovers⟩ := h.holds hfits
  refine ⟨(h.inEval hfits).trans hm.inEval, hknown, fun id hid => ?_,
    fun hfull id o ho => .inl (hcovers hfull id o ho), hm.keeps.trans hkeeps⟩
  obtain ⟨o, ho, hrefs, hallows⟩ := hm.made id hid
  have hall : ∀ id, w.all id → A' id ∨ w.made id :=
    fun id hid => hid.imp_left fun hid => hle' id (hle id hid)
  exact ⟨o, hkeeps id o ho, fun v hv => (hrefs v hv).mono hall, hallows⟩

/-- Loading a module in the middle of a compilation. It makes no difference what callbacks would do
on machines whose objects are not known. -/
theorem Trusts.calls {call' : Callback σ} (h : P.Trusts call)
    (heq : ∀ h n A, P.Runs A n → call' h n = call h n) (m₀ : Machine σ) :
    (P.link m₀).Calls call call' := by
  intro name w m _ index handle loader hrel hlookup
  obtain ⟨rfl, hgrows, hmodules, hdrafts⟩ := hrel
  let R := P.link m₀
  have hload := h.grows (loader handle) (m.beginLoad index)
  have hbegin : m.Grows (m.beginLoad index) := .of_eq rfl rfl rfl
  obtain ⟨A, hruns, hanswers⟩ : ∃ A, P.Runs A (m.beginLoad index) ∧
      (m.heap.Fits → (∀ id, w.known id → A id) ∧ P.Leads A (m.beginLoad index)
        (fun _ _ _ => True) (call (loader handle) (m.beginLoad index))) := by
    by_cases hfits : m.heap.Fits
    · have hm := hdrafts hfits
      obtain ⟨A, hle, -, hknown, hcovers⟩ := hm.settle
      obtain ⟨e, he, hstate⟩ := Registry.mem_entries_of_lookup hlookup
      have hruns : P.Runs A (m.beginLoad index) := fun _ =>
        ⟨hm.inEval, hknown.setModules (fun v hv => .inl (Registry.mem_values_beginLoad hv))
          (hknown.loaders.beginLoad index), hcovers⟩
      exact ⟨A, hruns, fun _ => ⟨hle, h.loader handle (hknown.loaders e he loader hstate) hruns⟩⟩
    · exact ⟨fun _ => True, fun hf => absurd hf hfits, fun hf => absurd hf hfits⟩
  -- what is left is sound as long as its heap fits
  have hleft : ∀ n, m.Grows n → (n.heap.Fits → ∃ A', (∀ id, w.known id → A' id) ∧
      P.Drafts m₀ { w with known := A' } n) →
      ∃ w' : Draft, R.le w w' ∧ w'.bound = w.bound ∧ R.rel w' n n := by
    intro n hn hsound
    by_cases hfits : n.heap.Fits
    · obtain ⟨A', hle, hdraft⟩ := hsound hfits
      exact ⟨{ w with known := A' }, ⟨hle, fun _ h => h⟩, rfl, rfl, hgrows.trans hn,
        fun v hv => hdraft.known.roots v (mem_roots.2 (.inr (.inl hv))), fun _ => hdraft⟩
    · exact ⟨{ w with known := fun _ => True }, ⟨fun _ _ => trivial, fun _ h => h⟩, rfl, rfl,
        hgrows.trans hn, fun _ _ _ _ => trivial, fun hf => absurd hf hfits⟩
  rw [heq _ _ A hruns]
  cases hcall : call (loader handle) (m.beginLoad index) with
  | exhausted => exact .exhausted
  | failed e n => exact e.elim
  | unwound n =>
    rw [hcall] at hload hanswers
    have hn := hbegin.trans hload
    obtain ⟨w', hle, -, hrel⟩ := hleft n hn fun hfits => by
      have hm := hfits.of_le hn.heap.size
      obtain ⟨hleA, A', honward⟩ := hanswers hm
      exact ⟨A', fun id hid => (honward.keeps hfits).1 id (hleA id hid),
        honward.drafts hleA (hdrafts hm) hfits⟩
    exact .unwound hle hrel
  | ok v n =>
    rw [hcall] at hload hanswers
    have hn := hbegin.trans hload
    have hfinish : n.Grows (n.finishLoad index) := .of_eq rfl rfl rfl
    obtain ⟨w', hle, hbound, hrel⟩ := hleft (n.finishLoad index)
      (hn.trans hfinish) fun hfits => by
        have hm := hfits.of_le hn.heap.size
        obtain ⟨hleA, A', honward, -⟩ := hanswers hm
        have hdraft := honward.drafts hleA (hdrafts hm) hfits
        exact ⟨A', fun id hid => (honward.keeps hfits).1 id (hleA id hid), hdraft.inEval,
          hdraft.known.setModules (fun v hv => .inl (Registry.mem_values_finishLoad hv))
            (hdraft.known.loaders.finishLoad index),
          hdraft.made, hdraft.covers, hdraft.keeps⟩
    exact .ok hle ⟨hrel, Nat.le_of_eq hbound, hn.names⟩

/-- At the start of a compilation, nothing was made for the program yet. -/
theorem Runs.link (hm : P.Runs A m) :
    (P.link m).rel ⟨fun id => m.heap.Fits → A id, fun _ => False, 0⟩ m m := by
  refine ⟨rfl, .refl m,
    fun v hv id hid hfits => (hm hfits).2.1.roots v (mem_roots.2 (.inr (.inl hv))) id hid,
    fun hfits => ?_⟩
  obtain ⟨hin, hknown, hcovers⟩ := hm hfits
  have hA : (fun id => m.heap.Fits → A id) = A :=
    funext fun id => propext ⟨fun h => h hfits, fun h _ => h⟩
  rw [hA]
  exact ⟨hin, hknown, fun _ hid => hid.elim, fun hfull id o ho => .inl (hcovers hfull id o ho),
    .refl _⟩

/-- A compilation that is given up. -/
theorem onward_of_link {w : Draft} (hle : ∀ id, (m.heap.Fits → A id) → w.known id)
    (h : (P.link m).rel w n n) (hm : P.Runs A m) : ∃ A', P.Onward A m A' n := by
  obtain ⟨-, hgrows, -, hdrafts⟩ := h
  by_cases hfits : n.heap.Fits
  · have hdraft := hdrafts hfits
    obtain ⟨A', hleA, -, hknown, hcovers⟩ := hdraft.settle
    exact ⟨A', hgrows, fun _ => ⟨hknown, hcovers⟩,
      fun _ => hdraft.inEval.trans (hm (hfits.of_le hgrows.heap.size)).1.symm,
      fun _ => ⟨fun id hid => hleA id (hle id fun _ => hid), hdraft.keeps⟩⟩
  · exact ⟨A, hgrows, fun hf => absurd hf hfits, fun hf => absurd hf hfits,
      fun hf => absurd hf hfits⟩

/-- **A compilation makes known objects only, and its code refers to nothing else.** -/
theorem Trusts.compileSource (h : P.Trusts call) (hm : P.Runs A m) (source name : String) :
    P.Leads A m (fun A' c _ => ∀ v ∈ c.constants, Knows A' v)
      (ScriptMachine.compileSource call source name m) := by
  have hends :=
    Link.ends_compileSource source name (fun name _ => h.calls (fun _ _ _ _ => rfl) m name) hm.link
      (Nat.zero_le _)
  generalize ScriptMachine.compileSource call source name m = o at hends
  cases hends with
  | exhausted => trivial
  | failed le hrel | unwound le hrel => exact onward_of_link le.1 hrel hm
  | @ok w _ c n _ le hpost =>
    obtain ⟨⟨-, hgrows, -, hdrafts⟩, hreach, -, d, d', hd, hd', -, hmatches⟩ := hpost
    have hconstants := (hmatches.corresponds fun _ _ hv _ => hv.1).constants.mem.2
    refine ⟨w.all, ⟨hgrows, fun hfits => ?_, fun hfits => ?_, fun hfits => ?_⟩,
      fun _ => hd ▸ hconstants⟩
    · have hdraft := hdrafts hfits
      exact ⟨hdraft.known_all fun o => P.mono hreach, hdraft.covers⟩
    · exact (hdrafts hfits).inEval.trans (hm (hfits.of_le hgrows.heap.size)).1.symm
    · exact ⟨fun id hid => .inl (le.1 id fun _ => hid), (hdrafts hfits).keeps⟩

/-- A compilation runs loaders only on machines whose objects are known. -/
theorem Trusts.compileSource_congr {call' : Callback σ} (h : P.Trusts call) (hm : P.Runs A m)
    (heq : ∀ h n A, P.Runs A n → call' h n = call h n) (source name : String) :
    ScriptMachine.compileSource call' source name m =
      ScriptMachine.compileSource call source name m := by
  have hends :=
    Link.ends_compileSource source name (fun name _ => h.calls heq m name) hm.link (Nat.zero_le _)
  generalize ScriptMachine.compileSource call source name m = o at hends
  generalize ScriptMachine.compileSource call' source name m = o' at hends
  cases hends with
  | exhausted => rfl
  | failed le hrel | unwound le hrel => rw [hrel.1]
  | ok le hpost =>
    obtain ⟨⟨rfl, -⟩, -, -, d, d', rfl, rfl, -, hmatches⟩ := hpost
    obtain rfl := (hmatches.mono (fun _ _ hv => hv.1) (Nat.le_refl _)).eq
    rfl

/-! ## Running code -/

theorem leads_of_not_fits {ε α : Type} {post : (ObjectId → Prop) → α → Machine σ → Prop}
    {o : Outcome σ ε α} (hgrows : o.All m.Grows) (hfits : ¬ m.heap.Fits) : P.Leads A m post o := by
  have hleft : ∀ n, m.Grows n → ¬ n.heap.Fits := fun n hn hf => hfits (hf.of_le hn.heap.size)
  have honward : ∀ n, m.Grows n → P.Onward A m A n := fun n hn =>
    ⟨hn, fun hf => absurd hf (hleft n hn), fun hf => absurd hf (hleft n hn),
      fun hf => absurd hf (hleft n hn)⟩
  cases o with
  | ok a n => exact ⟨A, honward n hgrows, fun hf => absurd hf (hleft n hgrows)⟩
  | failed e n | unwound n => exact ⟨A, honward n hgrows⟩
  | exhausted => trivial

theorem runs_of_not_fits (hgrows : m.Grows n) (hfits : ¬ m.heap.Fits) : P.Runs A n := fun hf =>
  absurd (hf.of_le hgrows.heap.size) hfits

/-- Changes of the part of a machine that has nothing to do with objects. -/
theorem Runs.of_eq (h : P.Runs A m) (hheap : n.heap = m.heap) (hglobals : n.globals = m.globals)
    (hmodules : n.modules = m.modules) (hstack : n.stack = m.stack) (hframes : n.frames = m.frames)
    (hin : n.inEval = m.inEval) : P.Runs A n := by
  refine Holds.runs (h.holds.of_get? hglobals hmodules hstack hframes (by rw [hheap])
    (fun ht => hheap ▸ ht) fun id => by rw [hheap]) fun hfits => ?_
  rw [hin]
  exact (h (hheap ▸ hfits)).1

/-- Every instruction leads from known objects to known objects. -/
theorem Runs.step (h : P.Runs A m) (entry : Nat) : ∃ A', P.Runs A' (m.step entry).machine := by
  by_cases hfits : m.heap.Fits
  · exact (P.invariant.leaves_step h hfits entry).machine
  · exact ⟨A, runs_of_not_fits (m.grows_step entry) hfits⟩

/-- So does the return of a native function. -/
theorem Runs.resume (h : P.Runs A m) (name : String) (callee : Nat) {v : Value}
    (hv : m.heap.Fits → (m.object? v).isSome → Knows A v) : ∃ A', P.Runs A'
      (Step.ofChecked (m.leaveNative.resume name callee v)).machine := by
  have h : P.Runs A m.leaveNative := h.of_eq rfl rfl rfl rfl rfl rfl
  by_cases hfits : m.heap.Fits
  · exact (P.invariant.leaves_resume h hfits name callee (hv hfits)).machine
  · exact ⟨A, runs_of_not_fits (Machine.grows_resume _ name callee v) hfits⟩

section

variable {entry callee : Nat} {f : NativeFunction (Native σ)} {args : List Value}

/-- What a native function is called with. -/
theorem Runs.asks (hm : P.Runs A m) (hfits : m.heap.Fits)
    (hstep : m.step entry = .native f args callee n) :
    ∃ A', P.Runs A' n.enterNative ∧ P.code f.code ∧ ∀ v ∈ args, Knows A' v := by
  have hleaves := P.invariant.leaves_step hm hfits entry
  rw [hstep] at hleaves
  obtain ⟨A', hn, hcode, hargs⟩ := hleaves
  exact ⟨A', Runs.of_eq (m := n) hn rfl rfl rfl rfl rfl rfl, hcode, hargs⟩

/-- What a native function leads to. -/
theorem Trusts.leads_native (h : P.Trusts call) (hm : P.Runs A m)
    (hstep : m.step entry = .native f args callee n) : ∃ A', P.Runs A' n.enterNative ∧
      P.Leads A' n.enterNative (fun A' v n => (n.object? v).isSome → Knows A' v)
        (call (f.code args) n.enterNative) := by
  by_cases hfits : m.heap.Fits
  · obtain ⟨A', hn, hcode, hargs⟩ := hm.asks hfits hstep
    exact ⟨A', hn, h.native hcode hn hargs⟩
  · have hgrows := m.grows_step entry
    rw [hstep] at hgrows
    have hgrows : m.Grows n.enterNative := hgrows.trans (.of_eq rfl rfl rfl)
    exact ⟨A, runs_of_not_fits hgrows hfits,
      leads_of_not_fits (h.grows _ _) fun hf => hfits (hf.of_le hgrows.heap.size)⟩

end

theorem Trusts.runs_of_advances (h : P.Trusts call) (hm : P.Runs A m) {entry : Nat}
    (hadv : Advances call entry m n) : ∃ A', P.Runs A' n := by
  cases hadv with
  | next hstep =>
    have hnext := hm.step entry
    rwa [hstep] at hnext
  | @native f _ callee _ _ _ _ hasks hruns hresumes =>
    obtain ⟨A₁, hbefore, hleads⟩ := h.leads_native hm hasks
    rw [hruns] at hleads
    obtain ⟨A₂, honward, hv⟩ := hleads
    have hresume := (honward.runs hbefore).resume f.name callee hv
    rwa [hresumes] at hresume

/-- **Every state of a running program has its objects known.** -/
theorem Trusts.runs_of_steps (h : P.Trusts call) (hm : P.Runs A m) {entry k : Nat}
    (hsteps : Steps call entry k m n) : ∃ A', P.Runs A' n := by
  induction hsteps generalizing A with
  | refl m => exact ⟨A, hm⟩
  | cons head _ ih =>
    obtain ⟨A', hn⟩ := h.runs_of_advances hm head
    exact ih hn

theorem Trusts.runSteps (h : P.Trusts call) (hm : P.Runs A m) (entry fuel : Nat) :
    (ScriptMachine.runSteps call entry fuel m).All fun n => ∃ A', P.Runs A' n := by
  induction fuel generalizing A m with
  | zero => trivial
  | succ fuel ih =>
    have hnext := hm.step entry
    rw [ScriptMachine.runSteps]
    cases hstep : m.step entry with
    | next n =>
      rw [hstep] at hnext
      obtain ⟨A', hn⟩ := hnext
      exact ih hn
    | done v n | failed f n => rw [hstep] at hnext; exact hnext
    | native f args callee n =>
      obtain ⟨A₁, hn, hleads⟩ := h.leads_native hm hstep
      simp only
      cases hcall : call (f.code args) n.enterNative with
      | exhausted => trivial
      | failed e _ => exact e.elim
      | unwound n' =>
        rw [hcall] at hleads
        obtain ⟨A₂, honward⟩ := hleads
        exact ⟨A₂, honward.runs hn⟩
      | ok v n' =>
        rw [hcall] at hleads
        obtain ⟨A₂, honward, hv⟩ := hleads
        have hresume := (honward.runs hn).resume f.name callee hv
        simp only
        cases hr : n'.leaveNative.resume f.name callee v with
        | error e => rw [hr] at hresume; exact hresume
        | ok n'' =>
          rw [hr] at hresume
          obtain ⟨A₃, hn''⟩ := hresume
          exact ih hn''

/-! ## Evaluations -/

theorem mem_of_mem_shrink {α : Type} {xs : Array α} {k : Nat} {x : α} (h : x ∈ xs.shrink k) :
    x ∈ xs := by
  rw [Array.shrink_eq_take, ← Array.mem_toList_iff, Array.take_eq_extract,
    Array.toList_extract] at h
  exact Array.mem_toList_iff.1 (List.mem_of_mem_take h)

/-- Calls in progress may come and go, if their code refers to known objects only. -/
theorem Runs.setCalls (h : P.Runs A m) {stack : Array Value} {frames : Array Frame}
    (hstack : ∀ v ∈ stack, v ∈ m.stack)
    (hframes : ∀ f ∈ frames, f ∈ m.frames ∨ (m.heap.Fits → ∀ v ∈ f.chunk.constants, Knows A v)) :
    P.Runs A { m with stack, frames } := by
  intro hfits
  refine P.invariant.setCalls h (fun v hv => P.invariant.stack h hfits v (hstack v hv))
    (fun f hf => ?_) hfits
  rcases hframes f hf with hf | hf
  · exact P.invariant.constants h hfits f hf
  · exact hf hfits

theorem Trusts.execute (h : P.Trusts call) (hm : P.Runs A m) {chunk : Chunk}
    (hc : m.heap.Fits → ∀ v ∈ chunk.constants, Knows A v) (fuel : Nat) :
    (ScriptMachine.execute call fuel chunk m).All fun n => ∃ A', P.Runs A' n := by
  have hstart : P.Runs A (Core.start chunk m) :=
    hm.setCalls (fun _ hv => hv) fun f hf => (Array.mem_push.1 hf).imp_right
      fun hf => by rw [hf]; exact hc
  have hrun := h.runSteps hstart m.frames.size fuel
  have hsettle : ∀ {n A'} report, P.Runs A' n → P.Runs A' { n with
      frames := n.frames.shrink m.frames.size, stack := n.stack.shrink m.stack.size, report } :=
    fun report hn => Runs.of_eq (Runs.setCalls hn (fun _ hv => mem_of_mem_shrink hv)
      fun _ hf => .inl (mem_of_mem_shrink hf)) rfl rfl rfl rfl rfl rfl
  unfold ScriptMachine.execute
  simp only
  split <;> rename_i hr <;> rw [hr] at hrun
  · obtain ⟨A', hn⟩ := hrun
    exact ⟨A', hsettle _ hn⟩
  · obtain ⟨A', hn⟩ := hrun
    exact ⟨A', hsettle _ hn⟩
  · exact hrun
  · trivial

theorem Trusts.evalSource (h : P.Trusts call) (hm : P.Runs A m) (fuel : Nat) (source : String) :
    (ScriptMachine.evalSource call fuel source m).All fun n => ∃ A', P.Runs A' n := by
  have hcompile := h.compileSource hm source m.options.chunkName
  rw [evalSource_apply]
  split <;> rename_i hr <;> rw [hr] at hcompile
  · obtain ⟨A', honward, hconstants⟩ := hcompile
    exact h.execute (honward.runs hm) hconstants fuel
  · obtain ⟨A', honward⟩ := hcompile
    exact ⟨A', (honward.runs hm).of_eq rfl rfl rfl rfl rfl rfl⟩
  · obtain ⟨A', honward⟩ := hcompile
    exact ⟨A', honward.runs hm⟩
  · trivial

/-- Pins do not matter for what is known. -/
theorem Holds.pin (h : P.Holds A m) (id : ObjectId) :
    P.Holds A { m with heap := (m.heap.pin id).2 } :=
  h.of_get? rfl rfl rfl rfl (Heap.size_pin m.heap id) (fun ht => ht.pin id)
    (Heap.get?_pin m.heap id)

theorem Holds.collectGarbage (h : P.Holds A m) : ∃ A', P.Holds A' m.collectGarbage.2 := by
  unfold Machine.collectGarbage
  split
  · exact ⟨A, h⟩
  · exact ⟨_, holds_collect h⟩

theorem Holds.conclude (h : P.Holds A m) (result : Except Failure Value) :
    ∃ A', P.Holds A' (m.conclude result) := by
  unfold Machine.conclude
  refine Holds.collectGarbage (A := A) ?_
  have h : P.Holds A { m with inEval := false } := h.of_get? rfl rfl rfl rfl rfl id fun _ => rfl
  cases result with
  | error f => exact h
  | ok v =>
    dsimp only
    cases v.asObject? with
    | none => exact h.of_get? rfl rfl rfl rfl rfl id fun _ => rfl
    | some id => exact (h.pin id).of_get? rfl rfl rfl rfl rfl (fun h => h) fun _ => rfl

/-- **Evaluations lead from known objects to known objects.** -/
theorem Trusts.eval {ε : Type} (h : P.Trusts call) (hm : P.Holds A m) (fuel : Nat)
    (source : String) : (ScriptMachine.eval call fuel source m : Outcome σ ε _).All fun n => ∃ A',
      P.Holds A' n := by
  cases hin : m.inEval with
  | true =>
    rw [eval_of_inEval hin]
    exact ⟨A, hm.of_get? rfl rfl rfl rfl rfl id fun _ => rfl⟩
  | false =>
    have hstart : P.Holds A m.beginEval :=
      hm.of_get? rfl rfl rfl rfl rfl id fun _ => rfl
    have hrun := h.evalSource (hstart.runs fun _ => rfl) fuel source
    rw [eval_of_not_inEval hin]
    split <;> rename_i hr <;> rw [hr] at hrun
    · obtain ⟨A', hn⟩ := hrun
      exact hn.holds.conclude _
    · obtain ⟨A', hn⟩ := hrun
      exact hn.holds.conclude _
    · obtain ⟨A', hn⟩ := hrun
      exact ⟨A', hn.holds⟩
    · trivial

end Policy

end ScriptMachine
