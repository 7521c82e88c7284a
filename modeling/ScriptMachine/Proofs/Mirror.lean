import Mathlib.Data.List.Forall2
import ScriptMachine.Proofs.Emission
import ScriptMachine.Proofs.Known
import ScriptMachine.Proofs.Pins
/-!
# Machines that differ in what was collected

When two machines do the same but collect garbage at different times, their objects have different
addresses. Pair the objects that stand for one another: a new object of one is paired with the new
object of the other, and a collection takes away pairs only, and none that are still in use.

* `Machine.Mirrors.thin`: **collections on either side leave machines that mirror each other**;
* `Lockstep.mirror`, `Link.mirror`: so do instructions and compilations.
-/

namespace ScriptMachine

variable {σ ν : Type}

theorem forall₂_mono_mem {α β : Type} {r s : α → β → Prop} {xs : List α} {ys : List β}
    (h : List.Forall₂ r xs ys) (hrs : ∀ a b, a ∈ xs → b ∈ ys → r a b → s a b) :
    List.Forall₂ s xs ys := by
  induction h with
  | nil => exact .nil
  | cons hab _ ih =>
    exact .cons (hrs _ _ List.mem_cons_self List.mem_cons_self hab)
      (ih fun a b ha hb => hrs a b (List.mem_cons_of_mem _ ha) (List.mem_cons_of_mem _ hb))

theorem exists_mem_of_forall₂ {α α' : Type} {r : α → α' → Prop} {xs : List α} {ys : List α'} {a : α}
    (h : List.Forall₂ r xs ys) (ha : a ∈ xs) : ∃ b ∈ ys, r a b := by
  induction h with
  | nil => cases ha
  | cons hab _ ih =>
    rcases List.mem_cons.1 ha with rfl | ha
    · exact ⟨_, List.mem_cons_self, hab⟩
    · obtain ⟨b, hb, hab⟩ := ih ha
      exact ⟨b, List.mem_cons_of_mem _ hb, hab⟩

/-! ## Pairs of objects -/

/-- Which objects of two machines stand for one another. -/
abbrev Pairing := ObjectId → ObjectId → Prop

/-- No object is paired twice. -/
structure Pairing.OneToOne (β : Pairing) : Prop where
  left : ∀ {id id' id''}, β id id' → β id id'' → id' = id''
  right : ∀ {id id' id''}, β id id'' → β id' id'' → id = id'

/-- One more pair. -/
def Pairing.add (β : Pairing) (a a' : ObjectId) : Pairing :=
  fun id id' => β id id' ∨ id = a ∧ id' = a'

/-- The pairs of objects that are kept on both sides. -/
def Pairing.keep (β : Pairing) (k k' : ObjectId → Prop) : Pairing :=
  fun id id' => β id id' ∧ k id ∧ k' id'

namespace Pairing

variable {β : Pairing} {a a' b b' : ObjectId}

theorem OneToOne.eq_iff (h : β.OneToOne) (ha : β a a') (hb : β b b') : a = b ↔ a' = b' :=
  ⟨fun heq => h.left ha (heq ▸ hb), fun heq => h.right ha (heq ▸ hb)⟩

theorem OneToOne.keep (h : β.OneToOne) (k k' : ObjectId → Prop) : (β.keep k k').OneToOne :=
  ⟨fun h₁ h₂ => h.left h₁.1 h₂.1, fun h₁ h₂ => h.right h₁.1 h₂.1⟩

theorem OneToOne.add (h : β.OneToOne) (hfresh : ∀ id', ¬ β a id') (hfresh' : ∀ id, ¬ β id a') :
    (β.add a a').OneToOne := by
  constructor
  · rintro id id' id'' (h₁ | ⟨rfl, rfl⟩) (h₂ | ⟨h₂, rfl⟩)
    · exact h.left h₁ h₂
    · exact absurd (h₂ ▸ h₁) (hfresh _)
    · exact absurd h₂ (hfresh _)
    · rfl
  · rintro id id' id'' (h₁ | ⟨rfl, rfl⟩) (h₂ | ⟨rfl, h₂⟩)
    · exact h.right h₁ h₂
    · exact absurd (h₂ ▸ h₁) (hfresh' _)
    · exact absurd h₂ (hfresh' _)
    · rfl

end Pairing

/-- Values that are the same, or refer to paired objects. -/
inductive Value.Mirrors (β : Pairing) : Value → Value → Prop
  | simple {v : Value} (h : v.asObject? = .none) : Mirrors β v v
  | object {id id' : ObjectId} (h : β id id') : Mirrors β (.ofObject id) (.ofObject id')

namespace Value.Mirrors

variable {β β' : Pairing} {u u' v v' : Value}

section

variable (h : v.Mirrors β v')

include h

theorem mono (hβ : ∀ id id', v.asObject? = some id → v'.asObject? = some id' →
    β id id' → β' id id') : v.Mirrors β' v' := by
  cases h with
  | simple h => exact .simple h
  | object h => exact .object (hβ _ _ (asObject?_ofObject _) (asObject?_ofObject _) h)

theorem cases : (v = v' ∧ v.asObject? = .none) ∨
    ∃ id id', v.asObject? = some id ∧ v'.asObject? = some id' ∧ β id id' := by
  cases h with
  | simple h => exact .inl ⟨rfl, h⟩
  | object h => exact .inr ⟨_, _, asObject?_ofObject _, asObject?_ofObject _, h⟩

theorem asObject? : Option.Rel β v.asObject? v'.asObject? := by
  obtain ⟨rfl, hv⟩ | ⟨id, id', hv, hv', hβ⟩ := h.cases
  · rw [hv]
    exact .none
  · rw [hv, hv']
    exact .some hβ

theorem exists_of_asObject? {id : ObjectId} (hid : v.asObject? = some id) :
    ∃ id', v'.asObject? = some id' ∧ β id id' := by
  obtain ⟨hnone, -⟩ | ⟨x, id', hx, hid', hβ⟩ := rel_cases h.asObject?
  · rw [hnone] at hid
    cases hid
  · obtain rfl := Option.some.inj (hx.symm.trans hid)
    exact ⟨id', hid', hβ⟩

theorem symm : v'.Mirrors (fun id' id => β id id') v := by
  cases h with
  | simple h => exact .simple h
  | object h => exact .object h

end

/-- Mirrored values are the same on one side if and only if they are on the other. -/
theorem eq_iff (hβ : β.OneToOne) (hu : u.Mirrors β u') (hv : v.Mirrors β v') : u = v ↔ u' = v' := by
  have hobject {id : ObjectId} {w : Value} (hw : w.asObject? = .none) : w ≠ .ofObject id := by
    rintro rfl
    rw [asObject?_ofObject] at hw
    cases hw
  have hinj {id id' : ObjectId} : Value.ofObject id = .ofObject id' ↔ id = id' := by
    refine ⟨fun heq => ?_, fun heq => by rw [heq]⟩
    have hid := congrArg Value.asObject? heq
    rw [asObject?_ofObject, asObject?_ofObject] at hid
    exact Option.some.inj hid
  cases hu with
  | simple hu =>
    cases hv with
    | simple _ => rfl
    | object _ => exact ⟨fun h => absurd h (hobject hu), fun h => absurd h (hobject hu)⟩
  | object hu =>
    cases hv with
    | simple hv => exact ⟨fun h => absurd h.symm (hobject hv), fun h => absurd h.symm (hobject hv)⟩
    | object hv => rw [hinj, hinj, hβ.eq_iff hu hv]

end Value.Mirrors

/-- Numbers mirror themselves only. -/
theorem faithful_mirrors {β : Pairing} : Core.Faithful (Value.Mirrors β) := by
  intro v v' hv hnumber
  obtain ⟨rfl, -⟩ | ⟨id, id', hid, hid', -⟩ := hv.cases
  · rfl
  · rw [Value.isNumber_of_asObject? hid, Value.isNumber_of_asObject? hid'] at hnumber
    rcases hnumber with hnumber | hnumber <;> cases hnumber

/-! ## Heaps -/

/-- One function of the core library on both sides. -/
def Library.Built (c c' : Native σ) : Prop :=
  c = c' ∧ ∃ e ∈ (Library.core : Library σ).entries, e.body = c

theorem Object.Corresponds.mono {val val' : Value → Value → Prop}
    {code : Native σ → Native σ → Prop} {o o' : Object (Native σ)} (h : o.Corresponds val code o')
    (hval : ∀ v v', v ∈ o.references → v' ∈ o'.references → val v v' → val' v v') :
    o.Corresponds val' code o' := by
  cases h with
  | string => exact .string
  | list items => exact .list (items.mono_mem hval)
  | function name arity chunk =>
    exact .function name arity ⟨chunk.shape, chunk.constants.mono_mem hval⟩
  | native name arity body => exact .native name arity body

/-- Heaps with paired objects, which are alive and have the same contents up to pairs. -/
structure Heap.Pairs (β : Pairing) (h h' : Heap (Native σ)) : Prop where
  tidy : h.Tidy
  tidy' : h'.Tidy
  oneToOne : β.OneToOne
  object : ∀ {id id'}, β id id' → ∃ o o', h.get? id = some o ∧ h'.get? id' = some o' ∧
    o.Corresponds (Value.Mirrors β) Library.Built o'

namespace Heap.Pairs

variable {β : Pairing} {h h' n n' : Heap (Native σ)}

variable (hp : h.Pairs β h')

include hp

theorem symm : h'.Pairs (fun id' id => β id id') h where
  tidy := hp.tidy'
  tidy' := hp.tidy
  oneToOne := ⟨fun h₁ h₂ => hp.oneToOne.right h₁ h₂, fun h₁ h₂ => hp.oneToOne.left h₁ h₂⟩
  object hβ := by
    obtain ⟨o, o', ho, ho', hoo⟩ := hp.object hβ
    refine ⟨o', o, ho', ho, hoo.symm (fun _ _ hv => hv.symm) ?_⟩
    rintro c c' ⟨rfl, hc⟩
    exact ⟨rfl, hc⟩

/-- New objects with the same contents are paired. -/
theorem alloc {o o' : Object (Native σ)}
    (ho : o.Corresponds (Value.Mirrors β) Library.Built o') (hfits : (h.alloc o).2.Fits)
    (hfits' : (h'.alloc o').2.Fits) :
    (h.alloc o).2.Pairs (β.add (h.alloc o).1 (h'.alloc o').1) (h'.alloc o').2 where
  tidy := hp.tidy.alloc o
  tidy' := hp.tidy'.alloc o'
  oneToOne := by
    refine hp.oneToOne.add (fun id' hβ => ?_) fun id hβ => ?_
    · obtain ⟨x, -, hx, -⟩ := hp.object hβ
      rw [hp.tidy.get?_alloc_fresh hfits] at hx
      cases hx
    · obtain ⟨-, x', -, hx', -⟩ := hp.object hβ
      rw [hp.tidy'.get?_alloc_fresh hfits'] at hx'
      cases hx'
  object {id id'} hβ := by
    have hmore {x x' : Object (Native σ)} (hx : x.Corresponds (Value.Mirrors β) Library.Built x') :
        x.Corresponds (Value.Mirrors (β.add (h.alloc o).1 (h'.alloc o').1)) Library.Built x' :=
      hx.mono fun _ _ _ _ hv => hv.mono fun _ _ _ _ => .inl
    rcases hβ with hβ | ⟨rfl, rfl⟩
    · obtain ⟨x, x', hx, hx', hxx⟩ := hp.object hβ
      exact ⟨x, x', hp.tidy.get?_alloc_of_some hfits hx, hp.tidy'.get?_alloc_of_some hfits' hx',
        hmore hxx⟩
    · exact ⟨o, o', hp.tidy.get?_alloc_self hfits, hp.tidy'.get?_alloc_self hfits', hmore ho⟩

/-- An item of paired lists changes. -/
theorem setItem {id id' : ObjectId} (hβ : β id id') {i : Nat} {u u' : Value} (hu : u.Mirrors β u') :
    (h.modify id fun o => o.setItem i u).Pairs β (h'.modify id' fun o => o.setItem i u') where
  tidy := hp.tidy.modify id _
  tidy' := hp.tidy'.modify id' _
  oneToOne := hp.oneToOne
  object {x x'} hx := by
    obtain ⟨o, o', ho, ho', hoo⟩ := hp.object hx
    rw [Heap.get?_modify, Heap.get?_modify]
    by_cases heq : x = id
    · obtain rfl := heq
      obtain rfl := (hp.oneToOne.eq_iff hx hβ).1 rfl
      rw [if_pos rfl, if_pos rfl, ho, ho']
      refine ⟨_, _, rfl, rfl, ?_⟩
      cases hoo with
      | list items => exact .list (items.set i hu)
      | string => exact .string
      | function name arity chunk => exact .function name arity chunk
      | native name arity body => exact .native name arity body
    · have heq' : x' ≠ id' := fun heq' => heq ((hp.oneToOne.eq_iff hx hβ).2 heq')
      rw [if_neg heq, if_neg heq', ho, ho']
      exact ⟨o, o', rfl, rfl, hoo⟩

/-- Changes that leave objects alone. -/
theorem of_get? (htidy : n.Tidy) (htidy' : n'.Tidy) (hget : ∀ id, n.get? id = h.get? id)
    (hget' : ∀ id, n'.get? id = h'.get? id) : n.Pairs β n' where
  tidy := htidy
  tidy' := htidy'
  oneToOne := hp.oneToOne
  object {id id'} hβ := by
    rw [hget, hget']
    exact hp.object hβ

end Heap.Pairs

/-! ## Collections -/

/-- A machine that has lost some of its objects: neither pinned ones, nor such as its roots or other
objects that are left lead to. -/
structure Machine.Thins (m n : Machine σ) (keep : ObjectId → Prop) : Prop where
  eq : n = { m with heap := n.heap }
  size : n.heap.slots.size = m.heap.slots.size
  tidy : m.heap.Tidy → n.heap.Tidy
  pins : ∀ id, n.heap.pins id = m.heap.pins id
  get? : ∀ id o, n.heap.get? id = some o ↔ m.heap.get? id = some o ∧ keep id
  root : ∀ {v id o}, v ∈ m.roots → v.asObject? = some id → m.heap.get? id = some o → keep id
  pinned : ∀ {id}, 0 < m.heap.pins id → keep id
  child : ∀ {id o c o'}, m.heap.Tidy → keep id → m.heap.get? id = some o → c ∈ o.children →
    m.heap.get? c = some o' → keep c

namespace Machine

variable {m m' n n' : Machine σ} {β : Pairing} {held held' : List Value}

theorem Thins.refl (m : Machine σ) : m.Thins m fun _ => True where
  eq := rfl
  size := rfl
  tidy := id
  pins _ := rfl
  get? _ _ := (and_true _).symm ▸ Iff.rfl
  root _ _ _ := trivial
  pinned _ := trivial
  child _ _ _ _ _ := trivial

theorem thins_collect (m : Machine σ) : m.Thins m.collect.2 (m.heap.Kept m.roots) where
  eq := rfl
  size := m.heap.size_collect m.roots
  tidy ht := ht.collect m.roots
  pins id := m.heap.pins_collect_eq m.roots id
  get? _ _ := Heap.get?_collect_eq_some_iff
  root hv hid ho := Heap.kept_of_mem_roots hv hid ho
  pinned hp := Heap.kept_of_pinned hp
  child ht hk ho hc ho' := ht.kept_of_child hk ho hc ho'

theorem thins_collectGarbage (m : Machine σ) : ∃ keep, m.Thins m.collectGarbage.2 keep := by
  unfold collectGarbage
  split
  · exact ⟨_, .refl m⟩
  · exact ⟨_, m.thins_collect⟩

theorem thins_safePoint (m : Machine σ) : ∃ keep, m.Thins m.safePoint keep := by
  unfold safePoint
  split
  · exact ⟨_, m.thins_collect⟩
  · exact ⟨_, .refl m⟩

/-! ## Machines -/

/-- Machines with paired objects, whose variables, stacks and calls are the same up to pairs. So are
the results that their hosts hold, each of which has its pin. -/
structure Mirrors (held held' : List Value) (β : Pairing) (m m' : Machine σ) : Prop where
  heap : m.heap.Pairs β m'.heap
  global : ∀ slot, Option.Rel (Value.Mirrors β) (m.globals.get? slot) (m'.globals.get? slot)
  stack : Pointwise (Value.Mirrors β) m.stack m'.stack
  frames : Pointwise (Frame.Corresponds (Value.Mirrors β)) m.frames m'.frames
  results : List.Forall₂ (Value.Mirrors β) held held'
  pins : ∀ id, held.countP (·.refersTo id) ≤ m.heap.pins id
  pins' : ∀ id, held'.countP (·.refersTo id) ≤ m'.heap.pins id

namespace Mirrors

/-- Every pin that the host holds is on an object. -/
theorem pins_pos {heap : Heap (Native σ)} {v : Value} {id : ObjectId}
    (hpins : held.countP (·.refersTo id) ≤ heap.pins id) (hv : v ∈ held)
    (hid : v.asObject? = some id) : 0 < heap.pins id :=
  Nat.lt_of_lt_of_le (List.countP_pos_iff.2 ⟨v, hv, Value.refersTo_iff.2 hid⟩) hpins

variable (h : m.Mirrors held held' β m')

include h

/-- **Collections on either side leave machines that mirror each other.** -/
theorem thin {keep keep' : ObjectId → Prop} (hn : m.Thins n keep)
    (hn' : m'.Thins n' keep') : n.Mirrors held held' (β.keep keep keep') n' := by
  -- what the roots lead to is kept on both sides
  have hroot {v v' : Value} (hv : v ∈ m.roots) (hv' : v' ∈ m'.roots) (hvv : v.Mirrors β v') :
      v.Mirrors (β.keep keep keep') v' := by
    refine hvv.mono fun id id' hid hid' hβ => ?_
    obtain ⟨o, o', ho, ho', -⟩ := h.heap.object hβ
    exact ⟨hβ, hn.root hv hid ho, hn'.root hv' hid' ho'⟩
  have hglobals : n.globals = m.globals ∧ n'.globals = m'.globals := ⟨by rw [hn.eq], by rw [hn'.eq]⟩
  have hstack : n.stack = m.stack ∧ n'.stack = m'.stack := ⟨by rw [hn.eq], by rw [hn'.eq]⟩
  have hframes : n.frames = m.frames ∧ n'.frames = m'.frames := ⟨by rw [hn.eq], by rw [hn'.eq]⟩
  refine ⟨⟨hn.tidy h.heap.tidy, hn'.tidy h.heap.tidy', h.heap.oneToOne.keep _ _, ?_⟩,
    fun slot => ?_, ?_, ?_, ?_, fun id => ?_, fun id => ?_⟩
  · rintro id id' ⟨hβ, hk, hk'⟩
    obtain ⟨o, o', ho, ho', hoo⟩ := h.heap.object hβ
    refine ⟨o, o', (hn.get? _ _).2 ⟨ho, hk⟩, (hn'.get? _ _).2 ⟨ho', hk'⟩,
      hoo.mono fun v v' hv hv' hvv => ?_⟩
    refine hvv.mono fun c c' hc hc' hβc => ?_
    obtain ⟨x, x', hx, hx', -⟩ := h.heap.object hβc
    exact ⟨hβc,
      hn.child h.heap.tidy hk ho (List.mem_filterMap.2 ⟨v, Array.mem_toList_iff.2 hv, hc⟩) hx,
      hn'.child h.heap.tidy' hk' ho' (List.mem_filterMap.2 ⟨v', Array.mem_toList_iff.2 hv', hc'⟩)
        hx'⟩
  · rw [hglobals.1, hglobals.2]
    exact rel_mono (h.global slot) fun v v' hv hv' =>
      hroot (Policy.mem_roots.2 (.inl (Globals.mem_values_of_get? hv)))
        (Policy.mem_roots.2 (.inl (Globals.mem_values_of_get? hv')))
  · rw [hstack.1, hstack.2]
    exact h.stack.mono_mem fun v v' hv hv' hvv =>
      hroot (Policy.mem_roots.2 (.inr (.inr (.inl hv))))
        (Policy.mem_roots.2 (.inr (.inr (.inl hv')))) hvv
  · rw [hframes.1, hframes.2]
    refine h.frames.mono_mem fun f f' hf hf' hff => ⟨⟨hff.chunk.shape, ?_⟩, hff.pc, hff.base⟩
    exact hff.chunk.constants.mono_mem fun v v' hv hv' hvv =>
      hroot (Policy.mem_roots.2 (.inr (.inr (.inr ⟨f, hf, hv⟩))))
        (Policy.mem_roots.2 (.inr (.inr (.inr ⟨f', hf', hv'⟩)))) hvv
  · refine forall₂_mono_mem h.results fun v v' hv hv' hvv => hvv.mono fun id id' hid hid' hβ => ?_
    exact ⟨hβ, hn.pinned (pins_pos (h.pins id) hv hid),
      hn'.pinned (pins_pos (h.pins' id') hv' hid')⟩
  · rw [hn.pins]
    exact h.pins id
  · rw [hn'.pins]
    exact h.pins' id

/-- New objects with the same contents are paired. -/
theorem alloc {o o' : Object (Native σ)} (ho : o.Corresponds (Value.Mirrors β) Library.Built o')
    (hfits : (m.heap.alloc o).2.Fits) (hfits' : (m'.heap.alloc o').2.Fits) :
    (m.alloc o).2.Mirrors held held' (β.add (m.heap.alloc o).1 (m'.heap.alloc o').1)
      (m'.alloc o').2 := by
  have hmore {v v' : Value} (hv : v.Mirrors β v') :
      v.Mirrors (β.add (m.heap.alloc o).1 (m'.heap.alloc o').1) v' :=
    hv.mono fun _ _ _ _ => .inl
  refine ⟨h.heap.alloc ho hfits hfits', fun slot => rel_mono (h.global slot) fun _ _ _ _ => hmore,
    h.stack.mono fun _ _ => hmore, h.frames.mono fun _ _ hf => hf.mono fun _ _ => hmore,
    h.results.imp fun _ _ => hmore, fun id => ?_, fun id => ?_⟩
  · exact Nat.le_trans (h.pins id) (Nat.le_of_eq (h.heap.tidy.pins_alloc hfits id).symm)
  · exact Nat.le_trans (h.pins' id) (Nat.le_of_eq (h.heap.tidy'.pins_alloc hfits' id).symm)

/-- An item of paired lists changes. -/
theorem setItem {id id' : ObjectId} (hβ : β id id') {i : Nat} {u u' : Value} (hu : u.Mirrors β u') :
    Mirrors held held' β { m with heap := m.heap.modify id fun o => o.setItem i u }
      { m' with heap := m'.heap.modify id' fun o => o.setItem i u' } :=
  { h with
    heap := h.heap.setItem hβ hu
    pins := fun x => Nat.le_trans (h.pins x) (Nat.le_of_eq (m.heap.pins_modify id _ x).symm)
    pins' := fun x => Nat.le_trans (h.pins' x) (Nat.le_of_eq (m'.heap.pins_modify id' _ x).symm) }

end Mirrors

end Machine

/-! ## Variables -/

namespace Globals

variable {g g' : Globals}

theorem get?_set? {slot : Nat} {v : Value} (h : g.set? slot v = some g') (i : Nat) :
    g'.get? i = if slot = i then some v else g.get? i := by
  unfold set? at h
  split at h
  · rename_i hlt
    cases h
    unfold get? modify
    rw [Array.getElem?_modify]
    by_cases heq : slot = i
    · rw [if_pos heq, if_pos heq, ← heq, Array.getElem?_eq_getElem hlt]
      rfl
    · rw [if_neg heq, if_neg heq]
  · cases h

theorem get?_declare (g : Globals) (name : String) (i : Nat) :
    (g.declare name).get? i = g.get? i := by
  unfold declare
  split
  · rfl
  · unfold get? add
    rw [Array.getElem?_push]
    by_cases heq : i = g.slots.size
    · rw [if_pos heq, heq, Array.getElem?_eq_none (Nat.le_refl _)]
    · rw [if_neg heq]

/-- New variables have no values. -/
theorem get?_foldl_declare (news : List String) (g : Globals) (i : Nat) :
    (news.foldl declare g).get? i = g.get? i := by
  induction news generalizing g with
  | nil => rfl
  | cons name news ih => rw [List.foldl_cons, ih, get?_declare]

theorem names_declare_congr (h : g.names = g'.names) (name : String) :
    (g.declare name).names = (g'.declare name).names := by
  have hslot : g.slot? name = g'.slot? name := by rw [slot?_eq, slot?_eq, h]
  cases hold : g.slot? name with
  | some slot => rwa [declare_of_some hold, declare_of_some (hslot ▸ hold)]
  | none =>
    rw [declare_of_none hold, declare_of_none (hslot ▸ hold), names_add, names_add, h]

/-- A built-in variable has its value, whatever other variables there are. -/
theorem get?_defineBuiltin (g : Globals) (name : String) (v : Value) (i : Nat) :
    (g.defineBuiltin name v).get? i = if (g.declare name).slot? name = some i then some v
      else g.get? i := by
  rw [← get?_declare g name i]
  unfold defineBuiltin
  dsimp only
  generalize g.declare name = g
  cases hslot : g.slot? name with
  | none => rfl
  | some j =>
    have hj := lt_size_of_slot? hslot
    dsimp only
    unfold get? modify
    rw [Array.getElem?_modify]
    by_cases heq : j = i
    · rw [if_pos heq, if_pos (congrArg some heq), ← heq, Array.getElem?_eq_getElem hj]
      rfl
    · rw [if_neg heq, if_neg fun h => heq (Option.some.inj h)]

theorem names_defineBuiltin_congr (h : g.names = g'.names) (name : String) (v v' : Value) :
    (g.defineBuiltin name v).names = (g'.defineBuiltin name v').names := by
  have hdeclare := names_declare_congr h name
  have hslot : (g.declare name).slot? name = (g'.declare name).slot? name := by
    rw [slot?_eq, slot?_eq, hdeclare]
  unfold defineBuiltin
  dsimp only
  rw [hslot]
  split
  · rename_i i _
    have hmodify (g : Globals) (v : Value) :
        (g.modify i (fun s => { s with value := some v, builtin := true }) fun _ => rfl).names =
          g.names.modify i fun s => (s.1, true) := by
      refine List.ext_getElem? fun k => ?_
      simp only [names, modify, List.getElem?_map, Array.getElem?_toList, Array.getElem?_modify,
        List.getElem?_modify]
      by_cases heq : i = k
      · simp [heq, Function.comp_def]
      · simp [heq]
    rw [hmodify, hmodify, hdeclare]
  · exact hdeclare

theorem names_foldl_declare_congr (h : g.names = g'.names) (news : List String) :
    (news.foldl declare g).names = (news.foldl declare g').names := by
  induction news generalizing g g' with
  | nil => exact h
  | cons name news ih => exact ih (names_declare_congr h name)

end Globals

/-! ## Twins -/

/-- What a machine shows besides its values. How it collects garbage is left out. -/
structure Face where
  options : Options
  names : List (String × Bool)
  imports : List (String × Nat)
  report : String
  message : String
  output : String
  inEval : Bool
  nativeDepth : Nat

/-- What a machine shows besides its values. -/
def Machine.face (m : Machine σ) : Face where
  options := { m.options with gcStepObjects := 0, collectOnRelease := false }
  names := m.globals.names
  imports := m.imports
  report := m.report
  message := m.message
  output := m.output
  inEval := m.inEval
  nativeDepth := m.nativeDepth

/-- What twins have in common beyond what they show. -/
def Machine.contents (m : Machine σ) :
    Heap (Native σ) × Globals × Array Value × Array Frame × Registry (Loader σ) :=
  (m.heap, m.globals, m.stack, m.frames, m.modules)

/-- Machines without modules that show the same, and mirror each other as long as addresses do not
run out. -/
structure Machine.Twins (held held' : List Value) (β : Pairing) (m m' : Machine σ) : Prop where
  face : m.face = m'.face
  modules : m.modules.entries = #[]
  modules' : m'.modules.entries = #[]
  mirrors : m.heap.Fits → m'.heap.Fits → m.Mirrors held held' β m'

namespace Machine.Twins

variable {m m' n n' : Machine σ} {β : Pairing} {held held' : List Value}

variable (h : m.Twins held held' β m')

include h

/-- New objects with the same contents are paired. -/
theorem alloc {o o' : Object (Native σ)} (ho : o.Corresponds (Value.Mirrors β) Library.Built o') :
    (m.alloc o).2.Twins held held' (β.add (m.heap.alloc o).1 (m'.heap.alloc o').1)
      (m'.alloc o').2 :=
  ⟨h.face, h.modules, h.modules', fun hfits hfits' =>
    (h.mirrors (hfits.of_le (m.heap.size_le_alloc o))
      (hfits'.of_le (m'.heap.size_le_alloc o'))).alloc ho hfits hfits'⟩

/-- Changes of what is shown. -/
theorem of_contents (hface : n.face = n'.face) (hn : n.contents = m.contents)
    (hn' : n'.contents = m'.contents) : n.Twins held held' β n' := by
  simp only [contents, Prod.mk.injEq] at hn hn'
  obtain ⟨hheap, hglobals, hstack, hframes, hmodules⟩ := hn
  obtain ⟨hheap', hglobals', hstack', hframes', hmodules'⟩ := hn'
  refine ⟨hface, hmodules ▸ h.modules, hmodules' ▸ h.modules', fun hf hf' => ?_⟩
  have hmirrors := h.mirrors (hheap ▸ hf) (hheap' ▸ hf')
  constructor
  · rw [hheap, hheap']
    exact hmirrors.heap
  · rw [hglobals, hglobals']
    exact hmirrors.global
  · rw [hstack, hstack']
    exact hmirrors.stack
  · rw [hframes, hframes']
    exact hmirrors.frames
  · exact hmirrors.results
  · rw [hheap]
    exact hmirrors.pins
  · rw [hheap']
    exact hmirrors.pins'

theorem thin {keep keep' : ObjectId → Prop} (hn : m.Thins n keep)
    (hn' : m'.Thins n' keep') : n.Twins held held' (β.keep keep keep') n' := by
  refine ⟨?_, ?_, ?_, fun hfits hfits' => ?_⟩
  · rw [hn.eq, hn'.eq]
    exact h.face
  · rw [hn.eq]
    exact h.modules
  · rw [hn'.eq]
    exact h.modules'
  · exact (h.mirrors (hfits.of_le (Nat.le_of_eq hn.size.symm))
      (hfits'.of_le (Nat.le_of_eq hn'.size.symm))).thin hn hn'

end Machine.Twins

/-- **Twins take corresponding steps.** -/
def Lockstep.mirror (held held' : List Value) : Lockstep σ where
  World := Pairing
  val := Value.Mirrors
  rel := Machine.Twins held held'
  code := Library.Built
  fits h h' := h.Fits ∧ h'.Fits
  val_of_asObject?_eq_none := .simple
  val_cases h := h.cases.imp_right fun ⟨id, id', hid, hid', _⟩ => ⟨id, id', hid, hid'⟩
  val_eq_iff h hf hu hv := hu.eq_iff (h.mirrors hf.1 hf.2).heap.oneToOne hv
  stack h hf := (h.mirrors hf.1 hf.2).stack
  frames h hf := (h.mirrors hf.1 hf.2).frames
  global h hf := (h.mirrors hf.1 hf.2).global
  object? {w m m' v v'} h hf hv := by
    unfold Machine.object?
    obtain ⟨rfl, hid⟩ | ⟨id, id', hid, hid', hβ⟩ := hv.cases
    · rw [hid]
      exact .none
    · obtain ⟨o, o', ho, ho', hoo⟩ := (h.mirrors hf.1 hf.2).heap.object hβ
      rw [hid, hid']
      dsimp only
      rw [ho, ho']
      exact .some hoo
  names h := congrArg Face.names h.face
  limits h := ⟨congrArg (·.options.maxStackSize) h.face, congrArg (·.options.maxCallDepth) h.face⟩
  setMessage h message :=
    h.of_contents (congrArg (fun f : Face => { f with message }) h.face) rfl rfl
  setCalls h hs hfr := ⟨h.face, h.modules, h.modules',
    fun hf hf' => { h.mirrors hf hf' with stack := hs, frames := hfr }⟩
  setGlobal {w m m' v v' slot globals globals'} h hv hg hg' := by
    refine ⟨?_, h.modules, h.modules',
      fun hf hf' => { h.mirrors hf hf' with global := fun i => ?_ }⟩
    · have hnames : globals.names = globals'.names := by
        rw [Globals.names_set? hg, Globals.names_set? hg']
        exact congrArg Face.names h.face
      have hface := congrArg (fun f : Face => { f with names := globals.names }) h.face
      exact hface.trans (by rw [hnames]; rfl)
    · dsimp only
      rw [Globals.get?_set? hg, Globals.get?_set? hg']
      split
      · exact .some hv
      · exact (h.mirrors hf hf').global i
  setItem {w m m' v v' id id'} h hf hv hid hid' _ _ _ hu := by
    have hβ : w id id' := by
      obtain ⟨x', hx', hβ⟩ := hv.exists_of_asObject? hid
      obtain rfl := Option.some.inj (hx'.symm.trans hid')
      exact hβ
    exact ⟨h.face, h.modules, h.modules', fun _ _ => (h.mirrors hf.1 hf.2).setItem hβ hu⟩
  newString h s :=
    ⟨_, fun _ _ hv => hv.mono fun _ _ _ _ => .inl, h.alloc .string, .object (.inr ⟨rfl, rfl⟩)⟩
  newList h hxs :=
    ⟨_, fun _ _ hv => hv.mono fun _ _ _ _ => .inl, h.alloc (.list hxs), .object (.inr ⟨rfl, rfl⟩)⟩
  safePoint {w m m'} h := by
    obtain ⟨keep, hkeep⟩ := m.thins_safePoint
    obtain ⟨keep', hkeep'⟩ := m'.thins_safePoint
    exact ⟨_, h.thin hkeep hkeep'⟩

/-- **Twins compile to corresponding code.** -/
def Link.mirror (held held' : List Value) : Link σ where
  World := Pairing
  le β β' := ∀ id id', β id id' → β' id id'
  val := Value.Mirrors
  rel := Machine.Twins held held'
  reach _ := 0
  le_refl _ _ _ h := h
  le_trans h h' id id' hβ := h' id id' (h id id' hβ)
  val_mono h hv := hv.mono fun id id' _ _ => h id id'
  val_number _ x := .simple (Value.asObject?_ofDouble x)
  names h := congrArg Face.names h.face
  imports h := congrArg Face.imports h.face
  lookup h name := by
    unfold Registry.lookup Registry.index?
    rw [h.modules, h.modules']
  function? h index name := by
    unfold Registry.function?
    rw [h.modules, h.modules']
    exact .none
  string h s := ⟨_, fun _ _ => .inl, Nat.le_refl _, h.alloc .string, .object (.inr ⟨rfl, rfl⟩)⟩
  function {β m m' d d' globals} h hd := by
    exact ⟨_, fun _ _ => .inl, Nat.zero_le _,
      h.alloc (.function hd.name hd.params (hd.corresponds faithful_mirrors)),
      .object (.inr ⟨rfl, rfl⟩)⟩
  commit {β m m' b} h := by
    refine ⟨?_, h.modules, h.modules',
      fun hf hf' => { h.mirrors hf hf' with global := fun i => ?_ }⟩
    · have hnames : (Compile.commit b m).globals.names = (Compile.commit b m').globals.names :=
        Globals.names_foldl_declare_congr (congrArg Face.names h.face) b.newGlobals
      have himports : (Compile.commit b m).imports = (Compile.commit b m').imports := by
        unfold Compile.commit
        rw [show m.imports = m'.imports from congrArg Face.imports h.face]
      have hface := congrArg (fun f : Face => { f with
        names := (Compile.commit b m).globals.names, imports :=
          (Compile.commit b m).imports }) h.face
      exact hface.trans (by rw [hnames, himports]; rfl)
    · show Option.Rel _ ((b.newGlobals.foldl Globals.declare m.globals).get? i)
        ((b.newGlobals.foldl Globals.declare m'.globals).get? i)
      rw [Globals.get?_foldl_declare, Globals.get?_foldl_declare]
      exact (h.mirrors hf hf').global i

end ScriptMachine
