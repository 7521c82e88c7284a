import ScriptMachine.Proofs.Lockstep
import ScriptMachine.Proofs.Steps
/-!
# Invariants of execution

A property of machines is kept by every instruction if it is kept by the few changes that
instructions make. This is a machine in lockstep with itself.

* `Invariant`: a property that these changes keep, with the values that are known to be sound under
  it;
* `Invariant.leaves_step`: **every instruction keeps it**;
* `Invariant.leaves_resume`: so does the return of a native function.
-/

namespace ScriptMachine

variable {σ : Type}

/-- A property of machines that the changes made by instructions keep. Worlds tell which values are
known; what a machine looks like is known only as long as its heap `fits`. -/
structure Invariant (σ : Type) where
  World : Type
  knows : World → Value → Prop
  holds : World → Machine σ → Prop
  /-- The native functions that may be called. -/
  code : Native σ → Prop
  fits : Heap (Native σ) → Prop
  knows_of_asObject?_eq_none : ∀ {w v}, v.asObject? = none → knows w v
  stack : ∀ {w m}, holds w m → fits m.heap → ∀ v ∈ m.stack, knows w v
  constants : ∀ {w m}, holds w m → fits m.heap → ∀ f ∈ m.frames, ∀ v ∈ f.chunk.constants, knows w v
  global : ∀ {w m slot v}, holds w m → fits m.heap → m.globals.get? slot = some v → knows w v
  references : ∀ {w m v o}, holds w m → fits m.heap → knows w v → m.object? v = some o →
    ∀ u ∈ o.references, knows w u
  native : ∀ {w m v f}, holds w m → fits m.heap → knows w v → m.object? v = some (.native f) →
    code f.code
  setMessage : ∀ {w m}, holds w m → ∀ message, holds w { m with message }
  setCalls : ∀ {w m stack frames}, holds w m → (∀ v ∈ stack, knows w v) →
    (∀ f ∈ frames, ∀ v ∈ f.chunk.constants, knows w v) → holds w { m with stack, frames }
  setGlobal : ∀ {w m v slot globals}, holds w m → knows w v → m.globals.set? slot v = some globals →
    holds w { m with globals }
  setItem : ∀ {w m v id}, holds w m → fits m.heap → knows w v → v.asObject? = some id →
    ∀ {i u}, knows w u → holds w { m with heap := m.heap.modify id fun o => o.setItem i u }
  newString : ∀ {w m}, holds w m → ∀ s, ∃ w', (∀ v, knows w v → knows w' v) ∧
    holds w' (m.alloc (.string s)).2 ∧ knows w' (m.alloc (.string s)).1
  newList : ∀ {w m xs}, holds w m → (∀ v ∈ xs, knows w v) → ∃ w', (∀ v, knows w v → knows w' v) ∧
    holds w' (m.alloc (.list xs)).2 ∧ knows w' (m.alloc (.list xs)).1
  safePoint : ∀ {w m}, holds w m → ∃ w', holds w' m.safePoint

theorem Pointwise.mem {α : Type} {p : α → Prop} {xs ys : Array α}
    (h : Pointwise (fun a b => a = b ∧ p a) xs ys) : xs = ys ∧ ∀ a ∈ xs, p a := by
  constructor
  · refine Array.ext_getElem? fun i => ?_
    obtain ⟨hx, hy⟩ | ⟨a, b, hx, hy, rfl, -⟩ := rel_cases (h i) <;> rw [hx, hy]
  · intro a ha
    obtain ⟨i, hi⟩ := Array.mem_iff_getElem?.1 ha
    obtain ⟨hx, -⟩ | ⟨a', b, hx, -, -, hp⟩ := rel_cases (h i)
    · rw [hi] at hx
      cases hx
    · rw [hi] at hx
      exact Option.some.inj hx ▸ hp

theorem Frame.Corresponds.mem {p : Value → Prop} {frames frames' : Array Frame}
    (h : Pointwise (Frame.Corresponds fun v v' => v = v' ∧ p v) frames frames') :
    frames = frames' ∧ ∀ f ∈ frames, ∀ v ∈ f.chunk.constants, p v := by
  refine Pointwise.mem (h.mono fun f f' hf => ?_)
  obtain ⟨⟨hshape, hconstants⟩, hpc, hbase⟩ := hf
  obtain ⟨heq, hp⟩ := Pointwise.mem hconstants
  have hchunk : f.chunk = f'.chunk := by
    rw [hshape, ← heq]
  refine ⟨?_, hp⟩
  cases f
  cases f'
  simp only [Frame.mk.injEq]
  exact ⟨hchunk, hpc, hbase⟩

namespace Invariant

variable (I : Invariant σ)

/-- A machine in lockstep with itself. -/
def lockstep : Lockstep σ where
  World := I.World
  val w v v' := v = v' ∧ I.knows w v
  rel w m m' := m = m' ∧ I.holds w m
  code c c' := c = c' ∧ I.code c
  fits h _ := I.fits h
  val_of_asObject?_eq_none hv := ⟨rfl, I.knows_of_asObject?_eq_none hv⟩
  val_cases {_ v _} h := by
    obtain ⟨rfl, -⟩ := h
    cases hv : v.asObject? with
    | none => exact .inl ⟨rfl, rfl⟩
    | some id => exact .inr ⟨id, id, rfl, rfl⟩
  val_eq_iff _ _ hu hv := by rw [hu.1, hv.1]
  stack {w m m'} h hf := by
    obtain ⟨rfl, h⟩ := h
    exact .refl fun v hv => ⟨rfl, I.stack h hf v hv⟩
  frames {w m m'} h hf := by
    obtain ⟨rfl, h⟩ := h
    exact .refl fun f hfr => ⟨.refl fun v hv => ⟨rfl, I.constants h hf f hfr v hv⟩, rfl, rfl⟩
  global {w m m'} h hf slot := by
    obtain ⟨rfl, h⟩ := h
    cases hv : m.globals.get? slot with
    | none => exact .none
    | some v => exact .some ⟨rfl, I.global h hf hv⟩
  object? {w m m' v v'} h hf hv := by
    obtain ⟨rfl, h⟩ := h
    obtain ⟨rfl, hv⟩ := hv
    cases ho : m.object? v with
    | none => exact .none
    | some o =>
      refine .some (.refl (fun u hu => ⟨rfl, I.references h hf hv ho u hu⟩) ?_)
      rintro f rfl
      exact ⟨rfl, I.native h hf hv ho⟩
  names h := by rw [h.1]
  limits h := by rw [h.1]; exact ⟨rfl, rfl⟩
  setMessage h message := ⟨by rw [h.1], I.setMessage h.2 message⟩
  setCalls h hs hfr := by
    obtain ⟨rfl, h⟩ := h
    obtain ⟨rfl, hstack⟩ := hs.mem
    obtain ⟨rfl, hframes⟩ := Frame.Corresponds.mem hfr
    exact ⟨rfl, I.setCalls h hstack hframes⟩
  setGlobal h hv hg hg' := by
    obtain ⟨rfl, h⟩ := h
    obtain ⟨rfl, hv⟩ := hv
    obtain rfl := Option.some.inj (hg.symm.trans hg')
    exact ⟨rfl, I.setGlobal h hv hg⟩
  setItem h hf hv hid hid' _ _ _ hu := by
    obtain ⟨rfl, h⟩ := h
    obtain ⟨rfl, hv⟩ := hv
    obtain ⟨rfl, hu⟩ := hu
    obtain rfl := Option.some.inj (hid.symm.trans hid')
    exact ⟨rfl, I.setItem h hf hv hid hu⟩
  newString h s := by
    obtain ⟨rfl, h⟩ := h
    obtain ⟨w', hle, hw', hnew⟩ := I.newString h s
    exact ⟨w', fun v _ hv => ⟨hv.1, hle v hv.2⟩, ⟨rfl, hw'⟩, rfl, hnew⟩
  newList h hxs := by
    obtain ⟨rfl, h⟩ := h
    obtain ⟨rfl, hitems⟩ := hxs.mem
    obtain ⟨w', hle, hw', hnew⟩ := I.newList h hitems
    exact ⟨w', fun v _ hv => ⟨hv.1, hle v hv.2⟩, ⟨rfl, hw'⟩, rfl, hnew⟩
  safePoint h := by
    obtain ⟨rfl, h⟩ := h
    obtain ⟨w', hw'⟩ := I.safePoint h
    exact ⟨w', rfl, hw'⟩

variable (I : Invariant σ)

/-- What is left by a step: a machine with the property, a result or arguments that are known, and a
function that may be called. -/
def Leaves : Step σ → Prop
  | .next m | .failed _ m => ∃ w, I.holds w m
  | .done v m => ∃ w, I.holds w m ∧ I.knows w v
  | .native f args _ m => ∃ w, I.holds w m ∧ I.code f.code ∧ ∀ v ∈ args, I.knows w v

variable {I} {w : I.World} {m : Machine σ}

theorem Leaves.machine {s : Step σ} (h : I.Leaves s) : ∃ w, I.holds w s.machine := by
  cases s with
  | next n | failed f n => exact h
  | done v n | native f args callee n => exact h.imp fun _ h => h.1

theorem leaves_of_takes {s s' : Step σ} (h : I.lockstep.Takes s s') : I.Leaves s := by
  cases h with
  | next h | failed h => exact ⟨_, h.2⟩
  | done hv h => exact ⟨_, h.2, hv.2⟩
  | native _ code operands h =>
    exact ⟨_, h.2, code.2, fun v hv => operands.mem.2 v (Array.mem_toList_iff.1 hv)⟩

/-- **Every instruction keeps an invariant.** -/
theorem leaves_step (h : I.holds w m) (hf : I.fits m.heap) (entry : Nat) :
    I.Leaves (m.step entry) :=
  leaves_of_takes (Lockstep.takes_step (R := I.lockstep) ⟨rfl, h⟩ hf entry)

/-- Results of native functions are refused, unless they are known. -/
theorem leaves_resume (h : I.holds w m) (hf : I.fits m.heap) (name : String) (callee : Nat)
    {v : Value} (hv : (m.object? v).isSome → I.knows w v) :
    I.Leaves (.ofChecked (m.resume name callee v)) := by
  by_cases hknown : I.knows w v
  · exact leaves_of_takes
      (Lockstep.checks_resume (R := I.lockstep) ⟨rfl, h⟩ hf name callee ⟨rfl, hknown⟩
        fun _ => rfl).takes
  · have hdead : ¬ (m.object? v).isSome := fun hlive => hknown (hv hlive)
    unfold Machine.resume
    cases hid : v.asObject? with
    | none => exact absurd (I.knows_of_asObject?_eq_none hid) hknown
    | some id =>
      have hfreed : m.heap.contains id = false := by
        rw [Heap.contains_eq_isSome_get?]
        simpa [Machine.object?, hid] using hdead
      simp only [hfreed, Value.isInterrupt_of_asObject? hid, Bool.not_false, if_true,
        Bool.false_eq_true, if_false]
      exact ⟨w, I.setMessage h _⟩

end Invariant

end ScriptMachine
