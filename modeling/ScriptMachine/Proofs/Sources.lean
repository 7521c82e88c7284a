import ScriptMachine.Proofs.Heap
import ScriptMachine.Proofs.Match
/-!
# Where functions come from

Functions get on the heap only when a program is compiled, so each of them has the code of a
declaration.

* `Heap.Sourced`: all functions on a heap have the code of a declaration whose slots are in bounds.
-/

namespace ScriptMachine

/-- The code of a declaration. -/
def ScriptFunction.Declared (f : ScriptFunction) : Prop :=
  ∃ (d : Core.Func) (globals : Nat), d.Scoped globals ∧ d.script = f

namespace Heap

variable {ν : Type} {h : Heap ν} {o : Object ν}

/-- Every function on the heap has the code of a declaration. -/
def Sourced (h : Heap ν) : Prop := ∀ id f, h.get? id = some (.function f) → f.Declared

theorem Sourced.empty : ({} : Heap ν).Sourced := by
  intro id f hf
  simp [get?, slot?] at hf

variable (hs : h.Sourced)

include hs

/-- Looking up the same functions keeps a heap sourced. -/
theorem Sourced.of_get? {h' : Heap ν}
    (hget : ∀ id f, h'.get? id = some (.function f) → ∃ id', h.get? id' = some (.function f)) :
    h'.Sourced := by
  intro id f hf
  obtain ⟨id', hf'⟩ := hget id f hf
  exact hs id' f hf'

theorem Sourced.alloc (ho : ∀ f, o = .function f → f.Declared) : (h.alloc o).2.Sourced := by
  intro id f hf
  rcases get?_alloc_cases hf with hf | hf
  · exact ho f hf.symm
  · exact hs id f hf

theorem Sourced.modify_setItem (id : ObjectId) (i : Nat) (v : Value) :
    (h.modify id fun o => o.setItem i v).Sourced := by
  refine hs.of_get? fun id' f hf => ⟨id', ?_⟩
  rw [get?_modify] at hf
  split at hf
  · rename_i hid
    obtain ⟨o, ho, hset⟩ := Option.map_eq_some_iff.1 hf
    rw [hid, ho]
    cases o <;> simp_all [Object.setItem]
  · exact hf

theorem Sourced.pin (id : ObjectId) : (h.pin id).2.Sourced :=
  hs.of_get? fun id' f hf => ⟨id', by rwa [get?_pin] at hf⟩

theorem Sourced.unpin (id : ObjectId) : (h.unpin id).2.Sourced :=
  hs.of_get? fun id' f hf => ⟨id', by rwa [get?_unpin] at hf⟩

theorem Sourced.collect (roots : List Value) : (h.collect roots).2.Sourced :=
  hs.of_get? fun id' _ hf => ⟨id', (get?_collect_eq_some_iff.1 hf).1⟩

end Heap

end ScriptMachine
