import ScriptMachine.Value
/-!
# Global variables

The variables that all programs on one machine share. A variable gets a slot when a program that
assigns to it is compiled, and a value when the assignment runs. Built-in functions are variables
that scripts cannot assign to.
-/

namespace ScriptMachine

structure GlobalSlot where
  name : String
  /-- No value before the first assignment. -/
  value : Option Value := none
  builtin : Bool := false
  deriving DecidableEq, Inhabited, Repr

/-- The global variables by slot, with an index by name. -/
structure Globals where
  slots : Array GlobalSlot
  /-- The slots of the names. -/
  byName : List (String × Nat)
  /-- A name is in the index exactly if a search of the slots finds it, and with this slot. -/
  indexed : ∀ name, byName.lookup name = slots.findIdx? (·.name == name)
  deriving Repr

namespace Globals

def empty : Globals := { slots := #[], byName := [], indexed := by simp }

instance : Inhabited Globals := ⟨empty⟩

def size (g : Globals) : Nat := g.slots.size

def slot? (g : Globals) (name : String) : Option Nat := g.byName.lookup name

/-- Adds a variable of a new name, in the slot behind all others. -/
def add (g : Globals) (name : String) (hnew : g.slot? name = none) : Globals where
  slots := g.slots.push { name }
  byName := (name, g.slots.size) :: g.byName
  indexed key := by
    rw [List.lookup_cons, Array.findIdx?_push, ← g.indexed key]
    by_cases hkey : key = name
    · rw [hkey, show g.byName.lookup name = none from hnew]
      simp
    · simp [beq_eq_false_iff_ne.2 hkey, Ne.symm hkey]

/-- Changes a variable, but not its name. -/
def modify (g : Globals) (slot : Nat) (f : GlobalSlot → GlobalSlot)
    (hname : ∀ s, (f s).name = s.name) : Globals where
  slots := g.slots.modify slot f
  byName := g.byName
  indexed key := by
    have hnames : (g.slots.modify slot f).map (·.name) = g.slots.map (·.name) := by
      refine Array.ext_getElem? fun i => ?_
      rw [Array.getElem?_map, Array.getElem?_map, Array.getElem?_modify]
      split <;> cases g.slots[i]? <;> simp [hname]
    have hfind (slots : Array GlobalSlot) :
        slots.findIdx? (·.name == key) = (slots.map (·.name)).findIdx? (· == key) := by
      rw [Array.findIdx?_map]
      rfl
    rw [g.indexed key, hfind, hfind, hnames]

/-- Makes sure that a name has a slot. -/
def declare (g : Globals) (name : String) : Globals :=
  match hslot : g.slot? name with
  | some _ => g
  | none => g.add name hslot

theorem declare_of_some {g : Globals} {name : String} {slot : Nat} (h : g.slot? name = some slot) :
    g.declare name = g := by
  unfold declare
  split
  · rfl
  · simp_all

theorem declare_of_none {g : Globals} {name : String} (h : g.slot? name = none) :
    g.declare name = g.add name h := by
  unfold declare
  split
  · simp_all
  · rfl

/-- Defines a built-in variable. -/
def defineBuiltin (g : Globals) (name : String) (v : Value) : Globals :=
  let g := g.declare name
  match g.slot? name with
  | some i => g.modify i (fun s => { s with value := some v, builtin := true }) fun _ => rfl
  | none => g

/-- Whether a slot is a built-in variable. -/
def isBuiltin (g : Globals) (slot : Nat) : Bool :=
  match g.slots[slot]? with
  | some s => s.builtin
  | none => false

def name (g : Globals) (slot : Nat) : String :=
  match g.slots[slot]? with
  | some s => s.name
  | none => "?"

/-- The value of a slot, if it was assigned to. -/
def get? (g : Globals) (slot : Nat) : Option Value :=
  match g.slots[slot]? with
  | some s => s.value
  | none => none

/-- Assigns to a slot, if there is one. -/
def set? (g : Globals) (slot : Nat) (v : Value) : Option Globals :=
  if slot < g.slots.size then
    some (g.modify slot (fun s => { s with value := some v }) fun _ => rfl)
  else none

/-- All values of variables. -/
def values (g : Globals) : List Value := g.slots.toList.filterMap (·.value)

end Globals

end ScriptMachine
