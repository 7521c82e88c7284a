import ScriptMachine.Chunk
/-!
# The heap

Strings, lists and functions live in slots. A slot carries a generation, which grows when its object
is freed, so an old reference never reaches a newer object in the same slot. Hosts keep objects
alive by pins. Freed slots are reused, the last freed first.

The heap is generic in `ν`, the code of native functions.
-/

namespace ScriptMachine

structure ScriptFunction where
  name : String
  arity : Nat
  chunk : Chunk
  deriving Repr

structure NativeFunction (ν : Type) where
  name : String
  arity : Nat
  code : ν

/-- What a slot can hold. -/
inductive Object (ν : Type)
  | string (text : String)
  | list (items : Array Value)
  | function (f : ScriptFunction)
  | native (f : NativeFunction ν)

namespace Object

variable {ν : Type}

/-- The type of an object as scripts see it. -/
def typeName : Object ν → String
  | .string _ => "string"
  | .list _ => "list"
  | .function _ | .native _ => "function"

/-- The values that an object refers to: the items of a list, the constants of a function. -/
def references : Object ν → Array Value
  | .list items => items
  | .function f => f.chunk.constants
  | .string _ | .native _ => #[]

/-- The list with another value at a place; other objects stay as they are. -/
def setItem (o : Object ν) (i : Nat) (v : Value) : Object ν :=
  match o with
  | .list items => .list (items.setIfInBounds i v)
  | o => o

/-- The list with a value more; other objects stay as they are. -/
def pushItem (o : Object ν) (v : Value) : Object ν :=
  match o with
  | .list items => .list (items.push v)
  | o => o

/-- The heap objects that an object refers to. -/
def children (o : Object ν) : List ObjectId := o.references.toList.filterMap Value.asObject?

end Object

/-- A place for one object. The mark is set only while a collection runs. -/
structure Slot (ν : Type) where
  generation : UInt16 := 0
  pins : Nat := 0
  marked : Bool := false
  object : Option (Object ν) := none

/-- Why a pin could not be taken back. -/
inductive ReleaseFault
  /-- The object was freed since the reference was handed out. -/
  | stale
  /-- The object is alive and carries no pin. -/
  | notPinned
  deriving DecidableEq, Repr

/-- The slots, the free ones with the next to be used in front, and counts of live objects, of
allocations since the last collection, and of collections. Free slots are listed by their whole
numbers, of which addresses keep 32 bits: the list is right as long as there are addresses left. -/
structure Heap (ν : Type) where
  slots : Array (Slot ν) := #[]
  freeList : List Nat := []
  live : Nat := 0
  allocsSinceCollect : Nat := 0
  collections : Nat := 0

namespace Heap

variable {ν : Type}

instance : Inhabited (Heap ν) := ⟨{}⟩

/-! ## Looking up -/

/-- The slot of an object that is alive. -/
def slot? (h : Heap ν) (id : ObjectId) : Option (Slot ν) :=
  match h.slots[id.index.toNat]? with
  | some s => if s.generation = id.generation && s.object.isSome then some s else none
  | none => none

/-- The object at an address, if it is alive. -/
def get? (h : Heap ν) (id : ObjectId) : Option (Object ν) := (h.slot? id).bind (·.object)

/-- Whether the object at an address is alive. -/
def contains (h : Heap ν) (id : ObjectId) : Bool := (h.slot? id).isSome

def getString? (h : Heap ν) (id : ObjectId) : Option String :=
  match h.get? id with
  | some (.string s) => some s
  | _ => none

def getList? (h : Heap ν) (id : ObjectId) : Option (Array Value) :=
  match h.get? id with
  | some (.list items) => some items
  | _ => none

/-- The number of pins on an object; none on one that is not alive. -/
def pins (h : Heap ν) (id : ObjectId) : Nat :=
  match h.slot? id with
  | some s => s.pins
  | none => 0

/-- The number of objects with pins. -/
def pinnedCount (h : Heap ν) : Nat := h.slots.countP fun s => s.object.isSome && 0 < s.pins

/-! ## Changing -/

/-- Changes a slot. -/
def modifySlot (h : Heap ν) (index : Nat) (f : Slot ν → Slot ν) : Heap ν :=
  { h with slots := h.slots.modify index f }

/-- Places an object in the slot that was freed last, or in a new one. -/
def alloc (h : Heap ν) (o : Object ν) : ObjectId × Heap ν :=
  match h.freeList with
  | index :: rest =>
    let generation := match h.slots[index]? with
      | some s => s.generation
      | none => 0
    (⟨UInt32.ofNat index, generation⟩,
      { h with
        slots := h.slots.modify index fun s =>
          { s with object := some o, pins := 0, marked := false }
        freeList := rest
        live := h.live + 1
        allocsSinceCollect := h.allocsSinceCollect + 1 })
  | [] =>
    (⟨UInt32.ofNat h.slots.size, 0⟩,
      { h with
        slots := h.slots.push { object := some o }
        live := h.live + 1
        allocsSinceCollect := h.allocsSinceCollect + 1 })

/-- Changes an object that is alive. -/
def modify (h : Heap ν) (id : ObjectId) (f : Object ν → Object ν) : Heap ν :=
  if h.contains id then h.modifySlot id.index.toNat fun s => { s with object := s.object.map f }
  else h

/-- Adds a pin to an object; the flag tells whether it is alive. -/
def pin (h : Heap ν) (id : ObjectId) : Bool × Heap ν :=
  if h.contains id then
    (true, h.modifySlot id.index.toNat fun s => { s with pins := s.pins + 1 })
  else (false, h)

/-- Takes a pin off an object and gives the number of pins that are left. -/
def unpin (h : Heap ν) (id : ObjectId) : Except ReleaseFault Nat × Heap ν :=
  match h.slot? id with
  | none => (.error .stale, h)
  | some s =>
    if s.pins = 0 then (.error .notPinned, h)
    else (.ok (s.pins - 1), h.modifySlot id.index.toNat fun s => { s with pins := s.pins - 1 })

/-- Whether as many objects as one step allows were allocated since the last collection; a step of
zero never asks for one. -/
def shouldCollect (h : Heap ν) (step : Nat) : Bool := 0 < step && step ≤ h.allocsSinceCollect

end Heap

end ScriptMachine
