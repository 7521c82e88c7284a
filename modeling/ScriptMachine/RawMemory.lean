/-!
# Raw memory

Buffers that a host takes from a machine and gives back by hand. The ledger records each buffer by
its address with its size, and keeps the total within a limit. Addresses come from the platform,
which all machines of a process share; it never gives out overlapping buffers, and keeps them apart.
-/

namespace ScriptMachine

/-- The alignment of every buffer. -/
def rawAlign : Nat := 16

/-- The platform's memory: buffers are cut off at `top`, up to the end of the address space. -/
structure Platform where
  top : Nat := Nat.pow 2 16
  deriving DecidableEq, Inhabited, Repr

namespace Platform

/-- The end of the address space. -/
def spaceEnd : Nat := Nat.pow 2 47

/-- The room behind a buffer, so that an address a little past its end belongs to no other
buffer. -/
def gap : Nat := Nat.pow 2 16

/-- Cuts off a buffer, if there is room. -/
def acquire (size : Nat) (p : Platform) : Option Nat × Platform :=
  if p.top + size ≤ spaceEnd then
    (some p.top, { top := (p.top + size + (rawAlign - 1)) / rawAlign * rawAlign + gap })
  else (none, p)

end Platform

/-- The buffers in use, by address with their sizes, and the limit on their total size. -/
structure RawLedger where
  live : List (Nat × Nat) := []
  bytes : Nat := 0
  limit : Nat := Nat.pow 2 63 - 1
  deriving DecidableEq, Inhabited, Repr

namespace RawLedger

/-- The address of every empty buffer. It is never recorded. -/
def emptyAddress : Nat := rawAlign

/-- Sizes are words; sums that do not fit stop at the greatest word. -/
def maxWord : Nat := UInt64.size - 1

/-- The greatest size that leaves room for alignment. -/
def maxSize : Nat := Nat.pow 2 63 - rawAlign

/-- Takes a buffer from a platform `p`, which gives buffers out by `acquire`. There is none beyond
the limit, or if the platform has none. -/
def alloc {π : Type} (acquire : Nat → π → Option Nat × π) (r : RawLedger) (p : π) (size : Nat) :
    Option Nat × RawLedger × π :=
  if size = 0 then (some emptyAddress, r, p)
  else if r.limit < min (r.bytes + size) maxWord then (none, r, p)
  else if maxSize < size then (none, r, p)
  else
    match acquire size p with
    | (none, p) => (none, r, p)
    | (some address, p) =>
      (some address, { r with live := (address, size) :: r.live, bytes := r.bytes + size }, p)

/-- The recorded size of the buffer at an address. -/
def size? (r : RawLedger) (address : Nat) : Option Nat :=
  (r.live.find? (·.1 == address)).map (·.2)

/-- Gives a buffer back. Nothing happens unless the address is recorded with just this size. -/
def free (r : RawLedger) (pointer : Option Nat) (size : Nat) : RawLedger :=
  match pointer with
  | none => r
  | some address =>
    if size = 0 then r
    else if r.size? address = some size then
      { r with live := r.live.filter (·.1 != address), bytes := r.bytes - size }
    else r

end RawLedger

end ScriptMachine
