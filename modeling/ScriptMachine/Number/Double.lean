/-!
# Doubles

The numbers of the script language are 64-bit IEEE doubles. A `Double` is the word of such a
number, so two doubles are equal as data exactly when they agree bit for bit: the two zeros differ
and every NaN payload is told apart. The fields of the word are read as natural numbers, and a
finite double is `± significand · 2 ^ scale`.

* `Double.ofRatio` rounds a quotient of natural numbers to the nearest double, ties to even;
* `Double.rem` is the exact remainder of the division that rounds toward zero.
-/

namespace ScriptMachine

/-- A 64-bit floating-point number, held as its word. -/
structure Double where
  bits : UInt64
  deriving DecidableEq, Inhabited, Repr

namespace Double

/-! ## Fields of the word -/

def isNegative (x : Double) : Bool := x.bits >>> 63 == 1

/-- The eleven bits of the biased exponent. -/
def exponentField (x : Double) : Nat := ((x.bits >>> 52) &&& 0x7ff).toNat

/-- The fifty-two bits below the exponent. -/
def fractionField (x : Double) : Nat := (x.bits &&& 0xfffffffffffff).toNat

/-- Neither infinite nor NaN. -/
def isFinite (x : Double) : Bool := x.exponentField != 2047

def isInfinite (x : Double) : Bool := x.exponentField == 2047 && x.fractionField == 0

def isNaN (x : Double) : Bool := x.exponentField == 2047 && x.fractionField != 0

/-- The integer significand of a finite double. -/
def significand (x : Double) : Nat :=
  if x.exponentField = 0 then x.fractionField else x.fractionField + Nat.pow 2 52

/-- The power of two that a finite double's significand is multiplied with. -/
def scale (x : Double) : Int :=
  if x.exponentField = 0 then -1074 else (x.exponentField : Int) - 1075

def isZero (x : Double) : Bool := x.isFinite && x.significand == 0

/-! ## Building doubles -/

/-- The word with the sign bit on top of a magnitude below `2 ^ 63`. -/
def ofMagnitude (negative : Bool) (magnitude : Nat) : Double :=
  ⟨UInt64.ofNat (magnitude + if negative then Nat.pow 2 63 else 0)⟩

def infinityMagnitude : Nat := 2047 * Nat.pow 2 52

def infinity (negative : Bool) : Double := ofMagnitude negative infinityMagnitude

def zero (negative : Bool) : Double := ofMagnitude negative 0

/-- The quiet NaN without payload. -/
def nan : Double := ⟨0x7ff8000000000000⟩

/-- The quotient rounded to a natural number, a half going to the even neighbour. -/
def divRoundEven (num den : Nat) : Nat :=
  let q := num / den
  let twice := 2 * (num % den)
  if twice < den then q
  else if den < twice then q + 1
  else if q % 2 = 0 then q else q + 1

/-- The double nearest to `num / den`, ties to even, for a positive `den`. A significand of
fifty-three bits is cut at the power of two `q`; its word is `(q + 1074) · 2 ^ 52` plus the
significand, for subnormal and normal results alike and also when rounding carries. -/
def ofRatio (negative : Bool) (num den : Nat) : Double :=
  if num = 0 then zero negative
  else
    let guess : Int := (Nat.log2 num : Int) - Nat.log2 den - 52
    -- `num / den` is at least `2 ^ (guess + 51)` and below `2 ^ (guess + 53)`
    let short := num * Nat.pow 2 (-guess).toNat < den * Nat.pow 2 (52 + guess.toNat)
    let q := max (if short then guess - 1 else guess) (-1074)
    let m := divRoundEven (num * Nat.pow 2 (-q).toNat) (den * Nat.pow 2 q.toNat)
    let magnitude := (q + 1074).toNat * Nat.pow 2 52 + m
    ofMagnitude negative (min magnitude infinityMagnitude)

def ofNat (n : Nat) : Double := ofRatio false n 1

def ofInt (n : Int) : Double := ofRatio (n < 0) n.natAbs 1

/-! ## Integers -/

/-- The integer that a double is, if it is one. -/
def toInt? (x : Double) : Option Int :=
  if !x.isFinite then none
  else
    let unit := Nat.pow 2 (-x.scale).toNat
    if x.significand % unit = 0 then
      let n : Int := (x.significand / unit * Nat.pow 2 x.scale.toNat : Nat)
      some (if x.isNegative then -n else n)
    else none

/-- The natural number that a double is, if it is one; the negative zero is zero. -/
def toNat? (x : Double) : Option Nat :=
  match x.toInt? with
  | some (.ofNat n) => some n
  | _ => none

/-! ## Arithmetic -/

def toFloat (x : Double) : Float := Float.ofBits x.bits

def ofFloat (f : Float) : Double := ⟨f.toBits⟩

def add (x y : Double) : Double := ofFloat (x.toFloat + y.toFloat)

def sub (x y : Double) : Double := ofFloat (x.toFloat - y.toFloat)

def mul (x y : Double) : Double := ofFloat (x.toFloat * y.toFloat)

def div (x y : Double) : Double := ofFloat (x.toFloat / y.toFloat)

def pow (x y : Double) : Double := ofFloat (Float.pow x.toFloat y.toFloat)

/-- The number with its sign bit flipped. -/
def neg (x : Double) : Double := ⟨x.bits ^^^ 0x8000000000000000⟩

/-- The exact remainder `x - y · n`, where `n` is the quotient cut toward zero. It has the sign of
`x`; there is none for an infinite `x` or a zero `y`. -/
def rem (x y : Double) : Double :=
  if x.isNaN || y.isNaN || x.isInfinite || y.isZero then nan
  else if y.isInfinite then x
  else
    let q := min x.scale y.scale
    let r :=
      (x.significand * Nat.pow 2 (x.scale - q).toNat) %
        (y.significand * Nat.pow 2 (y.scale - q).toNat)
    ofRatio x.isNegative (r * Nat.pow 2 q.toNat) (Nat.pow 2 (-q).toNat)

/-- Numeric equality: the two zeros are equal, and a NaN is equal to nothing. -/
def numericEq (x y : Double) : Bool := x.toFloat == y.toFloat

/-- Numeric order; nothing is below or above a NaN. -/
def lt (x y : Double) : Bool := decide (x.toFloat < y.toFloat)

/-- Numeric order with equality. -/
def le (x y : Double) : Bool := decide (x.toFloat ≤ y.toFloat)

end Double

end ScriptMachine
