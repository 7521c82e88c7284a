import ScriptMachine.Number.Double
/-!
# Shortest decimals

The decimal with the fewest digits that still names a given double. A finite double
`m · 2 ^ q` is named by every real of its rounding interval, whose ends belong to it when `m` is
even. Grids of multiples of `10 ^ k` are tried from coarse to fine; on each only the two neighbours
of the double can lie in the interval. The first grid with a hit wins, of two hits the nearer one,
and an exact tie is left to the caller.
-/

namespace ScriptMachine

/-- Which of two equally near decimals is taken. -/
inductive TieRule
  /-- The larger one. -/
  | up
  /-- The one whose last digit is even. -/
  | even
  deriving DecidableEq, Repr

/-- The decimal `digits · 10 ^ exponent`. -/
structure Decimal where
  digits : Nat
  exponent : Int
  deriving DecidableEq, Repr

namespace Double

/-- Whether `a · 10 ^ k` is below `b · 2 ^ q`. -/
def decimalLt (a : Nat) (k : Int) (b : Nat) (q : Int) : Bool :=
  a * Nat.pow 10 k.toNat * Nat.pow 2 (-q).toNat < b * Nat.pow 2 q.toNat * Nat.pow 10 (-k).toNat

/-- Whether `b · 2 ^ q` is below `a · 10 ^ k`. -/
def binaryLt (b : Nat) (q : Int) (a : Nat) (k : Int) : Bool :=
  b * Nat.pow 2 q.toNat * Nat.pow 10 (-k).toNat < a * Nat.pow 10 k.toNat * Nat.pow 2 (-q).toNat

/-- Whether the decimal `c · 10 ^ k` lies in the rounding interval of `m · 2 ^ q`. The gap below a
power of two is half the gap above it, except at the bottom of the range. -/
def names (m : Nat) (q : Int) (c : Nat) (k : Int) : Bool :=
  let low := if m = Nat.pow 2 52 ∧ q ≠ -1074 then 4 * m - 1 else 4 * m - 2
  let high := 4 * m + 2
  if m % 2 = 0 then !decimalLt c k low (q - 2) && !binaryLt high (q - 2) c k
  else binaryLt low (q - 2) c k && decimalLt c k high (q - 2)

/-- The multiple of `10 ^ k` just below or at `m · 2 ^ q`, as a count. -/
def gridFloor (m : Nat) (q k : Int) : Nat :=
  (m * Nat.pow 2 q.toNat * Nat.pow 10 (-k).toNat) / (Nat.pow 10 k.toNat * Nat.pow 2 (-q).toNat)

/-- The decimal of the grid of `10 ^ k` that names `m · 2 ^ q`, if there is one. -/
def onGrid? (tie : TieRule) (m : Nat) (q k : Int) : Option Nat :=
  let c := gridFloor m q k
  match names m q c k, names m q (c + 1) k with
  | false, false => none
  | true, false => some c
  | false, true => some (c + 1)
  | true, true =>
    -- compare the double with the middle of the two neighbours
    if binaryLt (2 * m) q (2 * c + 1) k then some c
    else if decimalLt (2 * c + 1) k (2 * m) q then some (c + 1)
    else match tie with
      | .up => some (c + 1)
      | .even => some (if c % 2 = 0 then c else c + 1)

/-- The first grid at or below `10 ^ k` with a hit, over at most `tries` grids. -/
def searchGrids (tie : TieRule) (m : Nat) (q : Int) : Nat → Int → Decimal
  | 0, k => ⟨gridFloor m q k, k⟩
  | tries + 1, k =>
    match onGrid? tie m q k with
    | some c => ⟨c, k⟩
    | none => searchGrids tie m q tries (k - 1)

/-- The shortest decimal that names the positive double `m · 2 ^ q`. The first grid is coarser
than the double, and seventeen digits always name a double, so twenty grids are enough. -/
def shortestOf (tie : TieRule) (m : Nat) (q : Int) : Decimal :=
  -- `10 ^ k > m · 2 ^ q` for this `k`, since `log₁₀ 2 < 0.30103`
  let k := ((Nat.log2 m : Int) + q + 1) * 30103 / 100000 + 1
  searchGrids tie m q 21 k

/-- The shortest decimal for the magnitude of a finite double. -/
def shortest (tie : TieRule) (x : Double) : Decimal :=
  if x.significand = 0 then ⟨0, 0⟩ else shortestOf tie x.significand x.scale

end Double

end ScriptMachine
