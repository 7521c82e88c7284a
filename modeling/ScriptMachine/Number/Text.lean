import ScriptMachine.Number.Shortest
/-!
# Text of numbers

Two layouts of the shortest decimal. The plain one never uses an exponent and shows integers without
a point. The other one keeps a fraction on every number and turns to an exponent for very small and
very large numbers, as JSON documents have it.
-/

namespace ScriptMachine

namespace Decimal

/-- A run of zeros. -/
def zeros (n : Nat) : String := String.ofList (List.replicate n '0')

/-- The power of ten of the first digit. -/
def leadingExponent (d : Decimal) : Int :=
  (toString d.digits).length + d.exponent - 1

/-- The decimal with all its places written out and no exponent. -/
def positional (d : Decimal) : String :=
  let s := toString d.digits
  if 0 ≤ d.exponent then s ++ zeros d.exponent.toNat
  else
    let places := (-d.exponent).toNat
    if places < s.length then
      String.ofList (s.toList.take (s.length - places)) ++ "." ++
        String.ofList (s.toList.drop (s.length - places))
    else "0." ++ zeros (places - s.length) ++ s

/-- The decimal with one digit before the point, and a signed exponent. -/
def scientific (d : Decimal) : String :=
  let s := toString d.digits
  let head := String.ofList (s.toList.take 1)
  let tail := String.ofList (s.toList.drop 1)
  let mantissa := if tail.isEmpty then head else head ++ "." ++ tail
  let x := d.leadingExponent
  mantissa ++ (if x < 0 then "e-" else "e+") ++ toString x.natAbs

end Decimal

namespace Double

/-- A minus sign for a set sign bit. -/
def signText (x : Double) : String := if x.isNegative then "-" else ""

/-- The number with the fewest digits that read back, never with an exponent: `1.5`, `100`, `-0`,
`inf`. Of two equally short and near decimals the larger is shown. -/
def plainText (x : Double) : String :=
  if x.isNaN then "NaN"
  else if x.isInfinite then x.signText ++ "inf"
  else x.signText ++ (x.shortest .up).positional

/-- The number as JSON has it: positional while the first digit's power of ten is between `-5` and
`15`, and then always with a fraction, otherwise with an exponent. Of two equally short and near
decimals the even one is shown. -/
def jsonText (x : Double) : String :=
  let d := x.shortest .even
  let x10 := d.leadingExponent
  let body :=
    if x10 < -5 ∨ 15 < x10 then d.scientific
    else if 0 ≤ d.exponent then d.positional ++ ".0"
    else d.positional
  x.signText ++ body

/-- The number as a script prints it: integers below `10 ^ 15` without a sign on zero, and every
other number in plain text. -/
def scriptText (x : Double) : String :=
  match x.toInt? with
  | some n => if n.natAbs < Nat.pow 10 15 then toString n else x.plainText
  | none => x.plainText

end Double

end ScriptMachine
