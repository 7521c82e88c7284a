import ScriptMachine.Number.Double
/-!
# Number literals

Reads a number from its text. Decimal text is rounded once, to the nearest double. Hexadecimal text
is read digit by digit, and every digit rounds to fifty-three significant bits, so a long literal
may round more than once.
-/

namespace ScriptMachine

namespace Double

/-! ## Decimal text -/

/-- The double nearest to `digits · 10 ^ exponent`. Magnitudes beyond the range are cut off before
any power is computed: from `10 ^ 310` on every double overflows, and below `10 ^ -330` all
vanish. -/
def ofDecimal (negative : Bool) (digits : Nat) (exponent : Int) : Double :=
  let size : Int := (Nat.toDigits 10 digits).length + exponent
  if digits = 0 then zero negative
  else if 310 < size then infinity negative
  else if size < -330 then zero negative
  else ofRatio negative (digits * Nat.pow 10 exponent.toNat) (Nat.pow 10 (-exponent).toNat)

/-- The number that a run of decimal digits spells. -/
def digitsToNat (cs : List Char) : Nat :=
  cs.foldl (fun n c => 10 * n + (c.toNat - '0'.toNat)) 0

/-- The exponent after its mark: an optional sign and at least one digit. -/
def exponentOf? : List Char → Option Int
  | '-' :: cs => natural? cs |>.map fun n => -(n : Int)
  | '+' :: cs => natural? cs |>.map fun n => (n : Int)
  | cs => natural? cs |>.map fun n => (n : Int)
where
  /-- At least one digit and nothing else. -/
  natural? (cs : List Char) : Option Nat :=
    if cs.isEmpty || !cs.all Char.isDigit then none else some (digitsToNat cs)

/-- An unsigned decimal number: digits around an optional point, at least one in all, and an
optional exponent. -/
def unsignedDecimal? (negative : Bool) (cs : List Char) : Option Double :=
  let whole := cs.takeWhile Char.isDigit
  let rest := cs.dropWhile Char.isDigit
  let (fraction, rest) :=
    match rest with
    | '.' :: r => (r.takeWhile Char.isDigit, r.dropWhile Char.isDigit)
    | r => ([], r)
  if whole.isEmpty && fraction.isEmpty then none
  else
    let exponent? :=
      match rest with
      | [] => some 0
      | c :: r => if c = 'e' ∨ c = 'E' then exponentOf? r else none
    exponent?.map fun e =>
      ofDecimal negative (digitsToNat (whole ++ fraction)) (e - fraction.length)

/-- The names of the special numbers, in any case of letters. -/
def special? (negative : Bool) (cs : List Char) : Option Double :=
  let word := String.ofList (cs.map Char.toLower)
  if word = "inf" ∨ word = "infinity" then some (infinity negative)
  else if word = "nan" then some (if negative then nan.neg else nan)
  else none

/-- A decimal number with an optional sign, or a special number. -/
def decimal? (cs : List Char) : Option Double :=
  let (negative, body) :=
    match cs with
    | '-' :: r => (true, r)
    | '+' :: r => (false, r)
    | r => (false, r)
  (special? negative body).or (unsignedDecimal? negative body)

/-! ## Hexadecimal text -/

/-- The natural number with at most fifty-three significant bits that is nearest to a given one,
ties to even. -/
def roundTo53 (n : Nat) : Nat :=
  if n < Nat.pow 2 53 then n
  else
    let unit := Nat.pow 2 (Nat.log2 n - 52)
    divRoundEven n unit * unit

def hexDigit? (c : Char) : Option Nat :=
  if '0' ≤ c ∧ c ≤ '9' then some (c.toNat - '0'.toNat)
  else if 'a' ≤ c ∧ c ≤ 'f' then some (c.toNat - 'a'.toNat + 10)
  else if 'A' ≤ c ∧ c ≤ 'F' then some (c.toNat - 'A'.toNat + 10)
  else none

/-- The digits taken one by one, rounding after each; no digits are zero. -/
def hexFold? : Nat → List Char → Option Nat
  | acc, [] => some acc
  | acc, c :: cs =>
    match hexDigit? c with
    | some d => hexFold? (roundTo53 (16 * acc + d)) cs
    | none => none

/-- A number literal: hexadecimal after `0x` or `0X`, decimal otherwise. -/
def ofLiteral? (text : String) : Option Double :=
  match text.toList with
  | '0' :: 'x' :: cs => (hexFold? 0 cs).map ofNat
  | '0' :: 'X' :: cs => (hexFold? 0 cs).map ofNat
  | cs => decimal? cs

end Double

end ScriptMachine
