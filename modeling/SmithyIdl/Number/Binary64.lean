/-!
# Decimal numbers as binary64

A decimal number is rounded to the nearest number that a binary64 word can hold, in exact integer
arithmetic: the quotient of two naturals is scaled by a power of two until its whole part has 53 bits,
and the remainder decides, where a tie goes to the even neighbour.
-/

namespace SmithyIdl

/-- A binary64 number by its bits: the sign, 11 bits of exponent, 52 bits of fraction. -/
structure Binary64 where
  bits : UInt64
deriving DecidableEq

/-- A decimal number, `± digits * 10 ^ exponent`. The sign of zero counts. -/
structure Decimal where
  negative : Bool
  digits : Nat
  exponent : Int
deriving DecidableEq

namespace Binary64

/-- The quotient rounded to the nearest natural number, a tie to the even one. -/
def roundHalfEven (num den : Nat) : Nat :=
  let q := num / den
  let r := num % den
  if 2 * r > den ∨ (2 * r = den ∧ q % 2 = 1) then q + 1 else q

/-- The quotient `num / (den * 2 ^ e)` as a pair of naturals. -/
def scaled (num den : Nat) (e : Int) : Nat × Nat :=
  if 0 ≤ e then (num, den <<< e.toNat) else (num <<< (-e).toNat, den)

/-- The exponent at which the whole part of the quotient has 53 bits, or the least one, -1074. -/
def exponentOf (num den : Nat) : Int :=
  let guess := (num.log2 : Int) - (den.log2 : Int) - 53
  let (n, d) := scaled num den guess
  max (-1074) (if n / d < 1 <<< 53 then guess else guess + 1)

/-- The bits of infinity without its sign. -/
def infinity : Nat := 0x7ff <<< 52

/-- The bits nearest to the quotient of two positive naturals. The leading bit of the rounded whole part
    carries into the exponent field, so a number that rounds up to the next power of two needs no case of
    its own. -/
def ofRatio (num den : Nat) : Nat :=
  let e := exponentOf num den
  let (n, d) := scaled num den e
  min infinity ((e + 1074).toNat <<< 52 + roundHalfEven n d)

/-- How many decimal digits a number has; none for 0. -/
def decimalLength (n : Nat) : Nat := if n = 0 then 0 else (Nat.toDigits 10 n).length

/-- The bits without the sign. Numbers from 10 ^ 310 on are beyond the range, those below 10 ^ -330 round
    to 0; the powers of ten in between are small enough to compute. -/
def magnitude (digits : Nat) (exponent : Int) : Nat :=
  let size := (decimalLength digits : Int) + exponent
  if digits = 0 then 0
  else if size > 310 then infinity
  else if size < -330 then 0
  else if 0 ≤ exponent then ofRatio (digits * Nat.pow 10 exponent.toNat) 1
  else ofRatio digits (Nat.pow 10 (-exponent).toNat)

/-- The nearest binary64 number. -/
def ofDecimal (d : Decimal) : Binary64 :=
  ⟨UInt64.ofNat ((if d.negative then 1 <<< 63 else 0) + magnitude d.digits d.exponent)⟩

/-- The bits as 16 hexadecimal digits. -/
def toHex (x : Binary64) : String :=
  let digits := Nat.toDigits 16 x.bits.toNat
  .ofList (List.replicate (16 - digits.length) '0' ++ digits)

end Binary64

end SmithyIdl
