import SmithyIdl.Number.Binary64

/-!
# Written numbers

A number is written as an optional minus, digits, an optional fraction and an optional exponent. A
fraction or an exponent is only taken where a digit confirms it. Without either the number is an integer,
unless it does not fit into 64 bits.
-/

namespace SmithyIdl

/-- The value of a number. -/
inductive Number where
  /-- An integer from `-2 ^ 63` to `2 ^ 63 - 1`. -/
  | int (value : Int)
  | float (value : Binary64)
deriving DecidableEq

/-- An exponent as written. -/
structure ExponentText where
  mark : Char
  sign : Option Char
  digits : List Char
deriving DecidableEq

/-- A number as written. -/
structure NumberText where
  negative : Bool
  whole : List Char
  /-- The digits behind the point. -/
  fraction : Option (List Char)
  exponent : Option ExponentText
deriving DecidableEq

def ExponentText.toList (e : ExponentText) : List Char := e.mark :: (e.sign.toList ++ e.digits)

/-- The number that a digit stands for. -/
def digitValue (c : Char) : Nat := c.toNat - '0'.toNat

/-- The number that some decimal digits spell. -/
def digitsValue (cs : List Char) : Nat := cs.foldl (fun n c => 10 * n + digitValue c) 0

def ExponentText.value (e : ExponentText) : Int :=
  if e.sign = some '-' then -(digitsValue e.digits : Int) else digitsValue e.digits

namespace NumberText

/-- The characters of a written number. -/
def toList (n : NumberText) : List Char :=
  (if n.negative then ['-'] else []) ++ n.whole ++
    (match n.fraction with | some ds => '.' :: ds | none => []) ++
    (match n.exponent with | some e => e.toList | none => [])

/-- Whether a digit comes first. -/
def startsWithDigit : List Char → Bool
  | c :: _ => c.isDigit
  | [] => false

/-- The digits of a fraction, where a point and a digit come first. -/
def fraction? : List Char → Option (List Char)
  | '.' :: cs => if startsWithDigit cs then some (cs.takeWhile Char.isDigit) else none
  | _ => none

/-- An exponent, where its mark, an optional sign and a digit come first. -/
def exponent? : List Char → Option ExponentText
  | mark :: cs =>
    if mark = 'e' ∨ mark = 'E' then
      match cs with
      | '+' :: ds => if startsWithDigit ds then some ⟨mark, some '+', ds.takeWhile Char.isDigit⟩ else none
      | '-' :: ds => if startsWithDigit ds then some ⟨mark, some '-', ds.takeWhile Char.isDigit⟩ else none
      | ds => if startsWithDigit ds then some ⟨mark, none, ds.takeWhile Char.isDigit⟩ else none
    else none
  | [] => none

/-- The longest written number at the start of some characters; the minus is already taken. -/
def read (negative : Bool) (cs : List Char) : NumberText :=
  let whole := cs.takeWhile Char.isDigit
  let rest := cs.drop whole.length
  let fraction := fraction? rest
  let rest := match fraction with
    | some ds => rest.drop (ds.length + 1)
    | none => rest
  ⟨negative, whole, fraction, exponent? rest⟩

/-- The decimal number that is written. -/
def decimal (n : NumberText) : Decimal :=
  let fraction := n.fraction.getD []
  let exponent := (n.exponent.map ExponentText.value).getD 0
  ⟨n.negative, digitsValue (n.whole ++ fraction), exponent - fraction.length⟩

/-- Whether an integer fits into 64 bits, one of them the sign. -/
def fitsInt64 (n : Int) : Bool := -0x8000000000000000 ≤ n && n < 0x8000000000000000

/-- The value: an integer where neither a fraction nor an exponent is written and the integer fits. -/
def value (n : NumberText) : Number :=
  let magnitude : Int := digitsValue n.whole
  let int := if n.negative then -magnitude else magnitude
  if n.fraction = none ∧ n.exponent = none ∧ fitsInt64 int then .int int
  else .float (Binary64.ofDecimal n.decimal)

end NumberText

end SmithyIdl
