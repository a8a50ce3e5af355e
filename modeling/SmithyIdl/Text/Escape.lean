import SmithyIdl.Unicode.GraphemeExtend
import SmithyIdl.Unicode.Printable

/-!
# Escaped text

How texts are shown in messages and dumps: every character that cannot be printed as it is gets a
backslash form. Three forms differ in the quotes that they escape and in where a combining character
needs an escape.
-/

namespace SmithyIdl.Escape

/-- Where a character that joins the one before it is escaped. -/
inductive Combining where
  | everywhere
  /-- Only where there is nothing before it to join. -/
  | atStart
deriving DecidableEq

/-- The choices of one escaped form. -/
structure Style where
  /-- The quotes that get a backslash. -/
  quotes : List Char
  combining : Combining

/-- A lexeme stands between single quotes, and double quotes are escaped as well. -/
def lexemeStyle : Style := ⟨['"', '\''], .atStart⟩

/-- A single character stands between single quotes or behind a backslash. -/
def charStyle : Style := ⟨['"', '\''], .everywhere⟩

/-- A quoted text stands between double quotes. -/
def quotedStyle : Style := ⟨['"'], .everywhere⟩

/-- The digits of a number in lower-case hexadecimal, without leading zeros. -/
def hexDigits (n : Nat) : List Char := Nat.toDigits 16 n

/-- The form that names a character by its code point. -/
def codePoint (c : Char) : List Char := ['\\', 'u', '\x7b'] ++ hexDigits c.toNat ++ ['\x7d']

/-- One character; `joins` says that a combining character is escaped here. -/
def escapeChar (quotes : List Char) (joins : Bool) (c : Char) : List Char :=
  if c = '\x00' then ['\\', '0']
  else if c = '\t' then ['\\', 't']
  else if c = '\r' then ['\\', 'r']
  else if c = '\n' then ['\\', 'n']
  else if c = '\\' ∨ c ∈ quotes then ['\\', c]
  else if joins && Unicode.isGraphemeExtend c then codePoint c
  else if Unicode.isPrintable c then [c]
  else codePoint c

/-- Some characters in the given style. -/
def escape (style : Style) : List Char → List Char
  | [] => []
  | c :: cs =>
    escapeChar style.quotes true c ++
      cs.flatMap (escapeChar style.quotes (style.combining = .everywhere))

/-- A lexeme as token descriptions show it. -/
def lexeme (s : String) : String := .ofList (escape lexemeStyle s.toList)

/-- A single character as messages show it. -/
def char (c : Char) : String := .ofList (escape charStyle [c])

/-- A text as a quoted literal, quotes included. -/
def quoted (s : String) : String := .ofList ('"' :: escape quotedStyle s.toList ++ ['"'])

end SmithyIdl.Escape
