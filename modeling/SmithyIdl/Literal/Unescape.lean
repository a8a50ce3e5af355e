import SmithyIdl.Token.LexError

/-!
# Escapes in strings

Decoding of the contents of a string: escaped characters, code points in hexadecimal with surrogate
pairs, and escaped line breaks, which continue the line.
-/

namespace SmithyIdl.Literal

/-- Whether a character is a hexadecimal digit, of either case. -/
def isHexDigit (c : Char) : Bool :=
  c.isDigit || ('a' ≤ c && c ≤ 'f') || ('A' ≤ c && c ≤ 'F')

/-- The number that a hexadecimal digit stands for. -/
def hexValue (c : Char) : Nat :=
  if c.isDigit then c.toNat - '0'.toNat
  else if 'a' ≤ c then c.toNat - 'a'.toNat + 10
  else c.toNat - 'A'.toNat + 10

/-- The number that the first four characters spell in hexadecimal. -/
def hex4 (cs : List Char) : Except LexError Nat :=
  let digits := cs.take 4
  if digits.length = 4 ∧ digits.all isHexDigit then
    .ok (digits.foldl (fun n c => 16 * n + hexValue c) 0)
  else .error (.badHexDigits digits)

/-- The first of a pair of escapes for one character. -/
def isHighSurrogate (code : Nat) : Bool := 0xD800 ≤ code && code < 0xDC00

/-- The second of a pair of escapes for one character. -/
def isLowSurrogate (code : Nat) : Bool := 0xDC00 ≤ code && code < 0xE000

/-- The character with a code point. -/
def charOf (code : Nat) : Except LexError Char :=
  if code.isValidChar then .ok (Char.ofNat code) else .error (.badCodePoint code)

/-- The character of a code point escape, and how many characters spell it behind the first `\u`: four
    digits, or ten characters where two escapes make one character. -/
def codePoint (cs : List Char) : Except LexError (Char × Nat) := do
  let high ← hex4 cs
  if isHighSurrogate high then
    match cs.drop 4 with
    | '\\' :: 'u' :: rest =>
      let low ← hex4 rest
      if isLowSurrogate low then
        return (← charOf (0x10000 + (high - 0xD800) * 1024 + (low - 0xDC00)), 10)
      else throw (.badLowSurrogate low)
    | _ => throw .lonelySurrogate
  else return (← charOf high, 4)

/-- What a backslash before a character stands for, for the characters that stand for one other. -/
def simpleEscape? : Char → Option Char
  | '"' => some '"'
  | '\'' => some '\''
  | '\\' => some '\\'
  | '/' => some '/'
  | 'b' => some '\x08'
  | 'f' => some '\x0c'
  | 'n' => some '\n'
  | 'r' => some '\r'
  | 't' => some '\t'
  | _ => none

/-- The text that the contents of a string stand for. -/
def unescape (raw : List Char) : Except LexError (List Char) :=
  match raw with
  | [] => .ok []
  | '\\' :: [] => .error .unclosedEscape
  | '\\' :: 'u' :: cs =>
    match codePoint cs with
    | .error e => .error e
    | .ok (c, taken) => (unescape (cs.drop taken)).map (c :: ·)
  | '\\' :: '\n' :: cs => unescape cs
  | '\\' :: '\r' :: '\n' :: cs => unescape cs
  | '\\' :: '\r' :: cs => unescape cs
  | '\\' :: c :: cs =>
    match simpleEscape? c with
    | some d => (unescape cs).map (d :: ·)
    | none => .error (.unknownEscape c)
  | c :: cs => (unescape cs).map (c :: ·)
termination_by raw.length
decreasing_by all_goals simp +arith

end SmithyIdl.Literal
