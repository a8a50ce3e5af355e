import SmithyIdl.Text.Escape

/-!
# Lexical errors

What can be wrong with the characters of a token.
-/

namespace SmithyIdl

/-- Why some characters are no token. -/
inductive LexError where
  /-- A minus that starts no number. -/
  | minusAlone
  /-- A slash that starts no comment. -/
  | slashAlone
  | unclosedString
  | unclosedTextBlock
  /-- A character that starts no token. -/
  | unexpected (c : Char)
  /-- A text block whose opening quotes are not followed by a line break. -/
  | noOpeningLineBreak
  /-- A backslash before a character that it does not combine with. -/
  | unknownEscape (c : Char)
  /-- A backslash at the end of the contents. -/
  | unclosedEscape
  /-- The characters behind the `u` of an escape, when they are not four hexadecimal digits. -/
  | badHexDigits (found : List Char)
  /-- A high surrogate that no further escape follows. -/
  | lonelySurrogate
  /-- A high surrogate that is followed by the escape of something else. -/
  | badLowSurrogate (code : Nat)
  /-- A code point that is no character. -/
  | badCodePoint (code : Nat)
deriving DecidableEq

namespace LexError

/-- A number in upper-case hexadecimal, with at least `width` digits. -/
def upperHex (width n : Nat) : String :=
  let digits := (Nat.toDigits 16 n).map Char.toUpper
  .ofList (List.replicate (width - digits.length) '0' ++ digits)

/-- The text of an error. -/
def message : LexError → String
  | minusAlone => "Expected a digit after '-'"
  | slashAlone => "Expected a '/' to follow '/' to form a comment"
  | unclosedString => "Unclosed quoted string"
  | unclosedTextBlock => "Unclosed text block"
  | unexpected c => "Unexpected character: '" ++ Escape.char c ++ "'"
  | noOpeningLineBreak => "Text block must start with a new line"
  | unknownEscape c => "Invalid escape found in string: `\\" ++ Escape.char c ++ "`"
  | unclosedEscape => "Unclosed escape at the end of a string"
  | badHexDigits found => "Invalid unicode escape: `\\u" ++ .ofList found ++ "`"
  | lonelySurrogate => "Expected a low surrogate escape after a high surrogate"
  | badLowSurrogate code => "Invalid low surrogate: `\\u" ++ upperHex 4 code ++ "`"
  | badCodePoint code => "Invalid unicode code point: 0x" ++ upperHex 1 code

end LexError

end SmithyIdl
