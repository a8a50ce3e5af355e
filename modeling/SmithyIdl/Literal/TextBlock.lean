import SmithyIdl.Literal.Unescape
import SmithyIdl.Text.Position
import SmithyIdl.Unicode.WhiteSpace

/-!
# Text blocks

The contents of a text block lose the indentation that all of its lines share and the blanks at the end of
every line, and are then decoded like those of a string.
-/

namespace SmithyIdl.Literal

/-- Spaces and tabs, which indent lines and are dropped at their end. -/
def isBlank (c : Char) : Bool := c = ' ' || c = '\t'

/-- What follows the line break at the start. -/
def afterLineBreak? : List Char → Option (List Char)
  | '\r' :: '\n' :: cs => some cs
  | '\n' :: cs => some cs
  | _ => none

/-- The pieces between line feeds. There is always at least one. -/
def splitLines : List Char → List (List Char)
  | [] => [[]]
  | c :: cs =>
    if c = '\n' then [] :: splitLines cs
    else
      match splitLines cs with
      | [] => [[c]]
      | line :: lines => (c :: line) :: lines

/-- Drops the last character if it is a carriage return. -/
def dropReturn (line : List Char) : List Char :=
  if line.getLast? = some '\r' then line.dropLast else line

/-- The number of blanks that a line starts with. -/
def indentation (line : List Char) : Nat := (line.takeWhile isBlank).length

/-- Drops the blanks at the end of a line. -/
def trimEnd (line : List Char) : List Char := (line.reverse.dropWhile isBlank).reverse

/-- Drops characters that take up exactly the given number of bytes; none if there is no such cut. -/
def dropBytes? : Nat → List Char → Option (List Char)
  | 0, cs => some cs
  | _ + 1, [] => none
  | n + 1, c :: cs => if c.utf8Size ≤ n + 1 then dropBytes? (n + 1 - c.utf8Size) cs else none

/-- The lines that set the common indentation: those with anything but white space, and the last line,
    the one of the closing quotes, in any case. -/
def indentingLines : List (List Char) → List (List Char)
  | [] => []
  | [closing] => [closing]
  | line :: lines =>
    if line.all Unicode.isWhiteSpace then indentingLines lines else line :: indentingLines lines

/-- The indentation that all indenting lines share. -/
def commonIndentation (lines : List (List Char)) : Nat :=
  ((indentingLines lines).map indentation).min?.getD 0

/-- A line without the common indentation and without blanks at its end. A line that cannot be cut there
    is blank, and becomes empty. -/
def stripLine (indent : Nat) (line : List Char) : List Char := trimEnd ((dropBytes? indent line).getD [])

/-- The text that the contents of a text block stand for. -/
def textBlock (raw : List Char) : Except LexError (List Char) :=
  match afterLineBreak? raw with
  | none => .error .noOpeningLineBreak
  | some body =>
    let lines := (splitLines body).map dropReturn
    let indent := commonIndentation lines
    unescape (['\n'].intercalate (lines.map (stripLine indent)))

end SmithyIdl.Literal
