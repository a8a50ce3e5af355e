import SmithyIdl.Literal.TextBlock

/-!
# Diagnostics

A diagnostic is shown with the line of the text that it is about and marks under the characters in question.
The same layout is printed plainly or with the escape sequences of a terminal.
-/

namespace SmithyIdl

/-- A message about a stretch of a text. -/
structure Diagnostic where
  message : String
  range : ByteRange
deriving DecidableEq

/-- What a piece of the layout is, which decides its colour. -/
inductive Ink where
  | plain
  | gutter
  | accent
  | title
deriving DecidableEq

/-- How pieces of a layout are printed: the sequences before and behind each kind of piece. -/
structure Palette where
  before : Ink → String
  behind : Ink → String

namespace Palette

/-- Nothing but the characters. -/
def none : Palette := ⟨fun _ => "", fun _ => ""⟩

/-- The escape sequence with a code. -/
def sequence (code : Nat) : String := "\x1b[" ++ toString code ++ "m"

/-- Everything but plain pieces is bold; the gutter is blue and what matters red. -/
def terminal : Palette where
  before
    | .plain => ""
    | .gutter => sequence 1 ++ sequence 94
    | .accent => sequence 1 ++ sequence 91
    | .title => sequence 1
  behind
    | .plain => ""
    | _ => sequence 0

end Palette

namespace Diagnostic

/-- A line of a layout, in pieces. -/
abbrev Pieces := List (Ink × String)

/-- Prints a line. -/
def printLine (p : Palette) (line : Pieces) : String :=
  String.join (line.map fun (ink, text) => p.before ink ++ text ++ p.behind ink)

/-- A line of a source text. -/
structure SourceLine where
  number : Nat
  /-- The byte offset of its start. -/
  start : Nat
  /-- Its characters up to the line feed. -/
  body : List Char

/-- The lines of some characters. Nothing follows the last line feed of a text, so no line does. -/
def linesFrom (number start : Nat) (cs : List Char) : List SourceLine :=
  if cs = [] then []
  else
    let body := cs.takeWhile (· ≠ '\n')
    ⟨number, start, body⟩ ::
      linesFrom (number + 1) (start + byteLength body + 1) (cs.drop (body.length + 1))
termination_by cs.length
decreasing_by
  have := List.length_pos_iff.2 ‹_›
  simp only [List.length_drop]
  omega

/-- How many characters fit into a number of bytes. -/
def charsWithin (bytes : Nat) : List Char → Nat
  | [] => 0
  | c :: cs => if c.utf8Size ≤ bytes then charsWithin (bytes - c.utf8Size) cs + 1 else 0

namespace SourceLine

/-- Whether a line holds a byte offset, its line feed included. -/
def holds (l : SourceLine) (offset : Nat) : Bool := l.start ≤ offset && offset ≤ l.start + byteLength l.body

/-- How many characters of a line end before a byte offset or at it. -/
def charsBefore (l : SourceLine) (offset : Nat) : Nat := charsWithin (offset - l.start) l.body

/-- The characters of a line, without its line break. -/
def text (l : SourceLine) : List Char := Literal.dropReturn l.body

end SourceLine

/-- What the marks say: that something is missing, or that what they mark should not be there. -/
def label (d : Diagnostic) : String := if d.range.isEmpty then "expected here" else "found here"

def spaces (n : Nat) : String := "".pushn ' ' n

/-- The place of a diagnostic. A file without a name leaves no space before it. -/
def origin (filename : String) (line column : Nat) : String :=
  let place := ":" ++ toString line ++ ":" ++ toString column
  if filename = "" then place else " " ++ filename ++ place

/-- The gutter behind line numbers of a width. -/
def bareGutter (width : Nat) : Pieces := [(.plain, spaces (width + 1)), (.gutter, "|")]

def titleLine (d : Diagnostic) : Pieces := [(.accent, "error"), (.plain, ": "), (.title, d.message)]

def arrowLine (width : Nat) (origin : String) : Pieces :=
  [(.plain, spaces width), (.gutter, "-->"), (.plain, origin)]

/-- The source line, without a space behind the gutter where the line is empty. -/
def sourceLine (l : SourceLine) : Pieces :=
  [(.gutter, toString l.number ++ " |"), (.plain, if l.text = [] then "" else " " ++ .ofList l.text)]

/-- The marks under the characters of the range that stand on the line; at least one. -/
def markLine (d : Diagnostic) (width : Nat) (l : SourceLine) : Pieces :=
  let before := l.charsBefore d.range.start
  let marked := min (l.charsBefore d.range.stop) l.text.length - before
  bareGutter width ++
    [(.plain, spaces (before + 1)), (.accent, "".pushn '^' (max 1 marked)), (.plain, " "), (.accent, d.label)]

/-- The layout of a diagnostic. At the end of a text that ends with a line feed, or that is empty, there is no
    line to show. -/
def layout (d : Diagnostic) (filename : String) (text : String) : List Pieces :=
  match (linesFrom 1 0 text.toList).find? (·.holds d.range.start) with
  | some l =>
    let width := (toString l.number).length
    [d.titleLine, arrowLine width (origin filename l.number (l.charsBefore d.range.start + 1)),
      bareGutter width, sourceLine l, d.markLine width l, bareGutter width]
  | none => [d.titleLine, arrowLine 0 (origin filename 1 1), bareGutter 0, bareGutter 0]

/-- Prints a diagnostic about the text of a file. No line feed follows the last line. -/
def render (d : Diagnostic) (p : Palette) (filename text : String) : String :=
  "\n".intercalate ((d.layout filename text).map (printLine p))

end Diagnostic

end SmithyIdl
