import SmithyIdl.Buffer.Parser

/-!
# Spaces, whitespace and line breaks

Documentation comments stand before what they document, but are read with the whitespace before it. Where
they can belong to what follows, they are put into a node of their own, and its name is handed on.
-/

namespace SmithyIdl.Grammar

open SmithyIdl.Parser

/-- The node of documentation comments that wait for what they document. -/
abbrev Docs := Option NodeId

/-- `*SP` -/
def spaces : Parser Unit := do
  if ← isAt .space then within .spaces (shiftKinds (· = .space))

/-- `1*SP` -/
def someSpaces : Parser Unit := do
  expect .space
  spaces

/-- Any whitespace, comments and documentation comments. -/
def whitespace : Parser Unit := do
  if (← current).kind.isTrivia then within .whitespace (shiftKinds TokenKind.isTrivia)

/-- At least some whitespace, a comment or a documentation comment. -/
def someWhitespace : Parser Unit := do
  let _ ← expectAny .trivia
  whitespace

/-- Documentation comments with all whitespace behind them, in a node of their own. -/
def docComments : Parser Docs := do
  if ← isAt .docComment then return some (← scope .whitespace (shiftKinds TokenKind.isTrivia)).node
  else return none

/-- Any whitespace and comments, and the documentation comments behind them, for what follows. -/
def whitespaceUpToDocs : Parser Docs := do
  if (← current).kind.isWhitespace then within .whitespace (shiftKinds TokenKind.isWhitespace)
  docComments

/-- The line break itself, behind the spaces. -/
def breakLine : Parser Docs := do
  let br ← scope .lineBreak do
    consumeAny
    shiftKinds TokenKind.isWhitespace
    docComments
  return br.value.join

/-- The end of a line: a line feed or comment with all whitespace behind it, and the documentation comments
    for what follows. The end of the text ends a line too, and where a line has just begun nothing has
    to end. -/
def endLine : Parser Docs := do
  spaces
  let token ← current
  match token.kind with
  | .newline | .comment | .docComment => breakLine
  | .eof => return none
  | _ => if token.start.column = 1 then return none else fail (.noLineBreak token)

end SmithyIdl.Grammar
