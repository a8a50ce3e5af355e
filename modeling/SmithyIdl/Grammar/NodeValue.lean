import SmithyIdl.Grammar.ShapeId

/-!
# Node values

Values nest, and every value opens a node, so the limit on open nodes bounds how deep they nest. A part that
fails ends the array or object around it at once, without its closing bracket.
-/

namespace SmithyIdl.Grammar

open SmithyIdl.Parser

/-- The kinds that a value starts with. -/
def valueStart : TokenSet := .ofList [.lbracket, .lbrace, .string, .textBlock, .number, .identifier]

/-- The identifiers that are values and no shape ids. -/
def isValueKeyword (name : String) : Bool := name = "true" || name = "false" || name = "null"

/-- Runs a parser that handles its errors and the whitespace behind it; says whether there was no error. -/
def soundly (part : Parser Unit) : Parser Bool := do
  let before ← errorCount
  part
  if before < (← errorCount) then return false
  else
    whitespace
    return true

/-- Whether a part comes: neither a closing bracket nor the end of the text, and no error before. -/
def beforePart (closing : TokenKind) (sound : Bool) (b : Buffer) : Bool :=
  sound && b.hasNext && !b.isAt closing

/-- Parts up to a closing bracket or the end of the text; says whether there was no error in them. -/
def partsUntil (closing : TokenKind) (part : Parser Unit) : Parser Bool :=
  foldWhile (beforePart closing) (fun _ => soundly part) true

/-- `String / Identifier` -/
def objectKey : Parser Unit := do
  let _ ← expectAny (.ofList [.string, .identifier])
  within .nodeObjectKey consumeAny

/-- `NodeObjectKey ":" NodeValue` -/
def entryOf (value : Parser Unit) : Parser Unit := do
  objectKey
  whitespace
  consume .colon
  whitespace
  value

/-- `"[" *NodeValue "]"` -/
def arrayOf (value : Parser Unit) : Parser Unit := within .nodeArray do
  consumeAny
  whitespace
  if ← partsUntil .rbracket value then consume .rbracket

/-- An entry of an object, in a node of its own. -/
def objectEntry (value : Parser Unit) : Parser Unit := within .nodeObjectEntry (entryOf value)

/-- An object whose entries have the given value. -/
def objectOf (value : Parser Unit) : Parser Unit := within .nodeObject do
  consumeAny
  whitespace
  if ← partsUntil .rbrace (objectEntry value) then consume .rbrace

/-- What a node value that starts with a token of a kind is made of, when a value inside of it is parsed by
    `value`. -/
def valueFrom (value : Parser Unit) (first : TokenKind) : Parser Unit := do
  match first with
  | .lbracket => arrayOf value
  | .lbrace => objectOf value
  | .identifier => if isValueKeyword (← current).lexeme then keyword else shapeId true
  | _ => consumeAny

def valueBody (value : Parser Unit) : Parser Unit := do valueFrom value (← expectAny valueStart)

/-- A node value where `n` more nodes may be open. Where none may be, the node is refused. -/
def nodeValueWithin : Nat → Parser Unit
  | 0 => within .nodeValue (fail .tooDeep)
  | n + 1 => within .nodeValue (valueBody (nodeValueWithin n))

/-- How many more nodes may be open. -/
def depthLeft (b : Buffer) : Nat := b.maxDepth - b.openNodes.length

/-- A string, text block, number, keyword, shape id, array or object. -/
def nodeValue : Parser Unit := do nodeValueWithin (← ask depthLeft)

/-- `NodeObjectKey ":" NodeValue` -/
def entry : Parser Unit := entryOf nodeValue

/-- An object, from its opening brace on. -/
def nodeObject : Parser Unit := objectOf nodeValue

end SmithyIdl.Grammar
