import SmithyIdl.Grammar.Whitespace

/-!
# Shape ids and keywords
-/

namespace SmithyIdl.Grammar

open SmithyIdl.Parser

/-- The identifier to come, as a keyword. -/
def keyword : Parser Unit := within .keyword consumeAny

/-- `"." Identifier` -/
def namespacePart : Parser Unit := do
  consumeAny
  consume .identifier

/-- `Identifier *("." Identifier)` -/
def namespaceId : Parser Unit := do
  expect .identifier
  within .namespaceId do
    consumeAny
    repeatWhile (·.isAt .dot) namespacePart

/-- The kinds of which the namespace of an absolute id is made. -/
def isNamespacePart (kind : TokenKind) : Bool := kind = .identifier || kind = .dot

/-- Whether the identifiers and dots to come end at a `#`, which makes them a namespace. -/
def startsAbsoluteId (b : Buffer) : Bool := (b.lookPast 0 isNamespacePart).kind = .pound

/-- `"$" Identifier`, if there is a dollar sign. -/
def idMember : Parser Unit := do
  if ← isAt .dollar then
    consumeAny
    expect .identifier
    within .shapeIdMember consumeAny

/-- `[Namespace "#"] Identifier`, and the name of a member where one is allowed. -/
def shapeId (allowMember : Bool) : Parser Unit := do
  expect .identifier
  let absolute ← ask startsAbsoluteId
  within .shapeId do
    if absolute then
      namespaceId
      consume .pound
      expect .identifier
    consumeAny
    if allowMember then idMember

/-- `Namespace "#" Identifier` -/
def absoluteShapeId : Parser Unit := do
  expect .identifier
  if ← ask startsAbsoluteId then shapeId false else fail (.noAbsoluteId (← current))

end SmithyIdl.Grammar
