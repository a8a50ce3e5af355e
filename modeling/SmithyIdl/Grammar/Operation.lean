import SmithyIdl.Grammar.Aggregate

/-!
# Operations

An operation has an input, an output and a list of errors, each at most once, in any order. Input and output
name a shape or define a structure in place.
-/

namespace SmithyIdl.Grammar

open SmithyIdl.Parser

/-- `":=" [Traits] Structure` -/
def inlineStructure : Parser Unit := do
  expect .walrus
  within .inlineStructure do
    consumeAny
    whitespace
    let _ ← traitStatements
    structureRest

/-- Whether `:=` follows the name of the property, which defines a structure in place. -/
def definesInline (b : Buffer) : Bool := (b.lookPast 1 TokenKind.isWhitespace).kind = .walrus

/-- `("input" / "output") (":" ShapeId / InlineStructure)` -/
def operationTarget : Parser Unit := do
  let inline ← ask definesInline
  keyword
  whitespace
  if inline then inlineStructure
  else
    consume .colon
    whitespace
    shapeId false

/-- An error of an operation, with the whitespace behind it. -/
def operationError : Parser Unit := do
  shapeId false
  whitespace

/-- `"errors" ":" "[" *ShapeId "]"` -/
def operationErrors : Parser Unit := do
  keyword
  whitespace
  consume .colon
  whitespace
  consume .lbracket
  whitespace
  repeatWhile (fun b => b.hasNext && !b.isAt .rbracket) operationError
  consume .rbracket

/-- The kind of node for a property, and what is behind its name. -/
def propertyOf? (name : String) : Option (TreeKind × Parser Unit) :=
  match name with
  | "input" => some (.operationInput, operationTarget)
  | "output" => some (.operationOutput, operationTarget)
  | "errors" => some (.operationErrors, operationErrors)
  | _ => none

/-- The property of a name, with the name. -/
def propertyOfName (name : String) : Parser Unit :=
  match propertyOf? name with
  | some (kind, property) => within kind property
  | none => fail (.unknownProperty name)

/-- A property other than those seen; gives the properties seen with it. -/
def operationProperty (seen : List String) : Parser (List String) := do
  expect .identifier
  let name := (← current).lexeme
  if name ∈ seen then fail (.duplicateProperty name)
  else
    propertyOfName name
    whitespace
    return name :: seen

def operationStatement : Parser Unit := do
  headUpToBrace
  braced .operationBody do
    let _ ← foldWhile (fun _ b => beforeBrace b) operationProperty []

end SmithyIdl.Grammar
