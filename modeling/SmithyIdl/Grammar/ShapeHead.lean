import SmithyIdl.Grammar.Trait

/-!
# Heads of shape statements

What stands before the braces of a shape: its type and name, the resource that a structure is for, and its
mixins.
-/

namespace SmithyIdl.Grammar

open SmithyIdl.Parser

/-- The shape type, the name of the shape and the spaces behind it. -/
def typedName : Parser Unit := do
  keyword
  someSpaces
  consume .identifier
  spaces

/-- A mixin, with a further one or the closing bracket behind it; says whether it is the bracket. -/
def mixin : Parser Bool := do
  shapeId false
  whitespace
  return (← expectAny (.ofList [.identifier, .rbracket])) = .rbracket

/-- `1*ShapeId "]"`; at least one mixin comes before the bracket. -/
def mixinList : Parser Unit := do
  let _ ← foldWhile (fun closed _ => !closed) (fun _ => mixin) false
  consumeAny

/-- `["with" "[" 1*ShapeId "]"]` -/
def mixins : Parser Unit := do
  if ← isAtKeyword "with" then
    within .shapeMixins do
      keyword
      whitespace
      consume .lbracket
      whitespace
      mixinList

/-- `["for" ShapeId]` and the spaces behind it. -/
def structureResource : Parser Unit := do
  if ← isAtKeyword "for" then
    within .structureResource do
      keyword
      someSpaces
      shapeId false
    spaces

end SmithyIdl.Grammar
