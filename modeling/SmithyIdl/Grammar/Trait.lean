import SmithyIdl.Grammar.NodeValue

/-!
# Traits
-/

namespace SmithyIdl.Grammar

open SmithyIdl.Parser

/-- Whether a key and a colon come, which start a structure of values; anything else is one value. -/
def startsTraitStructure (b : Buffer) : Bool :=
  (b.isAt .identifier || b.isAt .string) && (b.lookPast 1 TokenKind.isTrivia).kind = .colon

/-- An entry of a trait, in a node of its own. -/
def traitEntry : Parser Unit := within .traitStructureEntry entry

/-- Entries up to the closing parenthesis or the first error. -/
def traitStructure : Parser Unit := within .traitStructure do
  let _ ← partsUntil .rparen traitEntry

/-- The value of a trait: entries, or one value. -/
def traitValue : Parser Unit := do
  if ← ask startsTraitStructure then traitStructure else within .traitBodyValue nodeValue

/-- `"(" [TraitStructure / NodeValue] ")"` -/
def traitBody : Parser Unit := within .traitBody do
  consumeAny
  whitespace
  let sound ← if ← isAt .rparen then pure true else soundly traitValue
  if sound then consume .rparen

/-- `"@" ShapeId [TraitBody]` -/
def traitStatement : Parser Unit := do
  expect .atSign
  within .trait do
    consumeAny
    shapeId false
    if ← isAt .lparen then traitBody

/-- A trait of a run, with the whitespace behind it. -/
def nextTrait : Parser Unit := do
  traitStatement
  whitespace

/-- A run of traits, if there is one; gives the name of its node. -/
def traitStatements : Parser (Option NodeId) := do
  if ← isAt .atSign then
    let traits ← scope .traitStatements (repeatWhile (·.isAt .atSign) nextTrait)
    return some traits.node
  else return none

/-- A run of traits, if there is one; says whether there was no error in it. -/
def memberTraits : Parser Bool := do
  let before ← errorCount
  let _ ← traitStatements
  return (← errorCount) = before

end SmithyIdl.Grammar
