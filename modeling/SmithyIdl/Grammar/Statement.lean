import SmithyIdl.Grammar.Shape

/-!
# Shape and apply statements

Traits stand before the shape they belong to and are read before it is known whether one comes. They are then
moved into the statement, or into an error node where none comes.
-/

namespace SmithyIdl.Grammar

open SmithyIdl.Parser

/-- Whether the statement applies a block of traits rather than a single one: a brace comes before any
    further trait. -/
def appliesBlock (b : Buffer) : Bool :=
  (b.lookPast 1 fun kind => kind ≠ .atSign && kind ≠ .lbrace).kind = .lbrace

/-- The traits of a block between its braces. -/
def traitBlock : Parser Unit := do
  consume .lbrace
  whitespace
  let _ ← traitStatements
  whitespace
  consume .rbrace

/-- `"apply" ShapeId (Trait / "{" Traits "}")` -/
def applyStatement : Parser Unit := do
  let block ← ask appliesBlock
  within .applyStatement do
    within (if block then .applyStatementBlock else .applyStatementSingular) do
      keyword
      someSpaces
      shapeId true
      someWhitespace
      if block then traitBlock else traitStatement

/-- Does something with traits, if there are any. -/
def withTraits (traits : Option NodeId) (f : NodeId → Parser Unit) : Parser Unit :=
  match traits with
  | some traits => f traits
  | none => return

/-- A shape with the documentation comments and traits that were read before it. -/
def shapeStatement (docs : Docs) (traits : Option NodeId) : Parser Unit := within .shapeStatement do
  adoptDocs docs
  withTraits traits attach
  within .shapeBody shapeBody

/-- Records an error in a node for traits, if there are any. -/
def misplaced (traits : Option NodeId) (problem : Problem) : Parser Unit :=
  withTraits traits (encloseInError · problem)

/-- A run of traits, if there is one, taken out of the tree. -/
def detachedTraits : Parser (Option NodeId) := do
  let traits ← traitStatements
  withTraits traits detach
  return traits

/-- The end of the line of a statement. A failure is recorded behind the statement. -/
def endStatement : Parser Docs := do return (← recovering .statement endLine).join

/-- A statement with the end of its line, or the whitespace that comes instead. Gives the documentation
    comments of what follows. -/
def shapeOrApplyStatement (docs : Docs) : Parser Docs := do
  if (← current).kind.isTrivia then whitespaceUpToDocs
  else
    let traits ← detachedTraits
    if ← isAtKeyword "apply" then
      misplaced traits .traitsOnApply
      within .shapeOrApplyStatement applyStatement
      endStatement
    else if ← isAt .identifier then
      within .shapeOrApplyStatement (shapeStatement docs traits)
      endStatement
    else if traits.isSome then
      misplaced traits .danglingTraits
      return none
    else
      within .shapeOrApplyStatement do fail (.noStatement (← current))
      return none

/-- Statements up to the end of the text. -/
def shapeStatements (docs : Docs) : Parser Unit := within .shapeStatements do
  let _ ← foldWhile (fun _ b => b.hasNext) shapeOrApplyStatement docs

end SmithyIdl.Grammar
