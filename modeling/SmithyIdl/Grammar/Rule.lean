import SmithyIdl.Grammar.Model

/-!
# Rules by name

The rules of the grammar that can be run on their own, at any place of a text.
-/

namespace SmithyIdl

/-- A rule of the grammar. -/
inductive Rule where
  | model | controlSection | metadataSection | shapeSection | shapeStatements | shapeBody
  | traitStatements | traitStatement
  | nodeValue | nodeObject | entry | objectKey
  | namespaceId | shapeId | shapeIdWithMember | absoluteShapeId
  | spaces | someSpaces | whitespace | someWhitespace | whitespaceUpToDocs | endLine
  | member (slot : Grammar.MemberSlot)
  | enumMember
deriving DecidableEq

/-- What a rule gives. -/
inductive RuleValue where
  | nothing
  | flag (value : Bool)
  /-- The name of a member, and whether documentation comments follow it. -/
  | member (name : String) (docs : Bool)
deriving DecidableEq

namespace Rule

/-- Runs a rule for its effect. -/
def silently (p : Parser Unit) : Parser RuleValue := do
  p
  return .nothing

/-- Runs a rule that may give a node. -/
def givesNode (p : Parser (Option NodeId)) : Parser RuleValue := do return .flag (← p).isSome

/-- Runs a rule for members. -/
def givesMember (p : Parser (Option Grammar.Member)) : Parser RuleValue := do
  match ← p with
  | some m => return .member m.name m.docs.isSome
  | none => return .nothing

/-- A rule as a parser. Rules that take documentation comments get none. -/
def parser : Rule → Parser RuleValue
  | model => silently Grammar.model
  | controlSection => silently Grammar.controlSection
  | metadataSection => silently Grammar.metadataSection
  | shapeSection => silently Grammar.shapeSection
  | shapeStatements => silently (Grammar.shapeStatements none)
  | shapeBody => silently Grammar.shapeBody
  | traitStatements => givesNode Grammar.traitStatements
  | traitStatement => silently Grammar.traitStatement
  | nodeValue => silently Grammar.nodeValue
  | nodeObject => silently Grammar.nodeObject
  | entry => silently Grammar.entry
  | objectKey => silently Grammar.objectKey
  | namespaceId => silently Grammar.namespaceId
  | shapeId => silently (Grammar.shapeId false)
  | shapeIdWithMember => silently (Grammar.shapeId true)
  | absoluteShapeId => silently Grammar.absoluteShapeId
  | spaces => silently Grammar.spaces
  | someSpaces => silently Grammar.someSpaces
  | whitespace => silently Grammar.whitespace
  | someWhitespace => silently Grammar.someWhitespace
  | whitespaceUpToDocs => givesNode Grammar.whitespaceUpToDocs
  | endLine => givesNode Grammar.endLine
  | member slot => givesMember (Grammar.shapeMember slot none)
  | enumMember => givesNode (Grammar.enumMember none)

end Rule

end SmithyIdl
