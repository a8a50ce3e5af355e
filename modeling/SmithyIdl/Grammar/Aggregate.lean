import SmithyIdl.Grammar.Member
import SmithyIdl.Grammar.ShapeHead

/-!
# Shapes with members
-/

namespace SmithyIdl.Grammar

open SmithyIdl.Parser

/-- The type, name and mixins of a shape, up to its opening brace, which has to follow. -/
def headUpToBrace : Parser Unit := do
  typedName
  mixins
  whitespace
  expect .lbrace

/-- The opening brace, the contents and the closing brace of a shape. -/
def braced (kind : TreeKind) (contents : Parser Unit) : Parser Unit := within kind do
  consumeAny
  whitespace
  contents
  consume .rbrace

def enumStatement : Parser Unit := do
  headUpToBrace
  braced .enumMembers (membersOf .enumMember enumMember)

/-- A list has at most one member. -/
def listStatement : Parser Unit := do
  headUpToBrace
  braced .listMembers do
    if ← ask beforeBrace then
      within .listMember do let _ ← shapeMember .inList none
    whitespace

/-- The member of a map behind its first one. -/
def secondMember (first : Member) : Parser Unit := do
  if ← ask beforeBrace then
    if first.name = "value" then fail .afterMapValue
    else
      let _ ← shapeMember .mapSecond first.docs

/-- A key and a value, in this order, or one of them. -/
def keyAndValue : Parser Unit := do
  match ← shapeMember .mapFirst none with
  | some first => secondMember first
  | none => return

def mapMembers : Parser Unit := do
  if ← ask beforeBrace then keyAndValue
  whitespace

def mapStatement : Parser Unit := do
  headUpToBrace
  braced .mapMembers mapMembers

/-- A member of a structure or union. Gives the documentation comments behind it. -/
def blockMember (slot : MemberSlot) (docs : Docs) : Parser Docs := do
  return (← shapeMember slot docs).bind Member.docs

/-- The members of a structure or union, each in a node of the given kind. -/
def memberBlock (container wrapper : TreeKind) (slot : MemberSlot) : Parser Unit := do
  expect .lbrace
  braced container (membersOf wrapper (blockMember slot))

/-- A structure, behind its name or the sign of an inline structure. -/
def structureRest : Parser Unit := do
  structureResource
  mixins
  whitespace
  memberBlock .structureMembers .structureMember .inStructure

def structureStatement : Parser Unit := do
  typedName
  structureRest

def unionStatement : Parser Unit := do
  typedName
  mixins
  whitespace
  memberBlock .unionMembers .unionMember .inUnion

end SmithyIdl.Grammar
