import SmithyIdl.Grammar.Trait

/-!
# Members

Members are explicit, `name: Target`, or elided, `$name`. Where a member stands decides which names it may
have. Documentation comments behind a member are those of the next one.
-/

namespace SmithyIdl.Grammar

open SmithyIdl.Parser

/-- Where a member stands. -/
inductive MemberSlot where
  | inList
  /-- The first member of a map. -/
  | mapFirst
  /-- The member behind the key of a map. -/
  | mapSecond
  | inStructure
  | inUnion
deriving DecidableEq

namespace MemberSlot

/-- Only the members of a structure can have a default value. -/
def takesValue (p : MemberSlot) : Bool := p = inStructure

/-- The kinds of node for an explicit and for an elided member of the given name. -/
def kindsOf (p : MemberSlot) (name : String) : Except Problem (TreeKind × TreeKind) :=
  match p with
  | inList =>
    if name = "member" then .ok (.explicitListMember, .elidedListMember) else .error (.listMemberName name)
  | mapFirst =>
    if name = "key" then .ok (.explicitMapKey, .elidedMapKey)
    else if name = "value" then .ok (.explicitMapValue, .elidedMapValue)
    else .error (.mapMemberName name)
  | mapSecond =>
    if name = "value" then .ok (.explicitMapValue, .elidedMapValue) else .error (.mapValueName name)
  | inStructure | inUnion => .ok (.explicitStructureMember, .elidedStructureMember)

end MemberSlot

/-- A member that was read: its name, and the documentation comments behind it. -/
structure Member where
  name : String
  docs : Docs

def memberName : Parser Unit := within .shapeMemberName consumeAny

/-- `"=" NodeValue [","]` up to the end of the line. -/
def valueAssignment : Parser Docs := do
  spaces
  consume .equal
  spaces
  nodeValue
  spaces
  if ← isAt .comma then consumeAny
  endLine

/-- Whether an equals sign comes, after spaces or none. -/
def startsAssignment (b : Buffer) : Bool := (b.lookPast 0 (· = .space)).kind = .equal

/-- Behind a member: a value where one is allowed and comes, or whitespace. Gives the documentation comments
    of what follows. -/
def afterMember (takesValue : Bool) : Parser Docs := do
  if takesValue && (← ask startsAssignment) then
    return (← scope .valueAssignment valueAssignment).value.join
  else whitespaceUpToDocs

/-- The kind of node for a member. -/
def memberKind (slot : MemberSlot) (name : String) (elided : Bool) : Parser TreeKind := do
  match slot.kindsOf name with
  | .ok (explicit, implicit) => return if elided then implicit else explicit
  | .error problem => fail problem

/-- The name of the member to come, behind its dollar sign where it is elided. -/
def upcomingName (elided : Bool) : Parser String := do
  let token ← ask (·.peek (if elided then 1 else 0))
  if token.kind = .identifier then return token.lexeme else fail (.noMemberName token)

/-- `"$" Name` or `Name ":" ShapeId` -/
def memberTarget (elided : Bool) : Parser Unit := do
  if elided then
    consumeAny
    memberName
  else
    memberName
    spaces
    consume .colon
    spaces
    shapeId false

/-- What has documentation comments and traits before it. Nothing is read where the traits have an error. -/
def behindTraits {α : Type} (body : Parser (Option α)) (docs : Docs) : Parser (Option α) := do
  adoptDocs docs
  if ← memberTraits then body else return none

/-- A member, behind its traits. -/
def memberBody (slot : MemberSlot) : Parser (Option Member) := do
  let elided := (← expectAny (.ofList [.identifier, .dollar])) = .dollar
  let name ← upcomingName elided
  let kind ← memberKind slot name elided
  within kind (memberTarget elided)
  return some ⟨name, ← afterMember slot.takesValue⟩

/-- A member with its documentation comments and traits. -/
def shapeMember (slot : MemberSlot) (docs : Docs) : Parser (Option Member) := do
  return (← scope .shapeMember (behindTraits (memberBody slot) docs)).value.join

/-- A name with an optional value. -/
def enumMember : Docs → Parser Docs := behindTraits do
  expect .identifier
  memberName
  afterMember true

/-- Whether something is left before the closing brace. -/
def beforeBrace (b : Buffer) : Bool := b.hasNext && !b.isAt .rbrace

/-- A member in a node of the given kind. Gives the documentation comments behind it. -/
def memberIn (kind : TreeKind) (member : Docs → Parser Docs) (docs : Docs) : Parser Docs := do
  return (← scope kind (member docs)).value.join

/-- Members up to the closing brace or the end of the text, each in a node of the given kind. The
    documentation comments behind a member are handed to the next one. -/
def membersOf (kind : TreeKind) (member : Docs → Parser Docs) : Parser Unit := do
  let _ ← foldWhile (fun _ b => beforeBrace b) (memberIn kind member) none

end SmithyIdl.Grammar
