import Mathlib.Computability.RegularExpressions
import SmithyIdl.Token.Kind
import SmithyIdl.Tree.Kind

/-! # The schema of trees

Which children the nodes of a kind have in a tree without errors: the row of their symbols matches the production
of the kind. Trees of errors are in no production. -/

namespace SmithyIdl

/-- What a child is: the kind of its token or of its node. A shape id with a namespace has a symbol of its own. -/
inductive Symbol where
  | token (kind : TokenKind)
  | node (kind : TreeKind)
  | absoluteId
deriving DecidableEq

/-- The symbol of a node of a kind, given the kind of its first child. -/
def Symbol.ofNode (kind : TreeKind) (first : Option TreeKind) : Symbol :=
  if kind = .shapeId ∧ first = some .namespaceId then absoluteId else node kind

namespace Schema

/-- The rows of symbols that a kind of node can have. -/
abbrev Rows := RegularExpression Symbol

/-- A node of a kind. -/
def one (kind : TreeKind) : Rows := .char (.node kind)

/-- A token of a kind. -/
def tok (kind : TokenKind) : Rows := .char (.token kind)

/-- A row, or nothing. -/
def optional (r : Rows) : Rows := 1 + r

/-- A row at least once. -/
def plus (r : Rows) : Rows := r * r.star

/-- One of some rows. -/
def anyOf (rs : List Rows) : Rows := rs.foldr (· + ·) 0

/-- One part behind the other. -/
def sequence (rs : List Rows) : Rows := rs.foldr (· * ·) 1

/-- `w` -/
def space : Rows := optional (one .whitespace)

/-- `s` -/
def blanks : Rows := optional (one .spaces)

/-- `s b` -/
def lineEnd : Rows := sequence [blanks, optional (one .lineBreak)]

/-- A shape id, with a namespace or without one. -/
def shapeId : Rows := one .shapeId + .char .absoluteId

/-- A token of whitespace that is no documentation comment. -/
def whitespaceToken : Rows := anyOf [tok .space, tok .newline, tok .comma, tok .comment]

/-- `HEAD`: the type of a shape and its name. -/
def head : Rows := sequence [one .keyword, one .spaces, tok .identifier, blanks]

/-- The mixins of a shape, if there are any. -/
def mixins : Rows := optional (one .shapeMixins)

/-- The resource, the mixins and the members of a structure. -/
def structureRest : Rows :=
  sequence [optional (sequence [one .structureResource, blanks]), mixins, space, one .structureMembers]

/-- What stands behind a keyword up to the end of the line. -/
def declared (r : Rows) : Rows := sequence [one .keyword, one .spaces, r, lineEnd]

/-- A key and its value up to the end of the line. -/
def setting (sign : TokenKind) : Rows :=
  sequence [one .nodeObjectKey, blanks, tok sign, blanks, one .nodeValue, lineEnd]

/-- A key and its value. -/
def entry : Rows := sequence [one .nodeObjectKey, space, tok .colon, space, one .nodeValue]

/-- Parts with whitespace before them, between an opening and a closing token. -/
def bracketed (opening : TokenKind) (contents : Rows) (closing : TokenKind) : Rows :=
  sequence [tok opening, space, contents, tok closing]

/-- Parts with whitespace behind each. -/
def many (r : Rows) : Rows := (sequence [r, space]).star

/-- `t`: behind a member. -/
def trailing : Rows := one .valueAssignment + sequence [space, space]

/-- A run of traits, if there is one. -/
def traits : Rows := optional (one .traitStatements)

/-- What is documented and has traits. -/
def traited (r : Rows) : Rows := sequence [space, traits, r]

/-- A member with its target. -/
def explicitMember : Rows := sequence [one .shapeMemberName, blanks, tok .colon, blanks, shapeId]

/-- A member that takes its target from elsewhere. -/
def elidedMember : Rows := sequence [tok .dollar, one .shapeMemberName]

/-- The nodes of a member, by its place in a shape. -/
def memberTargets : List TreeKind :=
  [.explicitListMember, .elidedListMember, .explicitMapKey, .elidedMapKey, .explicitMapValue, .elidedMapValue,
    .explicitStructureMember, .elidedStructureMember]

/-- Members between braces, each in a node of the given kind. -/
def members (kind : TreeKind) : Rows := bracketed .lbrace (one kind).star .rbrace

/-- The input or output of an operation: a structure that is defined in place, or the name of one. -/
def operationTarget : Rows :=
  sequence [one .keyword, space, one .inlineStructure + sequence [tok .colon, space, shapeId]]

/-- A keyword, the shape that it is for, and what is applied to it. -/
def applied (r : Rows) : Rows := sequence [one .keyword, one .spaces, shapeId, one .whitespace, r]

/-- The children of a node of a kind. -/
def production : TreeKind → Rows
  | .idl => sequence [space, one .controlSection, one .metadataSection, optional (one .shapeSection)]
  | .controlSection => (one .controlStatement).star
  | .controlStatement => sequence [tok .dollar, setting .colon]
  | .metadataSection => (one .metadataStatement).star
  | .metadataStatement => sequence [one .keyword, one .spaces, setting .equal]
  | .shapeSection => sequence [one .namespaceStatement, one .useSection, one .shapeStatements]
  | .namespaceStatement => declared (one .namespaceId)
  | .useSection => (one .useStatement).star
  | .useStatement => declared (.char .absoluteId)
  | .shapeStatements => (sequence [one .shapeOrApplyStatement, lineEnd]).star
  | .shapeOrApplyStatement => one .shapeStatement + one .applyStatement
  | .shapeStatement => traited (one .shapeBody)
  | .shapeBody =>
    anyOf [one .simpleShapeStatement, one .enumStatement, one .listStatement, one .mapStatement,
      one .structureStatement, one .unionStatement, one .serviceStatement, one .resourceStatement,
      one .operationStatement]
  | .simpleShapeStatement => sequence [head, mixins]
  | .enumStatement => sequence [head, mixins, space, one .enumMembers]
  | .enumMembers => members .enumMember
  | .enumMember => traited (sequence [one .shapeMemberName, trailing])
  | .listStatement => sequence [head, mixins, space, one .listMembers]
  | .listMembers => bracketed .lbrace (sequence [optional (one .listMember), space]) .rbrace
  | .listMember => one .shapeMember
  | .mapStatement => sequence [head, mixins, space, one .mapMembers]
  | .mapMembers =>
    bracketed .lbrace (sequence [optional (sequence [one .shapeMember, optional (one .shapeMember)]), space]) .rbrace
  | .structureStatement => sequence [head, structureRest]
  | .structureMembers => members .structureMember
  | .structureMember => one .shapeMember
  | .unionStatement => sequence [head, mixins, space, one .unionMembers]
  | .unionMembers => members .unionMember
  | .unionMember => one .shapeMember
  | .serviceStatement => sequence [head, mixins, space, one .nodeObject]
  | .resourceStatement => sequence [head, mixins, space, one .nodeObject]
  | .operationStatement => sequence [head, mixins, space, one .operationBody]
  | .operationBody =>
    bracketed .lbrace (many (anyOf [one .operationInput, one .operationOutput, one .operationErrors])) .rbrace
  | .operationInput => operationTarget
  | .operationOutput => operationTarget
  | .operationErrors =>
    sequence [one .keyword, space, tok .colon, space, bracketed .lbracket (many shapeId) .rbracket]
  | .inlineStructure => sequence [tok .walrus, space, traits, structureRest]
  | .shapeMixins =>
    sequence [one .keyword, space, bracketed .lbracket (plus (sequence [shapeId, space])) .rbracket]
  | .shapeMember => traited (sequence [anyOf (memberTargets.map one), trailing])
  | .explicitListMember | .explicitMapKey | .explicitMapValue | .explicitStructureMember => explicitMember
  | .elidedListMember | .elidedMapKey | .elidedMapValue | .elidedStructureMember => elidedMember
  | .shapeMemberName => tok .identifier
  | .structureResource => sequence [one .keyword, one .spaces, shapeId]
  | .valueAssignment =>
    sequence [blanks, tok .equal, blanks, one .nodeValue, blanks, optional (tok .comma), lineEnd]
  | .traitStatements => plus (sequence [one .trait, space])
  | .trait => sequence [tok .atSign, shapeId, optional (one .traitBody)]
  | .traitBody =>
    bracketed .lparen (optional (sequence [one .traitStructure + one .traitBodyValue, space])) .rparen
  | .traitBodyValue => one .nodeValue
  | .traitStructure => plus (sequence [one .traitStructureEntry, space])
  | .traitStructureEntry => entry
  | .applyStatement => one .applyStatementSingular + one .applyStatementBlock
  | .applyStatementSingular => applied (one .trait)
  | .applyStatementBlock => applied (bracketed .lbrace (sequence [traits, space]) .rbrace)
  | .nodeValue =>
    anyOf [one .nodeArray, one .nodeObject, tok .string, tok .textBlock, tok .number, one .keyword, shapeId]
  | .nodeArray => bracketed .lbracket (many (one .nodeValue)) .rbracket
  | .nodeObject => bracketed .lbrace (many (one .nodeObjectEntry)) .rbrace
  | .nodeObjectEntry => entry
  | .nodeObjectKey => tok .string + tok .identifier
  | .shapeId => sequence [optional (sequence [one .namespaceId, tok .pound]), tok .identifier,
      optional (sequence [tok .dollar, one .shapeIdMember])]
  | .shapeIdMember => tok .identifier
  | .namespaceId => sequence [tok .identifier, (sequence [tok .dot, tok .identifier]).star]
  | .spaces => plus (tok .space)
  | .whitespace => plus (whitespaceToken + tok .docComment)
  | .lineBreak =>
    sequence [anyOf [tok .newline, tok .comment, tok .docComment], whitespaceToken.star, space]
  | .keyword => tok .identifier
  | .error => 0
  | .token => 0

end Schema

end SmithyIdl
