/-!
# Tree kinds

The grammatical categories of the nodes of a syntax tree, in their fixed order. Leaves have the kind
`token`, misplaced or missing parts stand in nodes of the kind `error`.
-/

namespace SmithyIdl

/-- The grammatical category of a node. -/
inductive TreeKind where
  | idl
  | controlSection | controlStatement
  | metadataSection | metadataStatement
  | shapeSection | namespaceStatement | useSection | useStatement
  | shapeStatements | shapeOrApplyStatement | shapeStatement | shapeBody
  | simpleShapeStatement
  | enumStatement | enumMembers | enumMember
  | listStatement | listMembers | listMember | elidedListMember | explicitListMember
  | mapStatement | mapMembers | elidedMapKey | explicitMapKey | elidedMapValue | explicitMapValue
  | structureStatement | structureMembers | structureMember | explicitStructureMember
  | elidedStructureMember
  | unionStatement | unionMembers | unionMember
  | serviceStatement | resourceStatement
  | operationStatement | operationBody | operationInput | operationOutput | operationErrors
  | inlineStructure
  | shapeMixins | shapeMember | shapeMemberName | structureResource | valueAssignment
  | traitStatements | trait | traitBody | traitBodyValue | traitStructure | traitStructureEntry
  | applyStatement | applyStatementSingular | applyStatementBlock
  | nodeValue | nodeArray | nodeObject | nodeObjectEntry | nodeObjectKey
  | shapeId | shapeIdMember | namespaceId
  | spaces | whitespace | lineBreak | keyword
  | error | token
deriving DecidableEq

namespace TreeKind

/-- Every kind, in order. -/
def all : List TreeKind :=
  [idl, controlSection, controlStatement, metadataSection, metadataStatement, shapeSection,
    namespaceStatement, useSection, useStatement, shapeStatements, shapeOrApplyStatement, shapeStatement,
    shapeBody, simpleShapeStatement, enumStatement, enumMembers, enumMember, listStatement, listMembers,
    listMember, elidedListMember, explicitListMember, mapStatement, mapMembers, elidedMapKey,
    explicitMapKey, elidedMapValue, explicitMapValue, structureStatement, structureMembers,
    structureMember, explicitStructureMember, elidedStructureMember, unionStatement, unionMembers,
    unionMember, serviceStatement, resourceStatement, operationStatement, operationBody, operationInput,
    operationOutput, operationErrors, inlineStructure, shapeMixins, shapeMember, shapeMemberName,
    structureResource, valueAssignment, traitStatements, trait, traitBody, traitBodyValue, traitStructure,
    traitStructureEntry, applyStatement, applyStatementSingular, applyStatementBlock, nodeValue,
    nodeArray, nodeObject, nodeObjectEntry, nodeObjectKey, shapeId, shapeIdMember, namespaceId, spaces,
    whitespace, lineBreak, keyword, error, token]

/-- The place of a kind in the order. -/
def index (k : TreeKind) : Nat := k.ctorIdx

theorem all_getElem?_index (k : TreeKind) : all[k.index]? = some k := by cases k <;> rfl

theorem mem_all (k : TreeKind) : k ∈ all := List.mem_of_getElem? (all_getElem?_index k)

instance : Ord TreeKind := ⟨fun k l => compare k.index l.index⟩

/-- The written name of a kind. -/
def name : TreeKind → String
  | idl => "IDL"
  | controlSection => "CONTROL_SECTION"
  | controlStatement => "CONTROL_STATEMENT"
  | metadataSection => "METADATA_SECTION"
  | metadataStatement => "METADATA_STATEMENT"
  | shapeSection => "SHAPE_SECTION"
  | namespaceStatement => "NAMESPACE_STATEMENT"
  | useSection => "USE_SECTION"
  | useStatement => "USE_STATEMENT"
  | shapeStatements => "SHAPE_STATEMENTS"
  | shapeOrApplyStatement => "SHAPE_OR_APPLY_STATEMENT"
  | shapeStatement => "SHAPE_STATEMENT"
  | shapeBody => "SHAPE_BODY"
  | simpleShapeStatement => "SIMPLE_SHAPE_STATEMENT"
  | enumStatement => "ENUM_STATEMENT"
  | enumMembers => "ENUM_MEMBERS"
  | enumMember => "ENUM_MEMBER"
  | listStatement => "LIST_STATEMENT"
  | listMembers => "LIST_MEMBERS"
  | listMember => "LIST_MEMBER"
  | elidedListMember => "ELIDED_LIST_MEMBER"
  | explicitListMember => "EXPLICIT_LIST_MEMBER"
  | mapStatement => "MAP_STATEMENT"
  | mapMembers => "MAP_MEMBERS"
  | elidedMapKey => "ELIDED_MAP_KEY"
  | explicitMapKey => "EXPLICIT_MAP_KEY"
  | elidedMapValue => "ELIDED_MAP_VALUE"
  | explicitMapValue => "EXPLICIT_MAP_VALUE"
  | structureStatement => "STRUCTURE_STATEMENT"
  | structureMembers => "STRUCTURE_MEMBERS"
  | structureMember => "STRUCTURE_MEMBER"
  | explicitStructureMember => "EXPLICIT_STRUCTURE_MEMBER"
  | elidedStructureMember => "ELIDED_STRUCTURE_MEMBER"
  | unionStatement => "UNION_STATEMENT"
  | unionMembers => "UNION_MEMBERS"
  | unionMember => "UNION_MEMBER"
  | serviceStatement => "SERVICE_STATEMENT"
  | resourceStatement => "RESOURCE_STATEMENT"
  | operationStatement => "OPERATION_STATEMENT"
  | operationBody => "OPERATION_BODY"
  | operationInput => "OPERATION_INPUT"
  | operationOutput => "OPERATION_OUTPUT"
  | operationErrors => "OPERATION_ERRORS"
  | inlineStructure => "INLINE_STRUCTURE"
  | shapeMixins => "SHAPE_MIXINS"
  | shapeMember => "SHAPE_MEMBER"
  | shapeMemberName => "SHAPE_MEMBER_NAME"
  | structureResource => "STRUCTURE_RESOURCE"
  | valueAssignment => "VALUE_ASSIGNMENT"
  | traitStatements => "TRAIT_STATEMENTS"
  | trait => "TRAIT"
  | traitBody => "TRAIT_BODY"
  | traitBodyValue => "TRAIT_BODY_VALUE"
  | traitStructure => "TRAIT_STRUCTURE"
  | traitStructureEntry => "TRAIT_STRUCTURE_KVP"
  | applyStatement => "APPLY_STATEMENT"
  | applyStatementSingular => "APPLY_STATEMENT_SINGULAR"
  | applyStatementBlock => "APPLY_STATEMENT_BLOCK"
  | nodeValue => "NODE_VALUE"
  | nodeArray => "NODE_ARRAY"
  | nodeObject => "NODE_OBJECT"
  | nodeObjectEntry => "NODE_OBJECT_KVP"
  | nodeObjectKey => "NODE_OBJECT_KEY"
  | shapeId => "SHAPE_ID"
  | shapeIdMember => "SHAPE_ID_MEMBER"
  | namespaceId => "NAMESPACE"
  | spaces => "SPACES"
  | whitespace => "WHITESPACE"
  | lineBreak => "BR"
  | keyword => "KEYWORD"
  | error => "ERROR"
  | token => "TOKEN"

/-- The kind of a written name. -/
def ofName? (s : String) : Option TreeKind := all.find? (·.name = s)

/-- Members that are written with a name and a target. -/
def isExplicitMember : TreeKind → Bool
  | explicitListMember | explicitMapKey | explicitMapValue | explicitStructureMember => true
  | _ => false

/-- Members that are written as a dollar sign and a name. -/
def isElidedMember : TreeKind → Bool
  | elidedListMember | elidedMapKey | elidedMapValue | elidedStructureMember => true
  | _ => false

end TreeKind

end SmithyIdl
