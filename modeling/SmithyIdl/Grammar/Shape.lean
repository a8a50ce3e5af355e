import SmithyIdl.Grammar.Operation

/-!
# Shape bodies

The keyword of a shape decides how it goes on.
-/

namespace SmithyIdl.Grammar

open SmithyIdl.Parser

/-- The ways in which shapes are written. -/
inductive ShapeForm where
  /-- A name and nothing else. -/
  | simple
  | enumeration
  | list
  | map
  | struct
  | union
  | service
  | resource
  | operation
deriving DecidableEq

namespace ShapeForm

/-- The shape types that are written as a name alone. -/
def simpleTypes : List String :=
  ["blob", "boolean", "document", "string", "byte", "short", "integer", "long", "float", "double",
    "bigInteger", "bigDecimal", "timestamp"]

/-- How shapes of a type are written. -/
def ofType? (type : String) : Option ShapeForm :=
  if type ∈ simpleTypes then some simple
  else
    match type with
    | "enum" | "intEnum" => some enumeration
    | "list" | "set" => some list
    | "map" => some map
    | "structure" => some struct
    | "union" => some union
    | "service" => some service
    | "resource" => some resource
    | "operation" => some operation
    | _ => none

/-- The kind of node for a statement. -/
def kind : ShapeForm → TreeKind
  | simple => .simpleShapeStatement
  | enumeration => .enumStatement
  | list => .listStatement
  | map => .mapStatement
  | struct => .structureStatement
  | union => .unionStatement
  | service => .serviceStatement
  | resource => .resourceStatement
  | operation => .operationStatement

end ShapeForm

def simpleStatement : Parser Unit := do
  typedName
  mixins

/-- Services and resources have their properties in a node object. -/
def entityStatement : Parser Unit := do
  headUpToBrace
  nodeObject

/-- The statement of a shape, from its type on. -/
def ShapeForm.statement : ShapeForm → Parser Unit
  | simple => simpleStatement
  | enumeration => enumStatement
  | list => listStatement
  | map => mapStatement
  | struct => structureStatement
  | union => unionStatement
  | service | resource => entityStatement
  | operation => operationStatement

/-- A shape of a type, with the type. -/
def shapeOfType (type : String) : Parser Unit :=
  match ShapeForm.ofType? type with
  | some form => within form.kind form.statement
  | none => fail (.unknownShapeType type)

/-- A shape, by the type that comes. -/
def shapeBody : Parser Unit := do shapeOfType (← current).lexeme

end SmithyIdl.Grammar
