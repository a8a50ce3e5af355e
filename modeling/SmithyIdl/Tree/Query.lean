import SmithyIdl.Tree.Dump

/-!
# Questions about a node

The questions that can be asked about a node of a tree, and their answers.
-/

namespace SmithyIdl

/-- A question about a node. -/
inductive Query where
  | info
  /-- What is known about the narrowest node at a position. -/
  | infoAt (line column : Nat)
  | descendants (kind : TreeKind)
  | children (kind : TreeKind)
  | firstChild (kind : TreeKind)
  | lastChild (kind : TreeKind)
  | tokens
  /-- The tokens with a value. -/
  | values
  | errors
  | dump

/-- All that is known about a node. -/
structure NodeInfo where
  brief : Brief
  isLeaf : Bool
  token : Option Token
  problem : Option Problem
  range : ByteRange
  start : Position
  stop : Position
  text : String
  children : List Brief
  ancestors : List Brief
  errors : List Brief
  hasErrors : Bool
  tokenCount : Nat

/-- An error node with what it reports and where. -/
structure ErrorInfo where
  brief : Brief
  problem : Option Problem
  range : ByteRange

/-- The answer to a question. -/
inductive Answer where
  | info (info : NodeInfo)
  | nodes (briefs : List Brief)
  | node (brief : Option Brief)
  | tokens (tokens : List Token)
  | errors (errors : List ErrorInfo)
  | text (text : String)

namespace Reading

def briefs (ids : List NodeId) : Reading (List Brief) := ids.mapM brief

def info (id : NodeId) : Reading NodeInfo := do
  return {
    brief := ← brief id
    isLeaf := (← node id).isLeaf
    token := ← leafToken? id
    problem := ← problem? id
    range := ← range id
    start := ← start id
    stop := ← stop id
    text := ← text id
    children := ← briefs (← children id)
    ancestors := ← briefs (← ancestors id)
    errors := ← briefs (← errors id)
    hasErrors := ← hasErrors id
    tokenCount := ← tokenCount id }

def errorInfo (id : NodeId) : Reading ErrorInfo := do return ⟨← brief id, ← problem? id, ← range id⟩

/-- The answer to a question about a node. -/
def ask (id : NodeId) : Query → Reading Answer
  | .info => .info <$> info id
  | .infoAt line column => do return .info (← info (← findAt line column id))
  | .descendants kind => do return .nodes (← briefs (← descendantsOfKind kind id))
  | .children kind => do return .nodes (← briefs (← childrenOfKind kind id))
  | .firstChild kind => do return .node (← (← childrenOfKind kind id).head?.mapM brief)
  | .lastChild kind => do return .node (← (← childrenOfKind kind id).getLast?.mapM brief)
  | .tokens => .tokens <$> tokens id
  | .values => do return .tokens ((← tokens id).filter (·.literal?.isSome))
  | .errors => do return .errors (← (← errors id).mapM errorInfo)
  | .dump => .text <$> dump id

/-- The node that a path of child indices leads to, if it leads anywhere. -/
def follow (id : NodeId) : List Nat → Reading (Option NodeId)
  | [] => pure (some id)
  | i :: path => do
    match (← children id)[i]? with
    | some child => follow child path
    | none => pure none

end Reading

end SmithyIdl
