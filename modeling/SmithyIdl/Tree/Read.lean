import SmithyIdl.Tree.Basic

/-!
# Reading a tree

The text and the place of a node are those of the tokens below it. Reading them keeps the tokens at the
node, so a reader may change what the tree keeps, and nothing else. Only tokens that are looked at have to
exist.
-/

namespace SmithyIdl

/-- A reader of a tree, which may keep tokens at nodes. -/
abbrev Reading := StateT SyntaxTree (Except Fault)

/-- What locates a node: its kind and where it starts and ends. -/
structure Brief where
  kind : TreeKind
  start : Position
  stop : Position
deriving DecidableEq

/-- The written form of a brief. -/
def Brief.describe (b : Brief) : String := b.kind.name ++ "@" ++ b.start.describe ++ "-" ++ b.stop.describe

namespace SyntaxTree

/-- Appends the tokens below a node to `seen`, going at most `n` levels down and using what is kept at the
    nodes on the way. -/
def gather (t : SyntaxTree) : Nat → Array TokenId → NodeId → Array TokenId
  | 0, seen, _ => seen
  | n + 1, seen, id =>
    match t.nodes[id]? with
    | none => seen
    | some ⟨.leaf token, _, _⟩ => seen.push token
    | some ⟨.branch _ _, _, some kept⟩ => seen ++ kept
    | some ⟨.branch _ children, _, none⟩ => children.foldl (t.gather n) seen

/-- The nodes below a node, each before those below it, going at most `n` levels down. -/
def descendantsWithin (t : SyntaxTree) : Nat → NodeId → List NodeId
  | 0, _ => []
  | n + 1, id => (t.childrenOf id).flatMap fun child => child :: t.descendantsWithin n child

/-- The nodes below a node, in the order of the text. -/
def descendants (t : SyntaxTree) (id : NodeId) : List NodeId := t.descendantsWithin t.size id

end SyntaxTree

namespace Reading

/-- A node that has to exist. -/
def node (id : NodeId) : Reading Node := fun t =>
  match t.nodes[id]? with
  | some n => .ok (n, t)
  | none => .error (.outOfBounds t.size id)

/-- A token that has to exist. -/
def token (id : TokenId) : Reading Token := fun t =>
  match t.tokens[id]? with
  | some token => .ok (token, t)
  | none => .error (.outOfBounds t.tokens.size id)

def kind (id : NodeId) : Reading TreeKind := Node.kind <$> node id

/-- The names of the tokens below a node, in order. They are kept at the node. -/
def tokenIds (id : NodeId) : Reading (Array TokenId) := fun t =>
  match t.nodes[id]?.map Node.cache with
  | none => .error (.outOfBounds t.size id)
  | some (some kept) => .ok (kept, t)
  | some none =>
    let ids := t.gather t.size #[] id
    .ok (ids, t.modify id (Node.withCache (some ids)))

/-- The tokens below a node, in order. -/
def tokens (id : NodeId) : Reading (List Token) := do (← tokenIds id).toList.mapM token

def tokenCount (id : NodeId) : Reading Nat := Array.size <$> tokenIds id

/-- The token of a leaf. -/
def leafToken? (id : NodeId) : Reading (Option Token) := do
  match (← node id).token? with
  | some ref => some <$> token ref
  | none => pure none

/-- The problem that an error node reports. -/
def problem? (id : NodeId) : Reading (Option Problem) := do return (← node id).mark?.map Mark.problem

def firstToken? (id : NodeId) : Reading (Option Token) := do
  match (← tokenIds id)[0]? with
  | some ref => some <$> token ref
  | none => pure none

def lastToken? (id : NodeId) : Reading (Option Token) := do
  match (← tokenIds id).back? with
  | some ref => some <$> token ref
  | none => pure none

/-- The characters of all tokens below a node. -/
def text (id : NodeId) : Reading String := do return String.join ((← tokens id).map Token.lexeme)

/-- Where an error node without tokens stands; other nodes without tokens are nowhere. -/
def emptyPosition (id : NodeId) : Reading Position := do
  return ((← node id).mark?.map Mark.position).getD .nowhere

def start (id : NodeId) : Reading Position := do
  match ← firstToken? id with
  | some token => pure token.start
  | none => emptyPosition id

def stop (id : NodeId) : Reading Position := do
  match ← lastToken? id with
  | some token => pure token.stop
  | none => emptyPosition id

/-- The bytes from the first token to the last. Without tokens, the empty range where an error node
    stands, or the one at the start of the text. -/
def range (id : NodeId) : Reading ByteRange := do
  match ← firstToken? id, ← lastToken? id with
  | some first, some last => return first.range.cover last.range
  | _, _ => return .empty (((← node id).mark?.map Mark.offset).getD 0)

def brief (id : NodeId) : Reading Brief := do return ⟨← kind id, ← start id, ← stop id⟩

/-! ## Relatives -/

def parent? (id : NodeId) : Reading (Option NodeId) := Node.parent <$> node id

def children (id : NodeId) : Reading (List NodeId) := do return (← node id).children.toList

/-- The nodes above a node, innermost first. -/
def ancestors (id : NodeId) : Reading (List NodeId) := do
  let _ ← node id
  return (← get).ancestors id

/-- The nodes below a node, in the order of the text. -/
def descendants (id : NodeId) : Reading (List NodeId) := do
  let _ ← node id
  return (← get).descendants id

def ofKind (kind : TreeKind) (ids : List NodeId) : Reading (List NodeId) := do
  let t ← get
  return ids.filter fun id => t.kind? id = some kind

def childrenOfKind (kind : TreeKind) (id : NodeId) : Reading (List NodeId) := do
  ofKind kind (← children id)

/-- All nodes of a kind below a node, in the order of the text. -/
def descendantsOfKind (kind : TreeKind) (id : NodeId) : Reading (List NodeId) := do
  ofKind kind (← descendants id)

/-- All error nodes of a subtree, its top included, in the order of the text. -/
def errors (id : NodeId) : Reading (List NodeId) := do
  let below ← descendantsOfKind .error id
  if (← kind id) = .error then return id :: below else return below

def hasErrors (id : NodeId) : Reading Bool := do return !(← errors id).isEmpty

/-! ## Looking up a position -/

/-- Whether a position lies between two others. On one line the end is excluded; a stretch of several
    lines includes its end, and all of the lines between. -/
def within (start stop : Position) (line column : Nat) : Bool :=
  if start.line = stop.line then line = start.line && start.column ≤ column && column < stop.column
  else
    (line = start.line && start.column ≤ column) || (line = stop.line && column ≤ stop.column) ||
      (start.line < line && line < stop.line)

/-- Whether the stretch of a node holds a position. -/
def contains (line column : Nat) (id : NodeId) : Reading Bool := do
  return within (← start id) (← stop id) line column

/-- Goes down to the first child that holds the position, at most `n` times. -/
def findAtWithin (line column : Nat) : Nat → NodeId → Reading NodeId
  | 0, id => pure id
  | n + 1, id => do
    match ← (← children id).findM? (contains line column) with
    | some child => findAtWithin line column n child
    | none => pure id

/-- The narrowest node below a node that holds a position. -/
def findAt (line column : Nat) (id : NodeId) : Reading NodeId := do
  findAtWithin line column (← get).size id

end Reading

end SmithyIdl
