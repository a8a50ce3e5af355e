import SmithyIdl.Fault
import SmithyIdl.Problem
import SmithyIdl.Tree.Kind

/-!
# Syntax trees

All nodes of a tree stand in one array and name each other by their index, so a node keeps its name while
it is moved. A node knows its parent and its children. It also keeps the tokens below it once they were
asked for; every edit forgets what was kept along the way up to the root.

Edits check all their rules of use before they write anything.
-/

namespace SmithyIdl

/-- The name of a node: its index among the nodes of the tree. Names have no bound; those of a parsed text of up to
    2^28 - 1 bytes fit in 32 bits (`Grammar.Finished.names_fit`). -/
abbrev NodeId := Nat

/-- The name of a token: its index among the tokens of the text. -/
abbrev TokenId := Nat

/-- What an error node reports, and where it stands when it has no tokens. -/
structure Mark where
  problem : Problem
  offset : Nat
  position : Position
deriving DecidableEq

/-- What an inner node is. -/
inductive Label where
  | plain (kind : TreeKind)
  | error (mark : Mark)
deriving DecidableEq

/-- What a node holds: a leaf one token, every other node its children. -/
inductive NodeContent where
  | leaf (token : TokenId)
  | branch (label : Label) (children : Array NodeId)
deriving DecidableEq

/-- A node, which is linked to its parent and to its children. -/
structure Node where
  content : NodeContent
  parent : Option NodeId := none
  /-- The tokens below the node, where they are known. -/
  cache : Option (Array TokenId) := none
deriving DecidableEq

/-- All nodes that were made, by their names, and the tokens of the text. -/
structure SyntaxTree where
  nodes : Array Node
  tokens : Array Token
deriving DecidableEq

def Label.kind : Label → TreeKind
  | plain kind => kind
  | error _ => .error

def Label.mark? : Label → Option Mark
  | plain _ => none
  | error mark => some mark

namespace Node

def kind (n : Node) : TreeKind :=
  match n.content with
  | .leaf _ => .token
  | .branch label _ => label.kind

def isLeaf (n : Node) : Bool :=
  match n.content with
  | .leaf _ => true
  | .branch .. => false

def token? (n : Node) : Option TokenId :=
  match n.content with
  | .leaf token => some token
  | .branch .. => none

def mark? (n : Node) : Option Mark :=
  match n.content with
  | .leaf _ => none
  | .branch label _ => label.mark?

def children (n : Node) : Array NodeId :=
  match n.content with
  | .leaf _ => #[]
  | .branch _ children => children

/-- Changes the children of an inner node. -/
def mapChildren (f : Array NodeId → Array NodeId) (n : Node) : Node :=
  match n with
  | ⟨.leaf token, parent, cache⟩ => ⟨.leaf token, parent, cache⟩
  | ⟨.branch label children, parent, cache⟩ => ⟨.branch label (f children), parent, cache⟩

def withParent (parent : Option NodeId) (n : Node) : Node := { n with parent }

def withCache (cache : Option (Array TokenId)) (n : Node) : Node := { n with cache }

end Node

namespace SyntaxTree

/-- The tree of a root without children. -/
def new (root : TreeKind) (tokens : Array Token) : SyntaxTree :=
  ⟨#[{ content := .branch (.plain root) #[] }], tokens⟩

/-- The root is the first node. -/
def root : NodeId := 0

/-- How many nodes were ever made; attached or not, no node lies deeper than this. -/
def size (t : SyntaxTree) : Nat := t.nodes.size

def kind? (t : SyntaxTree) (id : NodeId) : Option TreeKind := t.nodes[id]?.map Node.kind

def parent? (t : SyntaxTree) (id : NodeId) : Option NodeId := t.nodes[id]?.bind Node.parent

def childrenOf (t : SyntaxTree) (id : NodeId) : List NodeId :=
  ((t.nodes[id]?.map Node.children).getD #[]).toList

/-- At most `n` steps towards the root. -/
def climb (t : SyntaxTree) : Nat → NodeId → List NodeId
  | 0, _ => []
  | n + 1, id =>
    match t.parent? id with
    | none => []
    | some p => p :: t.climb n p

/-- The nodes above a node, innermost first. -/
def ancestors (t : SyntaxTree) (id : NodeId) : List NodeId := t.climb t.size id

/-! ## New nodes -/

/-- Adds a node without a parent and gives its name. -/
def add (t : SyntaxTree) (content : NodeContent) : NodeId × SyntaxTree :=
  (t.size, { t with nodes := t.nodes.push { content } })

def addLeaf (t : SyntaxTree) (token : TokenId) : NodeId × SyntaxTree := t.add (.leaf token)

def addNode (t : SyntaxTree) (kind : TreeKind) : NodeId × SyntaxTree := t.add (.branch (.plain kind) #[])

def addError (t : SyntaxTree) (mark : Mark) : NodeId × SyntaxTree := t.add (.branch (.error mark) #[])

/-! ## Edits -/

def modify (t : SyntaxTree) (id : NodeId) (f : Node → Node) : SyntaxTree :=
  { t with nodes := t.nodes.modify id f }

/-- Forgets the tokens kept at a node and at all nodes above it. -/
def forget (t : SyntaxTree) (id : NodeId) : SyntaxTree :=
  (id :: t.ancestors id).foldl (fun t i => t.modify i (Node.withCache none)) t

/-- Makes a node the last child of another, unchecked. -/
def link (t : SyntaxTree) (parent child : NodeId) : SyntaxTree :=
  ((t.modify child (Node.withParent (some parent))).modify parent (Node.mapChildren (·.push child))).forget
    parent

/-- Takes a child away from its parent, unchecked. -/
def unlink (t : SyntaxTree) (parent child : NodeId) : SyntaxTree :=
  ((t.modify parent (Node.mapChildren (·.erase child))).modify child (Node.withParent none)).forget parent

/-- The first rule that is broken where a node is to become the last child of another node: that has to be an inner
    node, the child may have no parent yet, and it may not be the other node or above it. -/
def refusal? (t : SyntaxTree) (parent child : NodeId) : Option Fault :=
  match t.nodes[parent]?.map Node.isLeaf with
  | none => some (.outOfBounds t.size parent)
  | some true => some .leafParent
  | some false =>
    match t.nodes[child]?.map Node.parent with
    | none => some (.outOfBounds t.size child)
    | some (some _) => some .alreadyAttached
    | some none => if parent = child ∨ child ∈ t.ancestors parent then some .belowItself else none

/-- Makes a node the last child of another, where no rule is broken. -/
def append (t : SyntaxTree) (parent child : NodeId) : Except Fault SyntaxTree :=
  match t.refusal? parent child with
  | some why => .error why
  | none => .ok (t.link parent child)

/-- Takes a node away from its parent; says whether it was a child of it at all. -/
def remove (t : SyntaxTree) (parent child : NodeId) : Except Fault (Bool × SyntaxTree) :=
  match t.nodes[parent]?.map (·.children.contains child) with
  | none => .error (.outOfBounds t.size parent)
  | some false => .ok (false, t)
  | some true => .ok (true, t.unlink parent child)

/-- Adds a leaf for a token as the last child of a node. -/
def appendLeaf (t : SyntaxTree) (parent : NodeId) (token : TokenId) : Except Fault SyntaxTree :=
  let (leaf, t) := t.addLeaf token
  t.append parent leaf

end SyntaxTree

end SmithyIdl
