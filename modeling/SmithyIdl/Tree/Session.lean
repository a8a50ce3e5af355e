import SmithyIdl.Tree.Query

/-!
# Sessions with a tree

A session is a list of edits and questions. A request that breaks a rule of use is answered with the fault,
and the session goes on with the tree that the request leaves.
-/

namespace SmithyIdl

/-- A request to a tree. -/
inductive TreeRequest where
  | leaf (token : TokenId)
  | node (kind : TreeKind)
  | nodeWithTokens (kind : TreeKind) (tokens : List TokenId)
  | error (mark : Mark)
  | append (parent child : NodeId)
  | remove (parent child : NodeId)
  | ask (node : NodeId) (query : Query)
  | parentOf (node : NodeId)
  /-- Whether two names are those of one node. -/
  | same (node other : NodeId)
  | dump

/-- The answer to a request. -/
inductive TreeReply where
  | made (node : NodeId)
  | done
  | flag (value : Bool)
  | parent (node : Option NodeId)
  | answer (answer : Answer)
  | fault (why : Fault)

/-- A step of a session, which edits the tree in place. Where it meets a fault it ends, and leaves the tree with what
    was written before. -/
abbrev TreeEdit := ExceptT Fault (StateM SyntaxTree)

namespace TreeEdit

variable {α : Type}

/-- The value of a step or its fault, and the tree that it leaves. -/
def on (e : TreeEdit α) (t : SyntaxTree) : Except Fault α × SyntaxTree := e.run.run t

/-- The node of a name. -/
def node (id : NodeId) : TreeEdit Node := do
  let t ← get
  match t.nodes[id]? with
  | some n => return n
  | none => throw (.outOfBounds t.size id)

def write (id : NodeId) (f : Node → Node) : TreeEdit Unit := modify (·.modify id f)

/-- Adds a node without a parent. -/
def create (content : NodeContent) : TreeEdit NodeId := modifyGet (·.add content)

/-- Makes a node the last child of another: all rules are checked, and then both nodes are written. -/
def append (parent child : NodeId) : TreeEdit Unit := do
  match (← get).refusal? parent child with
  | some why => throw why
  | none =>
    write child (Node.withParent (some parent))
    write parent (Node.mapChildren (·.push child))
    modify (·.forget parent)

/-- Takes a node away from its parent; says whether it was a child of it at all. -/
def remove (parent child : NodeId) : TreeEdit Bool := do
  if (← node parent).children.contains child then
    write parent (Node.mapChildren (·.erase child))
    write child (Node.withParent none)
    modify (·.forget parent)
    return true
  else return false

/-- Adds a node with one leaf for each token. -/
def createWithTokens (kind : TreeKind) (tokens : List TokenId) : TreeEdit NodeId := do
  let node ← create (.branch (.plain kind) #[])
  tokens.forM fun token => do append node (← create (.leaf token))
  return node

/-- Reads in place. -/
def reading (r : Reading α) : TreeEdit α := fun t =>
  match r t with
  | .ok (a, t) => (.ok a, t)
  | .error why => (.error why, t)

end TreeEdit

namespace TreeRequest

/-- Does what is asked for. -/
def run : TreeRequest → TreeEdit TreeReply
  | leaf token => return .made (← .create (.leaf token))
  | node kind => return .made (← .create (.branch (.plain kind) #[]))
  | nodeWithTokens kind tokens => return .made (← .createWithTokens kind tokens)
  | error mark => return .made (← .create (.branch (.error mark) #[]))
  | append parent child => do
    .append parent child
    return .done
  | remove parent child => return .flag (← .remove parent child)
  | ask id query => return .answer (← .reading (Reading.ask id query))
  | parentOf id => return .parent (← .reading (Reading.parent? id))
  | same id other => return .flag (id = other)
  | dump => return .answer (← .reading (Reading.ask SyntaxTree.root .dump))

/-- The answer to a request, and the tree that it leaves. -/
def answer (t : SyntaxTree) (r : TreeRequest) : TreeReply × SyntaxTree :=
  match r.run.on t with
  | (.ok reply, t) => (reply, t)
  | (.error why, t) => (.fault why, t)

/-- The answers to some requests, in turn. -/
def answers (t : SyntaxTree) : List TreeRequest → List TreeReply × SyntaxTree
  | [] => ([], t)
  | r :: rs =>
    let (reply, t) := r.answer t
    let (replies, t) := answers t rs
    (reply :: replies, t)

end TreeRequest

end SmithyIdl
