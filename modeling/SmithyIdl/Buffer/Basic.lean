import SmithyIdl.SyntaxError
import SmithyIdl.Token.Stream
import SmithyIdl.Tree.Read

/-!
# The parse buffer

A buffer stands between two tokens of a text and builds the tree of those before it. Some nodes of the tree
are open; a token that is consumed becomes the last child of the innermost of them. The tokens end with the
end token, which is looked at but never consumed.
-/

namespace SmithyIdl

/-- The state of a parse. -/
structure Buffer where
  filename : String
  tree : SyntaxTree
  /-- The index of the token to come. -/
  cursor : Nat
  /-- The open nodes, innermost first. The outermost is the root. -/
  openNodes : List NodeId
  /-- How many nodes may be open. -/
  maxDepth : Nat
  /-- How many problems were reported. -/
  errors : Nat

namespace Buffer

/-- At the start of a text, with the root open. -/
def ofText (filename text : String) (maxDepth : Nat) : Buffer :=
  { filename, tree := .new .idl (tokens text).toArray, cursor := 0, openNodes := [SyntaxTree.root],
    maxDepth, errors := 0 }

/-- The index of the end token. -/
def eof (b : Buffer) : Nat := b.tree.tokens.size - 1

/-- The token `k` places ahead; from some place on, the end token. -/
def peek (b : Buffer) (k : Nat) : Token := b.tree.tokens[min (b.cursor + k) b.eof]?.getD .nothing

/-- The token to come. -/
def current (b : Buffer) : Token := b.peek 0

/-- Whether a token is left to consume. -/
def hasNext (b : Buffer) : Bool := b.cursor < b.eof

/-- How many tokens are left to consume. -/
def remaining (b : Buffer) : Nat := b.eof - b.cursor

/-- The first token from `k` places ahead on whose kind is not in a class, or the end token. -/
def lookPast (b : Buffer) (k : Nat) (p : TokenKind → Bool) : Token :=
  if b.cursor + k < b.eof ∧ p (b.peek k).kind then b.lookPast (k + 1) p else b.peek k
termination_by b.eof - (b.cursor + k)

def isAt (b : Buffer) (kind : TokenKind) : Bool := b.current.kind = kind

def isAtKeyword (b : Buffer) (keyword : String) : Bool := b.current.isIdentifier keyword

/-- The innermost open node. -/
def innermost (b : Buffer) : NodeId := b.openNodes.head?.getD SyntaxTree.root

/-- Whether more nodes are open than may be. -/
def isTooDeep (b : Buffer) : Bool := b.maxDepth < b.openNodes.length

/-- A problem at the token to come. -/
def syntaxError (b : Buffer) (problem : Problem) : SyntaxError :=
  ⟨problem, b.filename, b.current.start, b.current.range⟩

/-- The finished tree. Only the root may still be open. -/
def finish (b : Buffer) : Except Fault SyntaxTree :=
  if b.openNodes.length = 1 then .ok b.tree else .error (.unclosedScopes b.openNodes.length)

end Buffer

end SmithyIdl
