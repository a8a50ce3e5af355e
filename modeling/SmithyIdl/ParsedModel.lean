import SmithyIdl.Diagnostic
import SmithyIdl.Grammar.Model
import SmithyIdl.Tree.Query

/-!
# Parsed model files

Parsing always gives a tree with every token of the text in it. What is wrong with the text stands in the
error nodes of the tree.
-/

namespace SmithyIdl

/-- The tree of a file. -/
structure ParsedModel where
  filename : String
  tree : SyntaxTree

/-- How many nodes may be open where nothing else is said. -/
def defaultMaxDepth : Nat := 256

/-- Parses the text of a file. -/
def parse (filename text : String) (maxDepth : Nat := defaultMaxDepth) : Except Fault ParsedModel :=
  match Grammar.model (.ofText filename text maxDepth) with
  | .ok () b => return ⟨filename, ← b.finish⟩
  | .error _ b => return ⟨filename, ← b.finish⟩
  | .fault why => .error why

namespace ParsedModel

/-- What a reader finds in the tree. -/
def read {α : Type} (m : ParsedModel) (r : Reading α) : Except Fault α := r.run' m.tree

/-- The token in the way that an error node holds, or the place where something is missing. -/
def errorRange (id : NodeId) : Reading ByteRange := do
  match ← Reading.firstToken? id with
  | some token => return token.range
  | none => Reading.range id

/-- The error that an error node stands for. -/
def errorOf (filename : String) (id : NodeId) : Reading SyntaxError := do
  return ⟨(← Reading.problem? id).getD (.note ""), filename, ← Reading.start id, ← errorRange id⟩

/-- The errors of the file, in the order of the text. -/
def errors (m : ParsedModel) : Except Fault (List SyntaxError) :=
  m.read do (← Reading.errors SyntaxTree.root).mapM (errorOf m.filename)

def hasErrors (m : ParsedModel) : Except Fault Bool := m.read (Reading.hasErrors SyntaxTree.root)

/-- The errors as diagnostics. -/
def diagnostics (m : ParsedModel) : Except Fault (List Diagnostic) := do
  return (← m.errors).map fun e => ⟨e.message, e.range⟩

/-- The text below the root. -/
def text (m : ParsedModel) : Except Fault String := m.read (Reading.text SyntaxTree.root)

/-- How many nodes of each kind lie below the root, for the kinds that occur. -/
def counts (m : ParsedModel) : List (TreeKind × Nat) :=
  let kinds := (m.tree.descendants SyntaxTree.root).filterMap m.tree.kind?
  (TreeKind.all.map fun kind => (kind, kinds.count kind)).filter (0 < ·.2)

/-- The dump of the tree. -/
def dump (m : ParsedModel) : Except Fault String := m.read (Reading.dump SyntaxTree.root)

end ParsedModel

end SmithyIdl
