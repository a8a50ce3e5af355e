/-!
# Faults

What a caller can do wrong with a tree or with the buffer that builds one. A fault ends the operation that
meets it; no text makes the grammar meet one.
-/

namespace SmithyIdl

/-- A broken rule of use. -/
inductive Fault where
  /-- A node or token that does not exist. -/
  | outOfBounds (size index : Nat)
  /-- A leaf was to get a child. -/
  | leafParent
  /-- A node was to get a second parent. -/
  | alreadyAttached
  /-- A node was to become its own ancestor. -/
  | belowItself
  /-- The end token was to be consumed. -/
  | atEnd
  /-- Documentation comments were to become the first child of a node that has children. -/
  | docsNotFirst (children : Nat)
  /-- A scope was closed while another one was open inside it. -/
  | scopeOrder
  /-- Scopes were open when the tree was finished. -/
  | unclosedScopes (nodes : Nat)
  /-- A repetition went on without consuming a token. -/
  | stalled
deriving DecidableEq

namespace Fault

/-- The text of a fault. -/
def message : Fault → String
  | outOfBounds size index => s!"index out of bounds: the len is {size} but the index is {index}"
  | leafParent => "cannot append a child to a leaf"
  | alreadyAttached => "node is already attached to a parent"
  | belowItself => "appending a node below itself"
  | atEnd => "no token is left to consume"
  | docsNotFirst children =>
    "assertion `left == right` failed\n  left: " ++ toString children ++ "\n right: 0"
  | scopeOrder => "scopes must close innermost first"
  | unclosedScopes _ => "unclosed scopes at the end of the parse"
  | stalled => "a repetition made no progress"

end Fault

end SmithyIdl
