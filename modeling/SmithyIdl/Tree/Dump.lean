import SmithyIdl.Tree.Read

/-!
# Tree dumps

The written form of a tree: a line for each leaf, and for each other node a line with its kind and its
stretch, the lines of its children one step to the right, and a closing brace.
-/

namespace SmithyIdl.Reading

/-- The indentation of a level. -/
def indent (depth : Nat) : String := "".pushn ' ' (4 * depth)

/-- The first line of an inner node, up to its brace. -/
def heading (id : NodeId) : Reading String := do
  let kind := (← kind id).name
  let problem := match ← problem? id with
    | some problem => " " ++ Escape.quoted problem.message
    | none => ""
  return kind ++ problem ++ " " ++ (← start id).describe ++ " - " ++ (← stop id).describe

/-- The lines of a node at a level, going at most `n` levels down. -/
def dumpLines : Nat → Nat → NodeId → Reading (List String)
  | 0, _, _ => pure []
  | n + 1, depth, id => do
    match ← leafToken? id with
    | some token => return [indent depth ++ token.describe]
    | none =>
      let heading := indent depth ++ (← heading id)
      match ← children id with
      | [] => return [heading ++ " \x7b\x7d"]
      | children =>
        let inner ← children.mapM (dumpLines n (depth + 1))
        return (heading ++ " \x7b") :: inner.flatten ++ [indent depth ++ "\x7d"]

/-- The dump of a node. Every line ends with a line feed. -/
def dump (id : NodeId) : Reading String := do
  return String.join ((← dumpLines (← get).size 0 id).map (· ++ "\n"))

end SmithyIdl.Reading
