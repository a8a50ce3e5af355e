import SmithyIdl.Problem

/-!
# Located problems
-/

namespace SmithyIdl

/-- A problem with the file and the place where it was met. -/
structure SyntaxError where
  problem : Problem
  filename : String
  position : Position
  range : ByteRange
deriving DecidableEq

namespace SyntaxError

def message (e : SyntaxError) : String := e.problem.message

/-- The report of an error on one line. -/
def describe (e : SyntaxError) : String :=
  "Syntax error at " ++ e.filename ++ " [" ++ toString e.position.line ++ ", " ++ toString e.position.column
    ++ "]: " ++ e.message

end SyntaxError

end SmithyIdl
