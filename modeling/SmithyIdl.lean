import SmithyIdl.Main
import SmithyIdl.Session
import SmithyIdl.Tree.Session
import SmithyIdl.Proofs.ParsedModel
import SmithyIdl.Proofs.Text.Position
import SmithyIdl.Proofs.Token.Places
import SmithyIdl.Proofs.Spans
import SmithyIdl.Proofs.Schema.Productions
import SmithyIdl.Proofs.Tree.Guard
import SmithyIdl.Proofs.Buffer.Guards
import SmithyIdl.Proofs.Buffer.Writes
import SmithyIdl.Proofs.Schema.Values
import SmithyIdl.Proofs.Schema.Docs
import SmithyIdl.Proofs.Schema.Members
import SmithyIdl.Proofs.Schema.Shapes
import SmithyIdl.Proofs.Schema.Ends
import SmithyIdl.Proofs.Schema.Statements
import SmithyIdl.Proofs.Schema.Model
import SmithyIdl.Proofs.Schema.Trees
import SmithyIdl.Proofs.Acceptance
import SmithyIdl.Proofs.Tree.Links
import SmithyIdl.Proofs.Tree.Session
import SmithyIdl.Proofs.ErrorCount
import SmithyIdl.Proofs.Buffer.Program
import SmithyIdl.Proofs.DepthLimit
import SmithyIdl.Proofs.Nesting
import SmithyIdl.Proofs.Diagnostics
import SmithyIdl.Proofs.Token.Displaced
import SmithyIdl.Proofs.Token.Lines
import SmithyIdl.Proofs.Token.Partition
import SmithyIdl.Proofs.Token.Alone
import SmithyIdl.Proofs.Tree.Alongside
import SmithyIdl.Proofs.Buffer.Alongside
import SmithyIdl.Proofs.LineBreaks
import SmithyIdl.Proofs.Text.LineBreaks
import SmithyIdl.Proofs.Token.LineBreaks
import SmithyIdl.Proofs.Buffer.Takes
import SmithyIdl.Proofs.Grammar.Preamble
import SmithyIdl.Proofs.Tree.Displaced
import SmithyIdl.Proofs.Isolation
import SmithyIdl.Proofs.Resynchronization
import SmithyIdl.Proofs.Lookup
import SmithyIdl.Proofs.NodeValue
import SmithyIdl.Proofs.Separation
import SmithyIdl.Proofs.Token.Trivia
import SmithyIdl.Proofs.Buffer.Unique
import SmithyIdl.Proofs.Trivia.Trail
import SmithyIdl.Proofs.Trivia.Orderly
import SmithyIdl.Proofs.Trivia.Orders
import SmithyIdl.Proofs.Trivia.Handed
import SmithyIdl.Proofs.Trivia.LineEnds
import SmithyIdl.Proofs.Trivia.Lasts
import SmithyIdl.Proofs.Trivia.Members
import SmithyIdl.Proofs.Trivia.Shapes
import SmithyIdl.Proofs.Trivia.Statements
import SmithyIdl.Proofs.Trivia.Model
import SmithyIdl.Proofs.Trivia.Trees
import SmithyIdl.Proofs.Trivia.Crosses
import SmithyIdl.Proofs.Trivia.Respaced
import SmithyIdl.Proofs.DocComments
import SmithyIdl.Proofs.InlineStructure
import SmithyIdl.Proofs.Discipline.Trees
import SmithyIdl.Proofs.BrokenValues
import SmithyIdl.Proofs.MemberRules
import SmithyIdl.Proofs.TraitRuns
import SmithyIdl.Proofs.Buffer.Built
import SmithyIdl.Proofs.FailedScope
import SmithyIdl.Proofs.Literal.TextBlock
import SmithyIdl.Proofs.Tree.Blind
import SmithyIdl.Proofs.Tree.Splice
import SmithyIdl.Proofs.Tree.Locality
import SmithyIdl.Proofs.Literal.LineBreaks
import SmithyIdl.Proofs.Token.Numbers
import SmithyIdl.Proofs.ShapeId
