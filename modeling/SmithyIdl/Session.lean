import SmithyIdl.Grammar.Rule
import SmithyIdl.Tree.Dump

/-!
# Sessions with a parse buffer

A session is a program of buffer steps: looking ahead, consuming tokens, failing, reporting, opening scopes
with programs inside them, moving nodes, and running rules of the grammar. A step that fails ends the program
it stands in, unless it is caught; the scope around that program records the failure.
-/

namespace SmithyIdl

open SmithyIdl.Parser

/-- A step that holds no other steps. -/
inductive Action where
  | current
  | peek (k : Nat)
  /-- The first token from `k` places ahead on that is of none of the kinds. -/
  | lookPast (k : Nat) (kinds : TokenSet)
  | isAt (kind : TokenKind)
  | isAtKeyword (keyword : String)
  | hasNext
  | next
  | shiftKinds (kinds : TokenSet)
  | expect (kinds : TokenSet)
  | fail (text : String)
  /-- The characters of the token `k` places ahead. -/
  | lexeme (k : Nat)
  | errorCount
  | reportMissing (text : String)
  | report (text : String) (recovery : Recovery)
  | recover (recovery : Recovery)
  | detach (name : String)
  | attach (name : String)
  /-- Moves documentation comments, or none. -/
  | adoptDocs (name : Option String)
  | encloseInError (name : String) (text : String)
  | rule (rule : Rule)

/-- A step of a session. -/
inductive Step where
  | act (action : Action)
  /-- A program inside a new node, which may be remembered under a name. -/
  | scope (kind : TreeKind) (body : List Step) (recovery : Recovery) (name : Option String)
  /-- A step whose failure does not end the program. -/
  | caught (step : Step)

/-- The answer to a step. -/
inductive Reply where
  | nothing
  | token (token : Token)
  /-- A token by its description. -/
  | described (token : Token)
  | kind (kind : TokenKind)
  | flag (value : Bool)
  | text (text : String)
  | number (value : Nat)
  | rule (value : RuleValue)
  /-- The answers inside a scope, whether its program succeeded, and the token behind it. -/
  | scope (replies : List Reply) (succeeded : Bool) (now : Token)
  | failed (cause : SyntaxError)

/-- The nodes that were remembered, the latest first. -/
abbrev Names := List (String × NodeId)

/-- What a program leaves: its answers, the nodes remembered, and the failure that ended it. -/
structure Progress (α : Type) where
  reply : α
  names : Names
  raised : Option SyntaxError

namespace Action

/-- Applies a step of the buffer to a remembered node. -/
def onNamed (names : Names) (name : String) (f : NodeId → Parser Unit) : Parser Reply := do
  if let some node := names.lookup name then f node
  return .nothing

/-- A parser with the description of the token behind it as its answer. -/
def describing (p : Parser Unit) : Parser Reply := do
  p
  return .described (← Parser.current)

/-- A parser without an answer. -/
def silently (p : Parser Unit) : Parser Reply := do
  p
  return .nothing

/-- Carries out a step. -/
def run (names : Names) : Action → Parser Reply
  | current => .token <$> Parser.current
  | peek k => .token <$> ask (·.peek k)
  | lookPast k kinds => .token <$> ask (·.lookPast k kinds.contains)
  | isAt kind => .flag <$> Parser.isAt kind
  | isAtKeyword keyword => .flag <$> Parser.isAtKeyword keyword
  | hasNext => .flag <$> Parser.hasNext
  | next => .kind <$> Parser.next
  | shiftKinds kinds => describing (Parser.shiftKinds kinds.contains)
  | expect kinds => .kind <$> expectAny kinds
  | fail text => Parser.fail (.note text)
  | lexeme k => .text <$> ask (·.peek k |>.lexeme)
  | errorCount => .number <$> Parser.errorCount
  | reportMissing text => silently (Parser.reportMissing (.note text))
  | report text recovery => describing do Parser.report (← ask (·.syntaxError (.note text))) recovery
  | recover recovery => describing (Parser.recover recovery)
  | detach name => onNamed names name Parser.detach
  | attach name => onNamed names name Parser.attach
  | adoptDocs (some name) => onNamed names name (Parser.adoptDocs ∘ some)
  | adoptDocs none => silently (Parser.adoptDocs none)
  | encloseInError name text => onNamed names name (Parser.encloseInError · (.note text))
  | rule r => .rule <$> r.parser

end Action

namespace Step

/-- Remembers a node, if there is a name for it. -/
def remember (name : Option String) (node : NodeId) (names : Names) : Names :=
  match name with
  | some name => (name, node) :: names
  | none => names

/-- Runs a program inside a new node, like `Parser.scope`, and keeps its answers even where it fails. -/
def inScope (kind : TreeKind) (recovery : Recovery) (name : Option String) (names : Names)
    (body : Parser (Progress (List Reply))) : Parser (Progress Reply) := do
  let node ← openNode kind
  let (replies, names, failure) ← match ← attempt (limited body) with
    | .ok p => pure (p.reply, p.names, p.raised)
    | .error e => pure ([], names, some e)
  if let some e := failure then Parser.report e recovery
  closeNode node
  return ⟨.scope replies failure.isNone (← Parser.current), remember name node names, none⟩

mutual

/-- Runs a step. -/
def run (names : Names) : Step → Parser (Progress Reply)
  | scope kind body recovery name => inScope kind recovery name names (runAll names body)
  | caught step => do return { ← step.run names with raised := none }
  | act action => do
    match ← attempt (action.run names) with
    | .ok reply => return ⟨reply, names, none⟩
    | .error e => return ⟨.failed e, names, some e⟩

/-- Runs the steps of a program, up to the first that fails. -/
def runAll (names : Names) : List Step → Parser (Progress (List Reply))
  | [] => return ⟨[], names, none⟩
  | step :: steps => do
    let first ← step.run names
    match first.raised with
    | some e => return ⟨[first.reply], first.names, some e⟩
    | none =>
      let rest ← runAll first.names steps
      return { rest with reply := first.reply :: rest.reply }

end

end Step

/-- The end of a session. -/
structure SessionReport where
  replies : List Reply
  /-- Whether a failure ended the program. -/
  raised : Bool
  rest : Token
  errors : Nat
  tree : SyntaxTree

/-- Runs a program on a buffer and finishes the tree. -/
def runSession (steps : List Step) (b : Buffer) : Except Fault SessionReport :=
  match Step.runAll [] steps b with
  | .ok p b => return ⟨p.reply, p.raised.isSome, b.current, b.errors, ← b.finish⟩
  | .error cause b => return ⟨[.failed cause], true, b.current, b.errors, ← b.finish⟩
  | .fault why => .error why

end SmithyIdl
