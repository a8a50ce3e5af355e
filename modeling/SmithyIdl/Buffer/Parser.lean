import SmithyIdl.Buffer.Basic

/-!
# Parsers

A parser is a step of a buffer. It can succeed with a value, fail with a located problem, or meet a fault.
A failure keeps the buffer, so whoever catches it goes on from where it happened.

A repetition has to consume a token in every round; this makes it end.
-/

namespace SmithyIdl

/-- The result of a step. -/
inductive Outcome (α : Type) where
  | ok (value : α) (buffer : Buffer)
  | error (cause : SyntaxError) (buffer : Buffer)
  | fault (why : Fault)

/-- Goes on from a success; a failure or a fault stays as it is. -/
@[inline] def Outcome.andThen {α β : Type} (o : Outcome α) (f : α → Buffer → Outcome β) : Outcome β :=
  match o with
  | ok a b => f a b
  | error cause b => error cause b
  | fault why => fault why

/-- A step of a buffer. -/
def Parser (α : Type) := Buffer → Outcome α

namespace Parser

variable {α β σ : Type}

def run (p : Parser α) (b : Buffer) : Outcome α := p b

instance : Monad Parser where
  pure a := fun b => .ok a b
  bind p f := fun b => (p b).andThen f

theorem run_pure (a : α) (b : Buffer) : (pure a : Parser α).run b = .ok a b := rfl

theorem run_bind (p : Parser α) (f : α → Parser β) (b : Buffer) :
    (p >>= f).run b = (p.run b).andThen fun a => (f a).run := rfl

instance : LawfulMonad Parser := LawfulMonad.mk' Parser
  (fun p => funext fun b => by
    change (p b).andThen (fun a b => .ok (id a) b) = p b
    cases p b <;> rfl)
  (fun _ _ => rfl)
  (fun p f g => funext fun b => by
    change ((p b).andThen f).andThen g = (p b).andThen fun a b => (f a b).andThen g
    cases p b <;> rfl)

/-- What a buffer shows. -/
def ask (f : Buffer → α) : Parser α := fun b => .ok (f b) b

/-- Fails with a problem at the token to come. -/
def fail (problem : Problem) : Parser α := fun b => .error (b.syntaxError problem) b

/-- Ends with a fault. -/
def abort (why : Fault) : Parser α := fun _ => .fault why

/-- Catches a failure. -/
def attempt (p : Parser α) : Parser (Except SyntaxError α) := fun b =>
  match p b with
  | .ok a b => .ok (.ok a) b
  | .error cause b => .ok (.error cause) b
  | .fault why => .fault why

/-- Edits or reads the tree. -/
def onTree (f : SyntaxTree → Except Fault (α × SyntaxTree)) : Parser α
  | ⟨filename, tree, cursor, openNodes, maxDepth, errors⟩ =>
    match f tree with
    | .ok (a, tree) => .ok a ⟨filename, tree, cursor, openNodes, maxDepth, errors⟩
    | .error why => .fault why

/-- Repeats a step with a state, as long as the state and the buffer ask for more. Every round has to leave
    fewer tokens than `left`, those that were left when it began. -/
def foldBelow (more : σ → Buffer → Bool) (step : σ → Parser σ) (left : Nat) (s : σ) (b : Buffer) :
    Outcome σ :=
  if more s b then
    match step s b with
    | .ok s after =>
      if after.remaining < left then foldBelow more step after.remaining s after else .fault .stalled
    | .error cause after => .error cause after
    | .fault why => .fault why
  else .ok s b
termination_by left

/-- Repeats a step with a state, as long as the state and the buffer ask for more. -/
def foldWhile (more : σ → Buffer → Bool) (step : σ → Parser σ) (s : σ) : Parser σ := fun b =>
  foldBelow more step b.remaining s b

/-- Repeats a step as long as the buffer asks for more. -/
def repeatWhile (more : Buffer → Bool) (step : Parser Unit) : Parser Unit :=
  foldWhile (fun _ b => more b) (fun _ => step) ()

/-! ## Tokens -/

def hasNext : Parser Bool := ask Buffer.hasNext

def current : Parser Token := ask Buffer.current

def isAt (kind : TokenKind) : Parser Bool := ask (·.isAt kind)

def isAtKeyword (keyword : String) : Parser Bool := ask (·.isAtKeyword keyword)

def errorCount : Parser Nat := ask Buffer.errors

/-- Moves the cursor over one token. -/
def step : Parser Unit := fun b => .ok () { b with cursor := b.cursor + 1 }

/-- Consumes the token to come, which may not be the end token. -/
def shift : Parser Unit := do
  if ← hasNext then
    let parent ← ask Buffer.innermost
    let token ← ask Buffer.cursor
    onTree fun t => (t.appendLeaf parent token).map ((), ·)
    step
  else abort .atEnd

/-- Consumes the token to come; fails at the end of the text. -/
def next : Parser TokenKind := do
  if ← hasNext then
    let kind := (← current).kind
    shift
    return kind
  else fail .unexpectedEnd

/-- Consumes tokens as long as they are in a class. -/
def shiftWhile (p : Token → Bool) : Parser Unit := repeatWhile (fun b => b.hasNext && p b.current) shift

/-- Consumes tokens as long as their kind is in a class. -/
def shiftKinds (p : TokenKind → Bool) : Parser Unit := shiftWhile (p ·.kind)

/-- The kind of the token to come, which has to be one of the given; nothing is consumed. Characters that
    are no token are reported as such. -/
def expectAny (kinds : TokenSet) : Parser TokenKind := do
  let token ← current
  if kinds.contains token.kind then return token.kind
  else
    match token.error? with
    | some cause => fail (.lexical cause)
    | none => fail (.expected kinds token)

/-- Checks the kind of the token to come; nothing is consumed. -/
def expect (kind : TokenKind) : Parser Unit := do let _ ← expectAny (.single kind)

/-- Consumes a token of the given kind. -/
def consume (kind : TokenKind) : Parser Unit := do
  expect kind
  let _ ← next

/-- Consumes whatever token comes; fails at the end of the text. -/
def consumeAny : Parser Unit := do let _ ← next

/-! ## Nodes -/

/-- Makes a node the innermost open one. -/
def push (node : NodeId) : Parser Unit := fun b => .ok () { b with openNodes := node :: b.openNodes }

/-- Closes the innermost open node. -/
def pop : Parser Unit := fun b => .ok () { b with openNodes := b.openNodes.tail }

/-- Adds a node as the last child of the innermost open one. -/
def attach (node : NodeId) : Parser Unit := do
  let parent ← ask Buffer.innermost
  onTree fun t => (t.append parent node).map ((), ·)

/-- Takes a node away from its parent, if it has one. -/
def detach (node : NodeId) : Parser Unit := do
  match ← onTree (Reading.parent? node).run with
  | some parent =>
    let _ ← onTree fun t => t.remove parent node
  | none => return

/-- Adds a new node of a kind to the innermost open one and opens it. -/
def openNode (kind : TreeKind) : Parser NodeId := do
  let node ← onTree fun t => .ok (t.addNode kind)
  attach node
  push node
  return node

/-- Closes a node, which has to be the innermost open one. -/
def closeNode (node : NodeId) : Parser Unit := do
  if (← ask (·.openNodes.head?)) = some node then pop else abort .scopeOrder

/-! ## Errors -/

/-- How an error node goes on after the token in the way. -/
inductive Recovery where
  /-- Up to the next token at the start of a line that can begin a statement or end a block. -/
  | statement
  /-- Up to the end of the text. -/
  | endOfText
  /-- Not at all. -/
  | none
deriving DecidableEq

/-- The kinds that can begin a statement, and the brace that ends a block. -/
def statementStart : TokenSet := .ofList [.identifier, .dollar, .atSign, .rbrace]

/-- Whether a statement can begin, or a block end, at a token: it has to stand at the start of its line. -/
def startsStatement (t : Token) : Bool := t.start.column = 1 && statementStart.contains t.kind

/-- Skips the tokens up to where the parser goes on. -/
def recover : Recovery → Parser Unit
  | .statement => shiftWhile (!startsStatement ·)
  | .endOfText => shiftWhile fun _ => true
  | .none => pure ()

/-- One more problem was met. -/
def countError : Parser Unit := fun b => .ok () { b with errors := b.errors + 1 }

/-- Counts an error and adds its node to the innermost open one. -/
def addError (mark : Mark) : Parser NodeId := do
  countError
  let node ← onTree fun t => .ok (t.addError mark)
  attach node
  return node

/-- The mark of an error that was located. -/
def markOf (e : SyntaxError) : Mark := ⟨e.problem, e.range.start, e.position⟩

/-- Records an error in a node that takes the token in the way and those that the recovery adds. At the end
    of the text the node stays empty. -/
def report (e : SyntaxError) (recovery : Recovery) : Parser Unit := do
  let node ← addError (markOf e)
  if ← hasNext then
    push node
    shift
    recover recovery
    pop

/-- Records that something is missing before the token to come. -/
def reportMissing (problem : Problem) : Parser Unit := do
  let e ← ask (·.syntaxError problem)
  let _ ← addError (markOf e)

/-- Puts a node without a parent into a new error node, located where the node starts. -/
def encloseInError (node : NodeId) (problem : Problem) : Parser Unit := do
  let start ← onTree (Reading.start node).run
  let range ← onTree (Reading.range node).run
  let error ← addError ⟨problem, range.start, start⟩
  onTree fun t => (t.append error node).map ((), ·)

/-! ## Scopes -/

/-- A closed node, with the value of what ran inside it, unless that failed. -/
structure Closed (α : Type) where
  node : NodeId
  value : Option α

/-- Fails where too many nodes are open. -/
def limited (p : Parser α) : Parser α := do if ← ask Buffer.isTooDeep then fail .tooDeep else p

/-- Runs a parser, and records its failure. -/
def recovering (recovery : Recovery) (p : Parser α) : Parser (Option α) := do
  match ← attempt p with
  | .ok a => return some a
  | .error e =>
    report e recovery
    return none

/-- Runs a parser inside a new node. A failure is recorded as the last child of the node. -/
def scope (kind : TreeKind) (body : Parser α) (recovery : Recovery := .statement) : Parser (Closed α) := do
  let node ← openNode kind
  let value ← recovering recovery (limited body)
  closeNode node
  return ⟨node, value⟩

/-- Runs a parser inside a new node, for its effect. -/
def within (kind : TreeKind) (body : Parser Unit) : Parser Unit := do let _ ← scope kind body

/-- Makes documentation comments that were read before the first child of the innermost open node. -/
def adoptDocs (docs : Option NodeId) : Parser Unit := do
  match docs with
  | none => return
  | some node =>
    match ← ask fun b => (b.tree.childrenOf b.innermost).length with
    | 0 =>
      detach node
      attach node
    | n => abort (.docsNotFirst n)

end Parser

end SmithyIdl
