import SmithyIdl.Number.Text
import SmithyIdl.Text.Position
import SmithyIdl.Token.Kind
import SmithyIdl.Token.LexError

/-!
# Tokens

A token is a stretch of the text together with what it was read as. Only strings, text blocks and numbers
have a value, and only invalid characters have an error, so both belong to the content of a token.
-/

namespace SmithyIdl

/-- What a token was read as. -/
inductive TokenContent where
  /-- A token that says no more than its kind and its characters. -/
  | plain (kind : TokenKind)
  | string (value : String)
  | textBlock (value : String)
  | number (value : Number)
  | invalid (cause : LexError)
deriving DecidableEq

/-- The value of a string, a text block or a number. -/
inductive Literal where
  | text (value : String)
  | number (value : Number)
deriving DecidableEq

namespace TokenContent

def kind : TokenContent → TokenKind
  | plain kind => kind
  | string _ => .string
  | textBlock _ => .textBlock
  | number _ => .number
  | invalid _ => .error

def literal? : TokenContent → Option Literal
  | string value => some (.text value)
  | textBlock value => some (.text value)
  | number value => some (.number value)
  | _ => none

def error? : TokenContent → Option LexError
  | invalid cause => some cause
  | _ => none

end TokenContent

/-- A stretch of the text with its place in it. -/
structure Token where
  content : TokenContent
  lexeme : String
  range : ByteRange
  start : Position
  stop : Position
deriving DecidableEq

namespace Token

/-- An end token that is nowhere, for where there is no token. -/
def nothing : Token := ⟨.plain .eof, "", .empty 0, .nowhere, .nowhere⟩

def kind (t : Token) : TokenKind := t.content.kind

def literal? (t : Token) : Option Literal := t.content.literal?

def error? (t : Token) : Option LexError := t.content.error?

/-- The value of a string or a text block. -/
def string? (t : Token) : Option String :=
  match t.literal? with
  | some (.text value) => some value
  | _ => none

/-- The value of a number. -/
def number? (t : Token) : Option Number :=
  match t.literal? with
  | some (.number value) => some value
  | _ => none

/-- Whether the token is the identifier with the given name. -/
def isIdentifier (t : Token) (name : String) : Bool := t.kind = .identifier && t.lexeme = name

/-- The token as messages and dumps show it: its kind with its characters between quotes. -/
def describe (t : Token) : String :=
  if t.kind = .eof then "EOF" else t.kind.name ++ "('" ++ Escape.lexeme t.lexeme ++ "')"

end Token

end SmithyIdl
