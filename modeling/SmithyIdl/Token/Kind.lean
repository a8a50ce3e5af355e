/-!
# Token kinds

The lexical categories of the Smithy interface definition language, in their fixed order.
-/

namespace SmithyIdl

/-- The lexical category of a token. -/
inductive TokenKind where
  | identifier | string | textBlock | number
  | space | newline | comma | comment | docComment
  | atSign | dollar | pound | dot | colon | walrus | equal
  | lbrace | rbrace | lbracket | rbracket | lparen | rparen
  | error | eof
deriving DecidableEq

namespace TokenKind

/-- Every kind, in order. -/
def all : List TokenKind :=
  [identifier, string, textBlock, number, space, newline, comma, comment, docComment, atSign, dollar,
    pound, dot, colon, walrus, equal, lbrace, rbrace, lbracket, rbracket, lparen, rparen, error, eof]

/-- The place of a kind in the order. -/
def index (k : TokenKind) : Nat := k.ctorIdx

theorem all_getElem?_index (k : TokenKind) : all[k.index]? = some k := by cases k <;> rfl

theorem index_lt (k : TokenKind) : k.index < 24 := by cases k <;> decide

theorem mem_all (k : TokenKind) : k ∈ all := by cases k <;> decide

instance : Ord TokenKind := ⟨fun k l => compare k.index l.index⟩

/-- The written name of a kind. -/
def name : TokenKind → String
  | identifier => "IDENTIFIER"
  | string => "STRING"
  | textBlock => "TEXT_BLOCK"
  | number => "NUMBER"
  | space => "SPACE"
  | newline => "NEWLINE"
  | comma => "COMMA"
  | comment => "COMMENT"
  | docComment => "DOC_COMMENT"
  | atSign => "AT"
  | dollar => "DOLLAR"
  | pound => "POUND"
  | dot => "DOT"
  | colon => "COLON"
  | walrus => "WALRUS"
  | equal => "EQUAL"
  | lbrace => "LBRACE"
  | rbrace => "RBRACE"
  | lbracket => "LBRACKET"
  | rbracket => "RBRACKET"
  | lparen => "LPAREN"
  | rparen => "RPAREN"
  | error => "ERROR"
  | eof => "EOF"

/-- The kind of a written name. -/
def ofName? (s : String) : Option TokenKind := all.find? (·.name = s)

/-- The fixed text of the kinds that have one. -/
def punctuation? : TokenKind → Option String
  | comma => some ","
  | atSign => some "@"
  | dollar => some "$"
  | pound => some "#"
  | dot => some "."
  | colon => some ":"
  | walrus => some ":="
  | equal => some "="
  | lbrace => some "\x7b"
  | rbrace => some "\x7d"
  | lbracket => some "["
  | rbracket => some "]"
  | lparen => some "("
  | rparen => some ")"
  | _ => none

/-- The kind as a message names what was expected: with its text between quotes where it has one. -/
def describe (k : TokenKind) : String :=
  match k.punctuation? with
  | some text => k.name ++ "('" ++ text ++ "')"
  | none => k.name

/-- Commas separate nothing that is not separate without them, so they are whitespace. -/
def isWhitespace : TokenKind → Bool
  | space | newline | comma | comment => true
  | _ => false

/-- Whitespace and documentation comments. -/
def isTrivia (k : TokenKind) : Bool := k.isWhitespace || k = docComment

end TokenKind

end SmithyIdl
