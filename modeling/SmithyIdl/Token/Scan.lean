import SmithyIdl.Literal.TextBlock
import SmithyIdl.Token.Basic

/-!
# Lexical rules

`scan` decides from the first character and those behind it what token comes next. It says how many
characters the token takes beyond its first, so a token is never empty and is always what stands in the
text.
-/

namespace SmithyIdl

/-- What the next token is, and how many characters it has beyond its first. -/
structure Scan where
  content : TokenContent
  extra : Nat

namespace Scan

/-- A token that is its first character alone. -/
def single (kind : TokenKind) : Scan := ⟨.plain kind, 0⟩

/-- The characters that an identifier starts with. -/
def isNameStart (c : Char) : Bool := c.isAlpha || c = '_'

/-- The characters that an identifier goes on with. -/
def isNamePart (c : Char) : Bool := c.isAlphanum || c = '_'

/-- The characters that end a line, and with it a comment. -/
def isLineEnd (c : Char) : Bool := c = '\n' || c = '\r'

/-- How many characters there are up to the closing quote and with it. A backslash hides the character
    behind it. -/
def closingQuote? : List Char → Option Nat
  | [] => none
  | '"' :: _ => some 1
  | '\\' :: _ :: cs => (closingQuote? cs).map (· + 2)
  | _ :: cs => (closingQuote? cs).map (· + 1)

/-- How many characters there are up to the three closing quotes and with them. -/
def closingQuotes? : List Char → Option Nat
  | [] => none
  | '"' :: '"' :: '"' :: _ => some 3
  | '\\' :: _ :: cs => (closingQuotes? cs).map (· + 2)
  | _ :: cs => (closingQuotes? cs).map (· + 1)

/-- The content of a token with contents to decode. -/
def decoded (read : Except LexError (List Char)) (content : String → TokenContent) : TokenContent :=
  match read with
  | .ok value => content (.ofList value)
  | .error cause => .invalid cause

/-- A string, behind its opening quote. One that is not closed takes the rest of the text. -/
def string (cs : List Char) : Scan :=
  match closingQuote? cs with
  | none => ⟨.invalid .unclosedString, cs.length⟩
  | some n => ⟨decoded (Literal.unescape (cs.take (n - 1))) .string, n⟩

/-- A text block, behind its three opening quotes, of which `scan` took the first. -/
def textBlock (cs : List Char) : Scan :=
  match closingQuotes? cs with
  | none => ⟨.invalid .unclosedTextBlock, cs.length + 2⟩
  | some n => ⟨decoded (Literal.textBlock (cs.take (n - 3))) .textBlock, n + 2⟩

/-- What starts with a quote. -/
def quoted : List Char → Scan
  | '"' :: '"' :: cs => textBlock cs
  | cs => string cs

/-- A comment, behind its first slash. -/
def comment : List Char → Scan
  | '/' :: cs =>
    let kind := if cs.head? = some '/' then TokenKind.docComment else .comment
    ⟨.plain kind, (cs.takeWhile (!isLineEnd ·)).length + 1⟩
  | _ => ⟨.invalid .slashAlone, 0⟩

/-- A number, from its minus or its first digit on. -/
def number (negative : Bool) (cs : List Char) : Scan :=
  let n := NumberText.read negative cs
  ⟨.number n.value, n.toList.length - 1⟩

end Scan

/-- The token that starts with the character `c`, when `cs` follows. -/
def scan (c : Char) (cs : List Char) : Scan :=
  match c with
  | ' ' | '\t' => ⟨.plain .space, (cs.takeWhile Literal.isBlank).length⟩
  | '\n' => .single .newline
  | '\r' => ⟨.plain .newline, if cs.head? = some '\n' then 1 else 0⟩
  | ',' => .single .comma
  | '@' => .single .atSign
  | '$' => .single .dollar
  | '#' => .single .pound
  | '.' => .single .dot
  | '=' => .single .equal
  | ':' => if cs.head? = some '=' then ⟨.plain .walrus, 1⟩ else .single .colon
  | '{' => .single .lbrace
  | '}' => .single .rbrace
  | '[' => .single .lbracket
  | ']' => .single .rbracket
  | '(' => .single .lparen
  | ')' => .single .rparen
  | '/' => Scan.comment cs
  | '"' => Scan.quoted cs
  | '-' => if NumberText.startsWithDigit cs then Scan.number true cs else ⟨.invalid .minusAlone, 0⟩
  | c =>
    if c.isDigit then Scan.number false (c :: cs)
    else if Scan.isNameStart c then ⟨.plain .identifier, (cs.takeWhile Scan.isNamePart).length⟩
    else ⟨.invalid (.unexpected c), 0⟩

end SmithyIdl
