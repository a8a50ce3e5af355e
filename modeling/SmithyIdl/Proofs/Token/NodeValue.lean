import SmithyIdl.Grammar.NodeValue

/-! # Words that are node values

The tokens of a node value, as a language of its own that no parser is asked for. Trivia may stand behind every
bracket, key, colon and value. -/

namespace SmithyIdl

/-- Whitespace, comments and documentation comments. -/
def AreTrivia (ts : List Token) : Prop := ∀ t ∈ ts, t.kind.isTrivia = true

/-- `*("." Identifier)` -/
inductive AreNameParts : List Token → Prop where
  | nil : AreNameParts []
  | cons {dot name : Token} {ts : List Token} (sign : dot.kind = .dot) (identifier : name.kind = .identifier)
      (rest : AreNameParts ts) : AreNameParts (dot :: name :: ts)

/-- `[Identifier *("." Identifier) "#"] Identifier` -/
inductive IsShapeId : List Token → Prop where
  | relative {name : Token} (identifier : name.kind = .identifier) : IsShapeId [name]
  | absolute {first pound name : Token} {parts : List Token} (start : first.kind = .identifier)
      (more : AreNameParts parts) (sign : pound.kind = .pound) (identifier : name.kind = .identifier) :
      IsShapeId (first :: parts ++ [pound, name])

/-- `["$" Identifier]` -/
inductive IsIdMember : List Token → Prop where
  | none : IsIdMember []
  | name {dollar name : Token} (sign : dollar.kind = .dollar) (identifier : name.kind = .identifier) :
      IsIdMember [dollar, name]

/-- What an entry of an object is written with. -/
structure ObjectEntry where
  key : Token
  behindKey : List Token
  colon : Token
  behindColon : List Token
  value : List Token
  behind : List Token

namespace ObjectEntry

/-- The tokens of an entry, in order. -/
def tokens (e : ObjectEntry) : List Token := e.key :: e.behindKey ++ e.colon :: e.behindColon ++ e.value ++ e.behind

/-- The tokens around the value are those of an entry. -/
structure Framed (e : ObjectEntry) : Prop where
  key : e.key.kind = .string ∨ e.key.kind = .identifier
  behindKey : AreTrivia e.behindKey
  colon : e.colon.kind = .colon
  behindColon : AreTrivia e.behindColon
  behind : AreTrivia e.behind

end ObjectEntry

/-- A string, text block, number, keyword, shape id, array or object. -/
inductive IsNodeValue : List Token → Prop where
  | literal {t : Token} (kind : t.kind = .number ∨ t.kind = .string ∨ t.kind = .textBlock) : IsNodeValue [t]
  | keyword {t : Token} (kind : t.kind = .identifier) (name : Grammar.isValueKeyword t.lexeme = true) : IsNodeValue [t]
  | id {first : Token} {rest member : List Token} (name : IsShapeId (first :: rest))
      (other : Grammar.isValueKeyword first.lexeme = false) (behind : IsIdMember member) :
      IsNodeValue (first :: rest ++ member)
  | array {opening closing : Token} {trivia : List Token} {parts : List (List Token × List Token)}
      (opens : opening.kind = .lbracket) (behindOpening : AreTrivia trivia) (values : ∀ p ∈ parts, IsNodeValue p.1)
      (behind : ∀ p ∈ parts, AreTrivia p.2) (closes : closing.kind = .rbracket) :
      IsNodeValue (opening :: trivia ++ parts.flatMap (fun p => p.1 ++ p.2) ++ [closing])
  | object {opening closing : Token} {trivia : List Token} {entries : List ObjectEntry}
      (opens : opening.kind = .lbrace) (behindOpening : AreTrivia trivia) (framed : ∀ e ∈ entries, e.Framed)
      (values : ∀ e ∈ entries, IsNodeValue e.value) (closes : closing.kind = .rbrace) :
      IsNodeValue (opening :: trivia ++ entries.flatMap ObjectEntry.tokens ++ [closing])

theorem AreNameParts.concat {dot name : Token} {ts : List Token} (h : AreNameParts ts) (sign : dot.kind = .dot)
    (identifier : name.kind = .identifier) : AreNameParts (ts ++ [dot, name]) := by
  induction h with
  | nil => exact .cons sign identifier .nil
  | cons sign' identifier' _ ih => exact .cons sign' identifier' ih

end SmithyIdl
