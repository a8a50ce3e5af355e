import SmithyIdl.Token.Basic
import SmithyIdl.Token.Set

/-!
# Syntax problems

Every way in which a text can break the grammar, with the wording of its report.
-/

namespace SmithyIdl

/-- A breach of the grammar. Where a token stands in the way, it is given. -/
inductive Problem where
  /-- The token in the way is no token at all. -/
  | lexical (cause : LexError)
  /-- None of the kinds that could stand here. -/
  | expected (kinds : TokenSet) (found : Token)
  /-- A token was needed at the end of the text. -/
  | unexpectedEnd
  /-- Too many nodes are open. -/
  | tooDeep
  | noNamespace (found : Token)
  | noStatement (found : Token)
  | noLineBreak (found : Token)
  /-- Something is left behind the last section. -/
  | noEndOfFile (found : Token)
  | noMemberName (found : Token)
  | noAbsoluteId (found : Token)
  | unknownShapeType (name : String)
  | listMemberName (name : String)
  /-- The first member of a map is neither its key nor its value. -/
  | mapMemberName (name : String)
  /-- The member behind the key of a map is not its value. -/
  | mapValueName (name : String)
  /-- Something follows the value of a map. -/
  | afterMapValue
  | duplicateProperty (name : String)
  | unknownProperty (name : String)
  | traitsOnApply
  | danglingTraits
  /-- A problem told in the words of the caller. -/
  | note (text : String)
deriving DecidableEq

namespace Problem

/-- The kinds that could have stood in the place of a token. -/
def expectedMessage (kinds : TokenSet) (found : Token) : String :=
  match kinds.toList with
  | [kind] => "Expected " ++ kind.describe ++ " but found " ++ found.describe
  | kinds =>
    "Expected one of " ++ ", ".intercalate (kinds.map TokenKind.describe) ++ "; but found " ++ found.describe

/-- The text of a problem. -/
def message : Problem → String
  | lexical cause => cause.message
  | expected kinds found => expectedMessage kinds found
  | unexpectedEnd => "Unexpected end of file"
  | tooDeep => "Maximum nesting depth exceeded"
  | noNamespace found => "Expected a namespace definition but found " ++ found.describe
  | noStatement found => "Expected a shape or apply statement but found " ++ found.describe
  | noLineBreak found => "Expected a line break but found " ++ found.describe
  | noEndOfFile found => "Expected the end of the file but found " ++ found.describe
  | noMemberName found => "Expected a member name but found " ++ found.describe
  | noAbsoluteId found => "Expected an absolute shape ID but found " ++ found.describe
  | unknownShapeType name => "Expected a valid shape type but found '" ++ name ++ "'"
  | listMemberName name => "Expected a member named 'member', but found '" ++ name ++ "'"
  | mapMemberName name => "Invalid map member. Expected 'key' or 'value', found '" ++ name ++ "'"
  | mapValueName name => "Expected a member named 'value', but found '" ++ name ++ "'"
  | afterMapValue => "Expected '\x7d' after the map value member"
  | duplicateProperty name => "Duplicate operation property '" ++ name ++ "'"
  | unknownProperty name => "Expected 'input', 'output', or 'errors' but found '" ++ name ++ "'"
  | traitsOnApply => "Traits applied to apply statement"
  | danglingTraits => "Found traits attached to nothing"
  | note text => text

end Problem

end SmithyIdl
