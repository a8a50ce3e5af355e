import SmithyIdl.Proofs.Tree.Forest

/-! # Tokens of two texts

How the tokens of one text belong to those of another. All that the grammar looks at is the same in both, but the
characters may be written differently where they contain line breaks. What is told of tokens that belong together is
the same problem in both texts. -/

namespace SmithyIdl

/-- How the tokens of two runs belong together. -/
structure Likeness where
  token : Token → Token → Prop
  /-- How the characters of a token are written in the second run. -/
  respell : String → String
  respell_injective : respell.Injective
  /-- Without line breaks they are written as in the first run. -/
  respell_word : ∀ {s : String}, '\n' ∉ s.toList → respell s = s
  kind_eq : ∀ {t t'}, token t t' → t'.kind = t.kind
  lexeme_eq : ∀ {t t'}, token t t' → t'.lexeme = respell t.lexeme
  name_eq : ∀ {t t'}, token t t' → t.kind = .identifier → t'.lexeme = t.lexeme
  error_isSome : ∀ {t t'}, token t t' → t'.error?.isSome = t.error?.isSome
  begins_iff : ∀ {t t'}, token t t' → (t'.start.column = 1 ↔ t.start.column = 1)

namespace Likeness

/-- Tokens that belong together read the same, wherever they stand. -/
def ofContent (token : Token → Token → Prop) (content : ∀ {t t'}, token t t' → t'.content = t.content)
    (lexeme : ∀ {t t'}, token t t' → t'.lexeme = t.lexeme)
    (begins : ∀ {t t'}, token t t' → (t'.start.column = 1 ↔ t.start.column = 1)) : Likeness where
  token := token
  respell := id
  respell_injective := Function.injective_id
  respell_word _ := rfl
  kind_eq h := congrArg TokenContent.kind (content h)
  lexeme_eq := lexeme
  name_eq h _ := lexeme h
  error_isSome h := congrArg (·.error?.isSome) (content h)
  begins_iff := begins

/-- The same tokens. -/
def same : Likeness :=
  ofContent Eq (fun h => congrArg Token.content h.symm) (fun h => congrArg Token.lexeme h.symm)
    fun h => h ▸ .rfl

/-- Characters with line breaks are no words in either run. -/
theorem respell_cases (L : Likeness) (s : String) :
    L.respell s = s ∨ '\n' ∈ s.toList ∧ '\n' ∈ (L.respell s).toList := by
  by_cases word : '\n' ∈ s.toList
  · by_cases word' : '\n' ∈ (L.respell s).toList
    · exact .inr ⟨word, word'⟩
    · exact .inl (L.respell_injective (L.respell_word word'))
  · exact .inl (L.respell_word word)

/-- What only tells words from each other reads both the same. -/
theorem respell_congr (L : Likeness) {α : Type} {f : String → α} {a : α} (other : ∀ s, '\n' ∈ s.toList → f s = a)
    (s : String) : f (L.respell s) = f s := by
  rcases L.respell_cases s with same | ⟨broken, broken'⟩
  · rw [same]
  · rw [other _ broken, other _ broken']

end Likeness

/-! ### Problems -/

namespace Problem

/-- A problem that the grammar fails with and that tells of no token. -/
def isPlain : Problem → Bool
  | lexical _ | expected .. | noNamespace _ | noStatement _ | noLineBreak _ | noEndOfFile _ | noMemberName _ => false
  | noAbsoluteId _ | unknownShapeType _ | duplicateProperty _ | unknownProperty _ => false
  | traitsOnApply | danglingTraits => false
  | _ => true

/-- The same problem, told of tokens that belong together. -/
inductive Like (L : Likeness) : Problem → Problem → Prop where
  | plain {problem : Problem} (h : problem.isPlain = true) : Like L problem problem
  | lexical {t t' : Token} {cause cause' : LexError} (h : L.token t t') (told : t.error? = some cause)
    (told' : t'.error? = some cause') : Like L (.lexical cause) (.lexical cause')
  | expected {t t' : Token} (kinds : TokenSet) (h : L.token t t') : Like L (.expected kinds t) (.expected kinds t')
  | noNamespace {t t' : Token} (h : L.token t t') : Like L (.noNamespace t) (.noNamespace t')
  | noStatement {t t' : Token} (h : L.token t t') : Like L (.noStatement t) (.noStatement t')
  | noLineBreak {t t' : Token} (h : L.token t t') : Like L (.noLineBreak t) (.noLineBreak t')
  | noEndOfFile {t t' : Token} (h : L.token t t') : Like L (.noEndOfFile t) (.noEndOfFile t')
  | noMemberName {t t' : Token} (h : L.token t t') : Like L (.noMemberName t) (.noMemberName t')
  | noAbsoluteId {t t' : Token} (h : L.token t t') : Like L (.noAbsoluteId t) (.noAbsoluteId t')
  | unknownShapeType (name : String) : Like L (.unknownShapeType name) (.unknownShapeType (L.respell name))
  | duplicateProperty (name : String) : Like L (.duplicateProperty name) (.duplicateProperty (L.respell name))
  | unknownProperty (name : String) : Like L (.unknownProperty name) (.unknownProperty (L.respell name))

variable {L : Likeness} {problem problem' : Problem}

theorem Like.not_encloses (h : problem.Like L problem') : problem.encloses = false := by
  cases h with
  | plain plain => cases problem <;> first | rfl | cases plain
  | _ => rfl

/-- Of the same tokens the same is told. -/
theorem Like.eq (h : problem.Like .same problem') : problem = problem' := by
  cases h with
  | plain => rfl
  | lexical same told told' =>
    cases same
    cases told.symm.trans told'
    rfl
  | expected _ same => exact congrArg _ same
  | noNamespace same => exact congrArg _ same
  | noStatement same => exact congrArg _ same
  | noLineBreak same => exact congrArg _ same
  | noEndOfFile same => exact congrArg _ same
  | noMemberName same => exact congrArg _ same
  | noAbsoluteId same => exact congrArg _ same
  | unknownShapeType => rfl
  | duplicateProperty => rfl
  | unknownProperty => rfl

end Problem

/-! ### Places -/

/-- How the places of tokens belong together. -/
structure Layout extends Likeness where
  offset : Nat → Nat → Prop
  position : Position → Position → Prop
  offset_min : ∀ {m m' n n'}, offset m m' → offset n n' → offset (min m n) (min m' n')
  offset_start : ∀ {t t'}, token t t' → offset t.range.start t'.range.start
  position_start : ∀ {t t'}, token t t' → position t.start t'.start
  position_stop : ∀ {t t'}, token t t' → position t.stop t'.stop

namespace Layout

variable (L : Layout)

/-- Marks of the same problem, in places that belong together. Only an error around other nodes can be nowhere. -/
structure Marks (m m' : Mark) : Prop where
  problem : m.problem.Like L.toLikeness m'.problem ∨ m'.problem = m.problem ∧ m.problem.encloses = true
  place : L.offset m.offset m'.offset ∧ L.position m.position m'.position ∨
    m.problem.encloses = true ∧ (m.offset = 0 ∧ m.position = .nowhere) ∧ m'.offset = 0 ∧ m'.position = .nowhere

end Layout

end SmithyIdl
