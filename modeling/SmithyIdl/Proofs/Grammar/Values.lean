import SmithyIdl.Grammar.Trait
import SmithyIdl.Proofs.Buffer.Growth

/-! # Growth of values and traits

The rules for whitespace, shape ids, node values and traits only add to the innermost open node, and most of
them take a token. -/

set_option synthInstance.maxSize 2000

namespace SmithyIdl.Grammar

open SmithyIdl.Parser

/-! ### Whitespace -/

instance spaces_grows : Grows spaces := by
  unfold spaces
  infer_instance

instance someSpaces_grows : Grows someSpaces := by
  unfold someSpaces
  infer_instance

instance whitespace_grows : Grows whitespace := by
  unfold whitespace
  infer_instance

instance someWhitespace_grows : Grows someWhitespace := by
  unfold someWhitespace
  infer_instance

instance docComments_grows : Grows docComments := by
  unfold docComments
  infer_instance

instance whitespaceUpToDocs_grows : Grows whitespaceUpToDocs := by
  unfold whitespaceUpToDocs
  infer_instance

instance breakLine_grows : Grows breakLine := by
  unfold breakLine
  infer_instance

instance endLine_grows : Grows endLine := by
  unfold endLine
  refine Grows.seq fun _ => Grows.seq fun token => ?_
  split <;> infer_instance

/-! ### Shape ids and keywords -/

instance keyword_grows : Grows keyword := by
  unfold keyword
  infer_instance

instance keyword_eats : Eats keyword := by
  unfold keyword
  infer_instance

instance namespacePart_grows : Grows namespacePart := by
  unfold namespacePart
  infer_instance

instance namespacePart_eats : Eats namespacePart := by
  unfold namespacePart
  infer_instance

instance namespaceId_grows : Grows namespaceId := by
  unfold namespaceId
  have : NeedsNext fun (_ : Unit) b => b.isAt .dot := needsNext_isAt (by decide)
  infer_instance

instance namespaceId_eats : Eats namespaceId := by
  unfold namespaceId
  infer_instance

instance idMember_grows : Grows idMember := by
  unfold idMember
  infer_instance

instance shapeId_grows (allowMember : Bool) : Grows (shapeId allowMember) := by
  dsimp only [shapeId]
  infer_instance

instance shapeId_eats (allowMember : Bool) : Eats (shapeId allowMember) := by
  dsimp only [shapeId]
  infer_instance

instance absoluteShapeId_grows : Grows absoluteShapeId := by
  unfold absoluteShapeId
  infer_instance

/-! ### Node values -/

instance soundly_grows (part : Parser Unit) [Grows part] : Grows (soundly part) := by
  unfold soundly
  infer_instance

instance soundly_eats (part : Parser Unit) [Grows part] [Eats part] : Eats (soundly part) := by
  unfold soundly
  infer_instance

instance beforePart_needsNext (closing : TokenKind) : NeedsNext (beforePart closing) where
  hasNext _ go := by
    unfold beforePart at go
    exact (Bool.and_eq_true_iff.mp (Bool.and_eq_true_iff.mp go).1).2

instance partsUntil_grows (closing : TokenKind) (part : Parser Unit) [Grows part] [Eats part] :
    Grows (partsUntil closing part) := by
  unfold partsUntil
  infer_instance

instance objectKey_grows : Grows objectKey := by
  unfold objectKey
  infer_instance

instance objectKey_eats : Eats objectKey := by
  unfold objectKey
  infer_instance

section
variable (value : Parser Unit) [Grows value]

instance entryOf_grows : Grows (entryOf value) := by
  unfold entryOf
  infer_instance

instance entryOf_eats : Eats (entryOf value) := by
  unfold entryOf
  infer_instance

variable [Eats value]

instance arrayOf_grows : Grows (arrayOf value) := by
  unfold arrayOf
  infer_instance

instance arrayOf_eats : Eats (arrayOf value) := by
  unfold arrayOf
  infer_instance

instance objectEntry_grows : Grows (objectEntry value) := by
  unfold objectEntry
  infer_instance

instance objectEntry_eats : Eats (objectEntry value) := by
  unfold objectEntry
  infer_instance

instance objectOf_grows : Grows (objectOf value) := by
  unfold objectOf
  infer_instance

instance objectOf_eats : Eats (objectOf value) := by
  unfold objectOf
  infer_instance

instance valueFrom_grows (first : TokenKind) : Grows (valueFrom value first) := by
  unfold valueFrom
  split <;> infer_instance

instance valueFrom_eats (first : TokenKind) : Eats (valueFrom value first) := by
  unfold valueFrom
  split <;> infer_instance

instance valueBody_grows : Grows (valueBody value) := by
  unfold valueBody
  infer_instance

instance valueBody_eats : Eats (valueBody value) := by
  unfold valueBody
  infer_instance

end

/-- The rounds of an array are values, so growth and progress go together. -/
theorem nodeValueWithin_tame (n : Nat) : Grows (nodeValueWithin n) ∧ Eats (nodeValueWithin n) := by
  induction n with
  | zero =>
    unfold nodeValueWithin
    exact ⟨inferInstance, inferInstance⟩
  | succ n ih =>
    obtain ⟨grows, eats⟩ := ih
    unfold nodeValueWithin
    exact ⟨inferInstance, inferInstance⟩

instance nodeValueWithin_grows (n : Nat) : Grows (nodeValueWithin n) := (nodeValueWithin_tame n).1

instance nodeValueWithin_eats (n : Nat) : Eats (nodeValueWithin n) := (nodeValueWithin_tame n).2

instance nodeValue_grows : Grows nodeValue := by
  unfold nodeValue
  infer_instance

instance entry_grows : Grows entry := by
  unfold entry
  infer_instance

instance entry_eats : Eats entry := by
  unfold entry
  infer_instance

instance nodeObject_grows : Grows nodeObject := by
  unfold nodeObject
  infer_instance

/-! ### Traits -/

instance traitEntry_grows : Grows traitEntry := by
  unfold traitEntry
  infer_instance

instance traitEntry_eats : Eats traitEntry := by
  unfold traitEntry
  infer_instance

instance traitStructure_grows : Grows traitStructure := by
  unfold traitStructure
  infer_instance

instance traitValue_grows : Grows traitValue := by
  unfold traitValue
  infer_instance

instance traitBody_grows : Grows traitBody := by
  dsimp only [traitBody]
  infer_instance

instance traitStatement_grows : Grows traitStatement := by
  unfold traitStatement
  infer_instance

instance traitStatement_eats : Eats traitStatement := by
  unfold traitStatement
  infer_instance

instance nextTrait_grows : Grows nextTrait := by
  unfold nextTrait
  infer_instance

instance nextTrait_eats : Eats nextTrait := by
  unfold nextTrait
  infer_instance

instance traitStatements_grows : Grows traitStatements := by
  unfold traitStatements
  have : NeedsNext fun (_ : Unit) b => b.isAt .atSign := needsNext_isAt (by decide)
  infer_instance

instance memberTraits_grows : Grows memberTraits := by
  unfold memberTraits
  infer_instance

end SmithyIdl.Grammar
