import SmithyIdl.Proofs.Buffer.Lockstep
import SmithyIdl.Proofs.Grammar.Values

/-! # Values and traits in lockstep

The rules for whitespace, shape ids, node values and traits look at the kinds and the characters of tokens, at the
columns of some and at whether the count of errors has grown, and at nothing else. -/

set_option synthInstance.maxSize 20000

namespace SmithyIdl.Grammar

open SmithyIdl.Parser

variable {M : Matching}

/-! ### Whitespace -/

instance spaces_lockstep : Lockstep M Eq spaces spaces := by
  unfold spaces
  infer_instance

instance someSpaces_lockstep : Lockstep M Eq someSpaces someSpaces := by
  unfold someSpaces
  infer_instance

instance whitespace_lockstep : Lockstep M Eq whitespace whitespace := by
  unfold whitespace
  refine .bind .current fun t t' h => ?_
  rw [M.kind_eq h]
  infer_instance

instance someWhitespace_lockstep : Lockstep M Eq someWhitespace someWhitespace := by
  unfold someWhitespace
  infer_instance

instance docComments_lockstep : Lockstep M (Option.Rel M.docs) docComments docComments := by
  unfold docComments
  refine Lockstep.seq fun here => .of_ite (fun _ => ?_) fun _ => .pure .none
  exact .bind (.docs TokenKind.isTrivia) fun _ _ both => .pure (.some both.node)

instance whitespaceUpToDocs_lockstep : Lockstep M (Option.Rel M.docs) whitespaceUpToDocs whitespaceUpToDocs := by
  unfold whitespaceUpToDocs
  refine .bind .current fun t t' h => ?_
  rw [M.kind_eq h]
  infer_instance

theorem join_rel {α β : Type} {R : α → β → Prop} {x : Option (Option α)} {y : Option (Option β)}
    (h : Option.Rel (Option.Rel R) x y) : Option.Rel R x.join y.join := by
  cases h with
  | none => exact .none
  | some inner => exact inner

instance breakLine_lockstep : Lockstep M (Option.Rel M.docs) breakLine breakLine := by
  unfold breakLine
  exact Lockstep.scope_value .lineBreak .statement inferInstance fun _ _ h => .pure (join_rel h)

instance endLine_lockstep : Lockstep M (Option.Rel M.docs) endLine endLine := by
  have : ∀ token : Token, Steady (match token.kind with
      | .newline | .comment | .docComment => breakLine
      | .eof => return none
      | _ => if token.start.column = 1 then return none else fail (.noLineBreak token)) := fun token => by
    split <;> infer_instance
  unfold endLine
  refine Lockstep.seq fun _ => .bind .current fun t t' h => ?_
  simp only [M.kind_eq h, M.begins_iff h]
  split
  · infer_instance
  · infer_instance
  · infer_instance
  · exact .pure .none
  · exact .of_ite (fun _ => .pure .none) fun _ => .fail (.noLineBreak h)

/-! ### Shape ids and keywords -/

instance keyword_lockstep : Lockstep M Eq keyword keyword := by
  unfold keyword
  infer_instance

instance namespacePart_lockstep : Lockstep M Eq namespacePart namespacePart := by
  unfold namespacePart
  infer_instance

instance namespaceId_lockstep : Lockstep M Eq namespaceId namespaceId := by
  unfold namespaceId
  infer_instance

instance startsAbsoluteId_shown : M.Shown startsAbsoluteId := .lookPast 0 isNamespacePart .pound

instance idMember_lockstep : Lockstep M Eq idMember idMember := by
  unfold idMember
  infer_instance

instance shapeId_lockstep (allowMember : Bool) : Lockstep M Eq (shapeId allowMember) (shapeId allowMember) := by
  dsimp only [shapeId]
  infer_instance

instance absoluteShapeId_lockstep : Lockstep M Eq absoluteShapeId absoluteShapeId := by
  unfold absoluteShapeId
  refine Lockstep.seq fun _ => Lockstep.seq fun absolute => .of_ite (fun _ => inferInstance) fun _ => ?_
  exact .bind .current fun _ _ h => .fail (.noAbsoluteId h)

/-! ### Node values -/

theorem isValueKeyword_of_break {s : String} (broken : '\n' ∈ s.toList) : isValueKeyword s = false := by
  have other (word : String) (h : '\n' ∉ word.toList) : s ≠ word := fun same => h (same ▸ broken)
  simp [isValueKeyword, other "true" (by decide), other "false" (by decide), other "null" (by decide)]

section
variable {part part' : Parser Unit} [Grows part] [Lockstep M Eq part part']

/-- Only whether the count of errors has grown matters. -/
instance soundly_lockstep : Lockstep M Eq (soundly part) (soundly part') := by
  unfold soundly
  refine .bind .errorCount fun before before' h => Lockstep.seq fun _ => .bind .errorCount fun after after' h' => ?_
  simp only [M.errors_lt h h']
  infer_instance

instance beforePart_shown (closing : TokenKind) (sound : Bool) : M.Shown (beforePart closing sound) :=
  inferInstanceAs (M.Shown fun b => sound && b.hasNext && !b.isAt closing)

instance partsUntil_lockstep (closing : TokenKind) :
    Lockstep M Eq (partsUntil closing part) (partsUntil closing part') :=
  .foldWhile rfl (fun _ _ same _ _ h => same ▸ Matching.Shown.same h) fun _ _ _ => inferInstance

end

instance objectKey_lockstep : Lockstep M Eq objectKey objectKey := by
  unfold objectKey
  infer_instance

section
variable {value value' : Parser Unit} [Grows value] [Lockstep M Eq value value']

instance entryOf_lockstep : Lockstep M Eq (entryOf value) (entryOf value') := by
  unfold entryOf
  infer_instance

variable [Eats value]

instance arrayOf_lockstep : Lockstep M Eq (arrayOf value) (arrayOf value') := by
  unfold arrayOf
  infer_instance

instance objectEntry_lockstep : Lockstep M Eq (objectEntry value) (objectEntry value') := by
  unfold objectEntry
  infer_instance

instance objectOf_lockstep : Lockstep M Eq (objectOf value) (objectOf value') := by
  unfold objectOf
  infer_instance

instance valueFrom_lockstep (first : TokenKind) : Lockstep M Eq (valueFrom value first) (valueFrom value' first) := by
  unfold valueFrom
  split
  · infer_instance
  · infer_instance
  · refine .bind .current fun t t' h => ?_
    rw [M.lexeme_eq h, M.respell_congr (f := isValueKeyword) fun _ => isValueKeyword_of_break]
    infer_instance
  · infer_instance

instance valueBody_lockstep : Lockstep M Eq (valueBody value) (valueBody value') := by
  unfold valueBody
  infer_instance

end

/-- Where the first run has no room for a further value and the second one has, the first run is refused. -/
theorem nodeValueWithin_lockstep {n n' : Nat} (h : M.room n n') :
    Lockstep M Eq (nodeValueWithin n) (nodeValueWithin n') := by
  induction n generalizing n' with
  | zero =>
    obtain rfl | ⟨lenient, -⟩ := h
    · have : Lockstep M Eq (fail .tooDeep : Parser Unit) (fail .tooDeep) := .fail_plain rfl
      unfold nodeValueWithin
      infer_instance
    · cases n' with
      | zero =>
        have : Lockstep M Eq (fail .tooDeep : Parser Unit) (fail .tooDeep) := .fail_plain rfl
        unfold nodeValueWithin
        infer_instance
      | succ n' =>
        have refused := Lockstep.refused (R := Eq) lenient (valueBody (nodeValueWithin n'))
        unfold nodeValueWithin
        infer_instance
  | succ n ih =>
    obtain ⟨m, rfl, less⟩ : ∃ m, n' = m + 1 ∧ M.room n m := by
      rcases h with rfl | ⟨lenient, le⟩
      · exact ⟨n, rfl, .inl rfl⟩
      · exact ⟨n' - 1, by omega, .inr ⟨lenient, by omega⟩⟩
    have inside : Lockstep M Eq (nodeValueWithin n) (nodeValueWithin m) := ih less
    unfold nodeValueWithin
    infer_instance

instance nodeValue_lockstep : Lockstep M Eq nodeValue nodeValue := by
  unfold nodeValue
  exact .bind .room fun _ _ h => nodeValueWithin_lockstep h

instance entry_lockstep : Lockstep M Eq entry entry := by
  unfold entry
  infer_instance

instance nodeObject_lockstep : Lockstep M Eq nodeObject nodeObject := by
  unfold nodeObject
  infer_instance

/-! ### Traits -/

instance startsTraitStructure_shown : M.Shown startsTraitStructure :=
  inferInstanceAs (M.Shown fun b => (b.isAt .identifier || b.isAt .string) &&
    decide ((b.lookPast 1 TokenKind.isTrivia).kind = .colon))

instance traitEntry_lockstep : Lockstep M Eq traitEntry traitEntry := by
  unfold traitEntry
  infer_instance

instance traitStructure_lockstep : Lockstep M Eq traitStructure traitStructure := by
  unfold traitStructure
  infer_instance

instance traitValue_lockstep : Lockstep M Eq traitValue traitValue := by
  unfold traitValue
  infer_instance

instance traitBody_lockstep : Lockstep M Eq traitBody traitBody := by
  dsimp only [traitBody]
  infer_instance

instance traitStatement_lockstep : Lockstep M Eq traitStatement traitStatement := by
  unfold traitStatement
  infer_instance

instance nextTrait_lockstep : Lockstep M Eq nextTrait nextTrait := by
  unfold nextTrait
  infer_instance

instance traitStatements_lockstep : Lockstep M (Option.Rel M.node) traitStatements traitStatements := by
  unfold traitStatements
  refine Lockstep.seq fun here => .of_ite (fun _ => ?_) fun _ => .pure .none
  exact .bind (.scope .traitStatements inferInstance .statement) fun _ _ both => .pure (.some both.node)

instance memberTraits_lockstep : Lockstep M Eq memberTraits memberTraits := by
  unfold memberTraits
  refine .bind .errorCount fun before before' h => .bind traitStatements_lockstep fun _ _ _ =>
    .bind .errorCount fun after after' h' => ?_
  simp only [Matching.errors_eq h' h]
  exact .pure rfl

end SmithyIdl.Grammar
