import SmithyIdl.Proofs.Buffer.Writes
import SmithyIdl.Proofs.Grammar.Values

/-! # Rows of values and traits

The rules for whitespace, shape ids, node values and traits write the rows of their productions. -/

set_option synthInstance.maxSize 2000

namespace SmithyIdl.Grammar

open SmithyIdl.Parser SmithyIdl.Schema

variable {b b₁ : Buffer} {v : View} {ts : Array Token} {kept : Prop} {r : Rows}

/-! ### Whitespace -/

theorem trivia_among {k : TokenKind} (h : k.isTrivia = true) :
    [Symbol.token k] ∈ (whitespaceToken + tok .docComment).matches' := by
  rw [mem_add, whitespaceToken, mem_anyOf]
  revert h
  cases k <;> simp [TokenKind.isTrivia, TokenKind.isWhitespace, mem_tok]

section
variable (here : b.isAt .space = true)
include here

theorem spacesNode_writes : (within .spaces (shiftKinds (· = .space))).Writes kept b (one .spaces) := by
  refine .within (by decide) fun b₁ _ same => .shiftKinds_plus rfl (fun k hk => ?_) ?_ rfl
  · rw [of_decide_eq_true hk]
    rfl
  · rw [Buffer.current_of_peek same]
    exact here

theorem spaces_at : spaces.Writes kept b (one .spaces) := by
  unfold spaces
  exact .ask (.ite (fun _ => spacesNode_writes here) fun no => absurd here no)

end

theorem spaces_writes : spaces.Writes kept b blanks := by
  unfold spaces
  exact .ask (.whenever spacesNode_writes)

theorem someSpaces_writes : someSpaces.Writes kept b (one .spaces) := by
  unfold someSpaces
  exact .expect_bind fun here => spaces_at (decide_eq_true here)

section
variable (here : b.current.kind.isTrivia = true)
include here

theorem whitespaceNode_writes :
    (within .whitespace (shiftKinds TokenKind.isTrivia)).Writes kept b (one .whitespace) := by
  refine .within (by decide) fun b₁ _ same => .shiftKinds_plus rfl (fun _ => trivia_among) ?_ rfl
  rwa [Buffer.current_of_peek same]

theorem whitespace_at : whitespace.Writes kept b (one .whitespace) := by
  unfold whitespace
  exact .ask (.ite (fun _ => whitespaceNode_writes here) fun no => absurd here no)

end

theorem whitespace_writes : whitespace.Writes kept b space := by
  unfold whitespace
  exact .ask (.whenever whitespaceNode_writes)

theorem someWhitespace_writes : someWhitespace.Writes kept b (one .whitespace) := by
  unfold someWhitespace
  refine .expectAny_bind fun among => whitespace_at ?_
  revert among
  cases b.current.kind <;> decide

/-! ### Shape ids and keywords -/

theorem keyword_writes (here : b.current.kind = .identifier) : keyword.Writes kept b (one .keyword) := by
  unfold keyword
  refine .within (by decide) fun b₁ _ same => .consumeAny_at ?_ (by decide)
  rwa [Buffer.current_of_peek same]

theorem namespacePart_writes (here : b.isAt .dot = true) :
    namespacePart.Writes kept b (sequence [tok .dot, tok .identifier]) := by
  unfold namespacePart
  exact .cons (.consumeAny_at (of_decide_eq_true here) (by decide)) fun _ _ _ => .last (.consume (by decide))

theorem namespaceId_writes : namespaceId.Writes kept b (one .namespaceId) := by
  unfold namespaceId
  refine .expect_bind fun here => .within (by decide) fun b₁ _ same => .cons (.consumeAny_at ?_ (by decide)) ?_
  · rwa [Buffer.current_of_peek same]
  · exact fun _ _ _ => .last (.repeatWhile fun _ _ => namespacePart_writes)

theorem idMember_writes : idMember.Writes kept b (optional (sequence [tok .dollar, one .shapeIdMember])) := by
  unfold idMember
  refine .ask (.whenever fun here => .cons (.consumeAny_at (of_decide_eq_true here) (by decide)) fun _ _ _ => ?_)
  refine .expect_bind fun here => .last (.within (by decide) fun _ _ same => .consumeAny_at ?_ (by decide))
  rwa [Buffer.current_of_peek same]

/-- The name of a shape id and its member. -/
theorem idName_writes (allowMember : Bool) (here : b.current.kind = .identifier) :
    (do
      consumeAny
      if allowMember = true then idMember : Parser Unit).Writes kept b
        (sequence [tok .identifier, optional (sequence [tok .dollar, one .shapeIdMember])]) := by
  refine .cons (.consumeAny_at here (by decide)) fun _ _ _ => .last (.ite (fun _ => idMember_writes) fun _ => ?_)
  exact (Writes.pure _).of_subset fun _ => Or.inl

theorem shapeId_of_absolute (allowMember : Bool) (absolute : startsAbsoluteId b = true) :
    (shapeId allowMember).Writes kept b (.char .absoluteId) := by
  dsimp only [shapeId]
  refine .expect_bind fun _ => .ask (.map (.scope_of (by decide) (r := sequence [one .namespaceId, tok .pound, tok .identifier,
    optional (sequence [tok .dollar, one .shapeIdMember])]) ?_ ?_ fun b₁ _ _ => ?_))
  · exact fun u among => mem_optional_mul_of_mul _ _ u ((matches_sequence_append [_, _] _).le among)
  · rintro _ ⟨_, rfl, _, -, rfl⟩
    rfl
  · rw [if_pos absolute]
    exact .cons namespaceId_writes fun _ _ _ => .cons (.consume (by decide)) fun _ _ _ => .expect_bind fun here =>
      idName_writes allowMember here

theorem shapeId_of_relative (allowMember : Bool) (relative : ¬ startsAbsoluteId b = true) :
    (shapeId allowMember).Writes kept b (one .shapeId) := by
  dsimp only [shapeId]
  refine .expect_bind fun here => .ask (.map (.scope_of (by decide) (r := sequence [tok .identifier,
    optional (sequence [tok .dollar, one .shapeIdMember])]) ?_ ?_ fun b₁ _ same => ?_))
  · exact mem_optional_mul _ _
  · rintro _ ⟨_, rfl, _, -, rfl⟩
    rfl
  · rw [if_neg relative]
    exact idName_writes allowMember (by rwa [Buffer.current_of_peek same])

theorem shapeId_writes (allowMember : Bool) : (shapeId allowMember).Writes kept b Schema.shapeId := by
  by_cases absolute : startsAbsoluteId b = true
  · exact (shapeId_of_absolute allowMember absolute).of_subset fun _ => Or.inr
  · exact (shapeId_of_relative allowMember absolute).of_subset fun _ => Or.inl

theorem absoluteShapeId_writes : absoluteShapeId.Writes kept b (.char .absoluteId) := by
  unfold absoluteShapeId
  exact .expect_bind fun _ => .ask (.ite (shapeId_of_absolute false) fun _ => .ask .fail)

/-! ### Parts -/

/-- Rows of `r` are added by a parser that says whether there was no error, and it says so where there was none. -/
structure WritesSoundly (kept : Prop) (p : Parser Bool) (b : Buffer) (r : Rows) : Prop where
  guards : p.Guards b
  rows : ∀ {ts v}, p.Yields kept ts b v fun sound _ _ u => sound = true ∧ u ∈ r.matches'

namespace WritesSoundly

variable {α : Type} {p : Parser Bool} {rest other : Parser α} {s : Rows}

theorem writes (h : WritesSoundly kept p b r) : p.Writes kept b r :=
  ⟨h.guards, h.rows.mono fun _ _ _ _ _ hu => hu.2⟩

/-- What comes behind where there was no error. -/
theorem bind [Steady p] [Steady rest] [Steady other] (h : WritesSoundly kept p b r)
    (behind : ∀ b₁, rest.Writes kept b₁ s) (guards : ∀ b₁, other.Guards b₁) :
    (do if ← p then rest else other).Writes kept b (r * s) where
  guards := .bind h.guards fun _ b₁ _ => .ite (fun _ => (behind b₁).guards) fun _ => guards b₁
  rows := h.rows.bind fun _ b₁ _ _ _ _ _ sound => by
    obtain ⟨rfl, hu⟩ := sound
    exact (behind b₁).rows.mono fun _ _ _ _ _ hu' => Language.append_mem_mul hu hu'

end WritesSoundly

section
variable {part : Parser Unit} [Grows part] (writes : ∀ b, part.Writes kept b r)
include writes

theorem soundly_writes : WritesSoundly kept (soundly part) b (sequence [r, space]) where
  guards := by
    unfold soundly
    refine .ask_bind (.bind (writes b).guards fun _ b₁ _ => .ask_bind (.ite (fun _ => .pure _) fun _ => ?_))
    exact .bind (whitespace_writes : whitespace.Writes kept b₁ space).guards fun _ _ _ => .pure _
  rows := by
    unfold soundly
    refine .ask ((writes b).rows.bind fun _ b₁ w u _ clean _ hu => .ask (.ite (fun more => ?_) fun _ => ?_))
    · exact absurd clean (Nat.ne_of_gt more)
    · refine whitespace_writes.rows.bind fun _ b₂ x u' _ _ _ hu' => .pure ⟨rfl, ?_⟩
      rw [List.append_nil]
      exact Language.append_mem_mul hu ⟨u', hu', [], rfl, u'.append_nil⟩

theorem partsUntil_writes (closing : TokenKind) : WritesSoundly kept (partsUntil closing part) b (many r) where
  guards := Writes.guards (Writes.foldWhile fun _ _ _ _ => (soundly_writes writes).writes)
  rows := by
    unfold partsUntil
    refine (YieldsFrom.foldWhile (J := fun sound _ _ u => sound = true ∧ u ∈ (many r).matches') (fun _ _ _ _ _ _ hu _ => ?_)
      ⟨rfl, Language.nil_mem_kstar _⟩).mono fun _ _ _ _ _ h => h.1
    exact (soundly_writes writes).rows.mono fun _ _ _ _ _ h => ⟨h.1, Writes.append_mem_star hu.2 h.2⟩

end

/-! ### Node values -/

theorem objectKey_writes : objectKey.Writes kept b (one .nodeObjectKey) := by
  unfold objectKey
  refine .expectAny_bind fun among => .within (by decide) fun b₁ _ same => ?_
  have here : b₁.current.kind = .string ∨ b₁.current.kind = .identifier := by
    rw [Buffer.current_of_peek same]
    simpa using among
  rcases here with here | here
  · exact (Writes.consumeAny_at here (by decide)).of_subset fun _ => Or.inl
  · exact (Writes.consumeAny_at here (by decide)).of_subset fun _ => Or.inr

section
variable {value : Parser Unit} [Grows value] (writes : ∀ b, value.Writes kept b (one .nodeValue))
include writes

theorem entryOf_writes : (entryOf value).Writes kept b Schema.entry := by
  unfold entryOf
  exact .cons objectKey_writes fun _ _ _ => .cons whitespace_writes fun _ _ _ => .cons (.consume (by decide))
    fun _ _ _ => .cons whitespace_writes fun _ b₁ _ => (writes b₁).last

theorem objectEntry_writes : (objectEntry value).Writes kept b (one .nodeObjectEntry) := by
  unfold objectEntry
  exact .within (by decide) fun _ _ _ => entryOf_writes writes

theorem objectOf_writes (here : b.current.kind = .lbrace) : (objectOf value).Writes kept b (one .nodeObject) := by
  unfold objectOf
  refine .within (by decide) fun b₁ _ same => .cons (.consumeAny_at ?_ (by decide)) fun _ _ _ =>
    .cons whitespace_writes fun _ _ _ => (partsUntil_writes (fun _ => objectEntry_writes writes) .rbrace).bind
      (fun _ => .last (.consume (by decide))) fun _ => .pure _
  rwa [Buffer.current_of_peek same]

variable [Eats value]

theorem arrayOf_writes (here : b.current.kind = .lbracket) : (arrayOf value).Writes kept b (one .nodeArray) := by
  unfold arrayOf
  refine .within (by decide) fun b₁ _ same => .cons (.consumeAny_at ?_ (by decide)) fun _ _ _ =>
    .cons whitespace_writes fun _ _ _ => (partsUntil_writes writes .rbracket).bind
      (fun _ => .last (.consume (by decide))) fun _ => .pure _
  rwa [Buffer.current_of_peek same]

theorem valueFrom_writes (among : valueStart.contains b.current.kind = true) :
    (valueFrom value b.current.kind).Writes kept b (production .nodeValue) := by
  have start : b.current.kind ∈ [TokenKind.lbracket, .lbrace, .string, .textBlock, .number, .identifier] := by
    simpa [valueStart] using among
  have single {k : TokenKind} (here : b.current.kind = k) (sound : k ≠ .error)
      (placed : [.token k] ∈ (production .nodeValue).matches') : consumeAny.Writes kept b (production .nodeValue) :=
    (Writes.consumeAny_at here sound).of_subset fun _ hu => by rwa [mem_tok.mp hu]
  have node {p : Parser Unit} {k : TreeKind} (writes : p.Writes kept b (one k))
      (placed : [.node k] ∈ (production .nodeValue).matches') : p.Writes kept b (production .nodeValue) :=
    writes.of_subset fun _ hu => by rwa [mem_one.mp hu]
  unfold valueFrom
  simp only [List.mem_cons, List.not_mem_nil, or_false] at start
  rcases start with here | here | here | here | here | here
  · simp only [here]
    exact node (arrayOf_writes writes here) (by simp [production, mem_anyOf, mem_one])
  · simp only [here]
    exact node (objectOf_writes writes here) (by simp [production, mem_anyOf, mem_one])
  · simp only [here]
    exact single here (by decide) (by simp [production, mem_anyOf, mem_tok])
  · simp only [here]
    exact single here (by decide) (by simp [production, mem_anyOf, mem_tok])
  · simp only [here]
    exact single here (by decide) (by simp [production, mem_anyOf, mem_tok])
  · simp only [here]
    refine .ask (.ite (fun _ => node (keyword_writes here) (by simp [production, mem_anyOf, mem_one])) fun _ => ?_)
    refine (shapeId_writes true).of_subset fun u hu => mem_anyOf.mpr ⟨Schema.shapeId, ?_, hu⟩
    simp

theorem valueBody_writes : (valueBody value).Writes kept b (production .nodeValue) := by
  unfold valueBody
  exact .expectAny_bind fun among => valueFrom_writes writes among

end

theorem nodeValueWithin_writes (n : Nat) (b : Buffer) : (nodeValueWithin n).Writes kept b (one .nodeValue) := by
  induction n generalizing b with
  | zero =>
    unfold nodeValueWithin
    exact .within (by decide) fun _ _ _ => .fail
  | succ n ih =>
    unfold nodeValueWithin
    exact .within (by decide) fun _ _ _ => valueBody_writes ih

theorem nodeValue_writes : nodeValue.Writes kept b (one .nodeValue) := by
  unfold nodeValue
  exact .ask (nodeValueWithin_writes _ _)

theorem entry_writes : entry.Writes kept b Schema.entry := entryOf_writes fun _ => nodeValue_writes

theorem nodeObject_writes (here : b.current.kind = .lbrace) : nodeObject.Writes kept b (one .nodeObject) :=
  objectOf_writes (fun _ => nodeValue_writes) here

/-! ### Traits -/

theorem traitEntry_writes : traitEntry.Writes kept b (one .traitStructureEntry) := by
  unfold traitEntry
  exact .within (by decide) fun _ _ _ => entry_writes

/-- A key is no closing parenthesis, so there is an entry. -/
theorem traitStructure_writes (starts : startsTraitStructure b = true) :
    traitStructure.Writes kept b (one .traitStructure) := by
  have key : b.current.kind = .identifier ∨ b.current.kind = .string := by
    unfold startsTraitStructure at starts
    simpa [Buffer.isAt] using (Bool.and_eq_true_iff.mp starts).1
  unfold traitStructure
  refine .within (by decide) fun b₁ _ same => .map (.foldWhile_plus ?_ fun ends => ?_)
  · exact fun _ _ _ _ => (soundly_writes fun _ => traitEntry_writes).writes
  · rw [← Buffer.current_of_peek same] at key
    have next : b₁.hasNext = true := ends.hasNext (by rcases key with here | here <;> rw [here] <;> decide)
    rw [beforePart, next]
    rcases key with here | here <;> rw [Buffer.isAt, here] <;> rfl

theorem traitValue_writes : traitValue.Writes kept b (one .traitStructure + one .traitBodyValue) := by
  unfold traitValue
  refine .ask (.ite (fun starts => ?_) fun _ => ?_)
  · exact (traitStructure_writes starts).of_subset fun _ => Or.inl
  · exact (Writes.within (by decide) fun _ _ _ => nodeValue_writes).of_subset fun _ => Or.inr

theorem traitBody_writes (here : b.isAt .lparen = true) : traitBody.Writes kept b (one .traitBody) := by
  dsimp only [traitBody]
  refine .within (by decide) fun b₁ _ same => .cons (.consumeAny_at ?_ (by decide)) fun _ _ _ =>
    .cons whitespace_writes fun _ _ _ => .ask (.ite (fun _ => ?_) fun _ => ?_)
  · rw [Buffer.current_of_peek same]
    exact of_decide_eq_true here
  · rw [pure_bind, if_pos rfl]
    exact (Writes.consume (by decide)).last.of_subset (mem_optional_mul _ _)
  · exact ((soundly_writes fun _ => traitValue_writes).bind (fun _ => .last (.consume (by decide)))
      fun _ => .pure _).of_subset (mem_optional_mul_of_mul _ _)

theorem traitStatement_writes : traitStatement.Writes kept b (one .trait) := by
  unfold traitStatement
  refine .expect_bind fun here => .within (by decide) fun b₁ _ same => .cons (.consumeAny_at ?_ (by decide)) fun _ _ _ =>
    .cons (shapeId_writes false) fun _ _ _ => .last (.ask (.whenever traitBody_writes))
  rwa [Buffer.current_of_peek same]

theorem nextTrait_writes : nextTrait.Writes kept b (sequence [one .trait, space]) := by
  unfold nextTrait
  exact .cons traitStatement_writes fun _ _ _ => whitespace_writes.last

/-- The traits of a run. -/
theorem traitRun_writes (here : b.isAt .atSign = true) :
    (repeatWhile (·.isAt .atSign) nextTrait).Writes kept b (production .traitStatements) :=
  .foldWhile_plus (fun _ _ _ _ => nextTrait_writes) fun _ => here

theorem traitStatements_writes : traitStatements.Writes kept b traits := by
  unfold traitStatements
  refine .ask (.whenever fun here => .map (.scope (by decide) fun b₁ _ same => traitRun_writes ?_))
  rwa [Buffer.isAt, Buffer.current_of_peek same]

theorem memberTraits_writes : WritesSoundly kept memberTraits b traits where
  guards := by
    unfold memberTraits
    exact .ask_bind (.bind (traitStatements_writes : traitStatements.Writes kept b traits).guards fun _ _ _ =>
      .ask_bind (.pure _))
  rows := by
    unfold memberTraits
    refine .ask (traitStatements_writes.rows.bind fun _ b₁ _ u _ clean _ hu => .ask (.pure ⟨decide_eq_true clean, ?_⟩))
    rwa [List.append_nil]

end SmithyIdl.Grammar
