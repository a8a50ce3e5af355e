import SmithyIdl.Proofs.Buffer.Nearsighted
import SmithyIdl.Proofs.Grammar.Preamble

/-! # Rules that look no further than a brace

The rules look past names and dots for a `#`, past spaces for an equals sign, past trivia for a colon or the sign of an
inline structure, and past all that is no trait for the brace of a block. No look goes past an opening brace, and but for
the last one, none goes past the sign of an inline structure. -/

set_option synthInstance.maxSize 20000

namespace SmithyIdl

open SmithyIdl.Buffer (Near NearBefore)

/-! ### Ways to put parsers together -/

namespace Parser.Nearsighted

variable {α β σ : Type} {hints : Prop} {p q : Parser α} {f : α → Parser β}

attribute [instance] Nearsighted.pure Nearsighted.fail Nearsighted.abort Nearsighted.shift Nearsighted.openNode
  Nearsighted.closeNode Nearsighted.detach Nearsighted.attach

instance seq [first : Nearsighted hints p] [next : ∀ a, Nearsighted hints (f a)] : Nearsighted hints (p >>= f) :=
  .bind first next

instance see (f : Buffer → α) [near : Near f] : Nearsighted hints (Parser.ask f) := .ask f near

instance ite {c : Prop} [Decidable c] [Nearsighted hints p] [Nearsighted hints q] :
    Nearsighted hints (if c then p else q) := by
  split <;> infer_instance

instance rounds {more : σ → Buffer → Bool} {round : σ → Parser σ} [near : ∀ s, Near (more s)]
    [each : ∀ s, Nearsighted hints (round s)] (s : σ) : Nearsighted hints (Parser.foldWhile more round s) :=
  .foldWhile near each s

instance repeatWhile {more : Buffer → Bool} {round : Parser Unit} [Near more] [Nearsighted hints round] :
    Nearsighted hints (Parser.repeatWhile more round) := by
  unfold Parser.repeatWhile
  infer_instance

instance hasNext : Nearsighted hints Parser.hasNext := see _

instance current : Nearsighted hints Parser.current := see _

instance isAt (kind : TokenKind) : Nearsighted hints (Parser.isAt kind) := see _

instance isAtKeyword (name : String) : Nearsighted hints (Parser.isAtKeyword name) := see _

instance errorCount : Nearsighted hints Parser.errorCount := see _

instance next : Nearsighted hints Parser.next := by
  unfold Parser.next
  infer_instance

instance shiftWhile (kinds : Token → Bool) : Nearsighted hints (Parser.shiftWhile kinds) := by
  have : Near fun b : Buffer => kinds b.current := .of_current kinds
  unfold Parser.shiftWhile
  infer_instance

instance shiftKinds (kinds : TokenKind → Bool) : Nearsighted hints (Parser.shiftKinds kinds) := by
  unfold Parser.shiftKinds
  infer_instance

instance expectAny (kinds : TokenSet) : Nearsighted hints (Parser.expectAny kinds) := by
  have refusal (token : Token) : Nearsighted hints (match token.error? with
      | some cause => Parser.fail (.lexical cause)
      | none => Parser.fail (.expected kinds token) : Parser TokenKind) := by split <;> infer_instance
  unfold Parser.expectAny
  infer_instance

instance expect (kind : TokenKind) : Nearsighted hints (Parser.expect kind) := by
  unfold Parser.expect
  infer_instance

instance consume (kind : TokenKind) : Nearsighted hints (Parser.consume kind) := by
  unfold Parser.consume
  infer_instance

instance consumeAny : Nearsighted hints Parser.consumeAny := by
  unfold Parser.consumeAny
  infer_instance

instance limited [Nearsighted hints p] : Nearsighted hints (Parser.limited p) := by
  unfold Parser.limited
  infer_instance

instance caught [inside : Nearsighted hints p] : Nearsighted hints (Parser.recovering .statement p) := .recovering inside

instance scope (kind : TreeKind) [Nearsighted hints p] : Nearsighted hints (Parser.scope kind p) := by
  unfold Parser.scope
  infer_instance

instance within (kind : TreeKind) {body : Parser Unit} [Nearsighted hints body] :
    Nearsighted hints (Parser.within kind body) := by
  unfold Parser.within
  infer_instance

instance adoptDocs (docs : Option NodeId) : Nearsighted hints (Parser.adoptDocs docs) := by
  have placed (node : NodeId) (n : Nat) : Nearsighted hints (match n with
      | 0 => do
        Parser.detach node
        Parser.attach node
      | n => Parser.abort (.docsNotFirst n)) := by split <;> infer_instance
  unfold Parser.adoptDocs
  split <;> infer_instance

end Parser.Nearsighted

namespace Grammar

open SmithyIdl.Parser

variable {hints : Prop}

/-! ### Whitespace -/

instance spaces_nearsighted : Nearsighted hints spaces := by
  unfold spaces
  infer_instance

instance someSpaces_nearsighted : Nearsighted hints someSpaces := by
  unfold someSpaces
  infer_instance

instance whitespace_nearsighted : Nearsighted hints whitespace := by
  unfold whitespace
  infer_instance

instance someWhitespace_nearsighted : Nearsighted hints someWhitespace := by
  unfold someWhitespace
  infer_instance

instance docComments_nearsighted : Nearsighted hints docComments := by
  unfold docComments
  infer_instance

instance whitespaceUpToDocs_nearsighted : Nearsighted hints whitespaceUpToDocs := by
  unfold whitespaceUpToDocs
  infer_instance

instance breakLine_nearsighted : Nearsighted hints breakLine := by
  unfold breakLine
  infer_instance

instance endLine_nearsighted : Nearsighted hints endLine := by
  have (token : Token) : Nearsighted hints (match token.kind with
      | .newline | .comment | .docComment => breakLine
      | .eof => return none
      | _ => if token.start.column = 1 then return none else fail (.noLineBreak token)) := by
    split <;> infer_instance
  unfold endLine
  infer_instance

/-! ### Shape ids and keywords -/

instance keyword_nearsighted : Nearsighted hints keyword := by
  unfold keyword
  infer_instance

instance namespacePart_nearsighted : Nearsighted hints namespacePart := by
  unfold namespacePart
  infer_instance

instance namespaceId_nearsighted : Nearsighted hints namespaceId := by
  unfold namespaceId
  infer_instance

/-- Neither whitespace nor the sign of an inline structure is part of a namespace, or a `#`. -/
instance startsAbsoluteId_near : Near startsAbsoluteId where
  same {b o ts} h before := by
    have apart {c : Buffer} {s j : Nat} (ends : c.EndsWithEof) (sign : InlineSign c.tree.tokens o s)
        (behind : c.cursor + j = o + 1) : (c.lookPast j isNamespacePart).kind ≠ .pound := by
      have other : isNamespacePart (c.peek j).kind = false ∧ (c.peek j).kind ≠ .pound := by
        rw [ends.kind_peek, behind]
        rcases sign.next with white | sign
        · revert white
          cases kindAt c.tree.tokens (o + 1) <;> decide
        · rw [sign]
          decide
      rw [Buffer.lookPast, if_neg fun more => by simp [other.1] at more]
      exact other.2
    rcases h.lookPast_cases (k := 0) isNamespacePart before with same | ⟨part, j, behind, seen, seen'⟩
    · exact congrArg (fun t : Token => decide (t.kind = .pound)) same
    · rcases h.last with brace | signs
      · rw [brace] at part
        cases part
      · rw [startsAbsoluteId, startsAbsoluteId, seen, seen', decide_eq_false (apart h.ends signs.sign behind),
          decide_eq_false (apart h.ends' signs.sign' behind)]

instance idMember_nearsighted : Nearsighted hints idMember := by
  unfold idMember
  infer_instance

instance shapeId_nearsighted (allowMember : Bool) : Nearsighted hints (shapeId allowMember) := by
  dsimp only [shapeId]
  infer_instance

instance absoluteShapeId_nearsighted : Nearsighted hints absoluteShapeId := by
  unfold absoluteShapeId
  infer_instance

/-! ### Node values -/

section
variable {part : Parser Unit} [Nearsighted hints part]

instance soundly_nearsighted : Nearsighted hints (soundly part) := by
  unfold soundly
  infer_instance

instance beforePart_near (closing : TokenKind) (sound : Bool) : Near (beforePart closing sound) :=
  inferInstanceAs (Near fun b => sound && b.hasNext && !b.isAt closing)

instance partsUntil_nearsighted (closing : TokenKind) : Nearsighted hints (partsUntil closing part) := by
  unfold partsUntil
  infer_instance

end

instance objectKey_nearsighted : Nearsighted hints objectKey := by
  unfold objectKey
  infer_instance

section
variable {value : Parser Unit} [Nearsighted hints value]

instance entryOf_nearsighted : Nearsighted hints (entryOf value) := by
  unfold entryOf
  infer_instance

instance arrayOf_nearsighted : Nearsighted hints (arrayOf value) := by
  unfold arrayOf
  infer_instance

instance objectEntry_nearsighted : Nearsighted hints (objectEntry value) := by
  unfold objectEntry
  infer_instance

instance objectOf_nearsighted : Nearsighted hints (objectOf value) := by
  unfold objectOf
  infer_instance

instance valueFrom_nearsighted (first : TokenKind) : Nearsighted hints (valueFrom value first) := by
  unfold valueFrom
  split <;> infer_instance

instance valueBody_nearsighted : Nearsighted hints (valueBody value) := by
  unfold valueBody
  infer_instance

end

instance nodeValueWithin_nearsighted (n : Nat) : Nearsighted hints (nodeValueWithin n) := by
  induction n <;> (unfold nodeValueWithin; infer_instance)

instance depthLeft_near : Near depthLeft := ⟨fun _ _ => rfl⟩

instance nodeValue_nearsighted : Nearsighted hints nodeValue := by
  unfold nodeValue
  infer_instance

instance entry_nearsighted : Nearsighted hints entry := by
  unfold entry
  infer_instance

instance nodeObject_nearsighted : Nearsighted hints nodeObject := by
  unfold nodeObject
  infer_instance

/-! ### Traits -/

/-- Where the brace comes, no key does; behind the name comes whitespace and then a sign. -/
instance startsTraitStructure_near : Near startsTraitStructure where
  same {b o ts} h before := by
    have same : (b.withTokens ts).current = b.current := h.peek (k := 0) before
    rcases Nat.eq_or_lt_of_le before with here | before
    · rcases h.last with brace | signs
      · have kind : b.current.kind = .lbrace := (h.ends.kind_peek 0).trans (here ▸ brace)
        simp [startsTraitStructure, Buffer.isAt, same, kind]
      · have white (kind : TokenKind) (space : kind.isWhitespace = true) : kind.isTrivia = true := by
          rw [TokenKind.isTrivia, space, Bool.true_or]
        have seen : ((b.withTokens ts).lookPast 1 TokenKind.isTrivia).kind = (b.lookPast 1 TokenKind.isTrivia).kind :=
          Buffer.kind_lookPast signs h.ends h.ends' white (here ▸ Nat.lt_succ_self o)
            (here ▸ signs.sign.less) (here ▸ Nat.lt_succ_self o) (here ▸ signs.sign'.less)
        simp only [startsTraitStructure, Buffer.isAt, same, seen]
    · have colon := NearBefore.lookPast TokenKind.isTrivia rfl rfl (fun t => decide (t.kind = .colon)) h before
      dsimp only at colon
      simp only [startsTraitStructure, Buffer.isAt, same, colon]

instance traitEntry_nearsighted : Nearsighted hints traitEntry := by
  unfold traitEntry
  infer_instance

instance traitStructure_nearsighted : Nearsighted hints traitStructure := by
  unfold traitStructure
  infer_instance

instance traitValue_nearsighted : Nearsighted hints traitValue := by
  unfold traitValue
  infer_instance

instance traitBody_nearsighted : Nearsighted hints traitBody := by
  dsimp only [traitBody]
  infer_instance

instance traitStatement_nearsighted : Nearsighted hints traitStatement := by
  unfold traitStatement
  infer_instance

instance nextTrait_nearsighted : Nearsighted hints nextTrait := by
  unfold nextTrait
  infer_instance

instance traitStatements_nearsighted : Nearsighted hints traitStatements := by
  unfold traitStatements
  infer_instance

instance memberTraits_nearsighted : Nearsighted hints memberTraits := by
  unfold memberTraits
  infer_instance

/-! ### Heads of shapes -/

instance typedName_nearsighted : Nearsighted hints typedName := by
  unfold typedName
  infer_instance

instance mixin_nearsighted : Nearsighted hints mixin := by
  unfold mixin
  infer_instance

instance mixinList_nearsighted : Nearsighted hints mixinList := by
  unfold mixinList
  infer_instance

instance mixins_nearsighted : Nearsighted hints mixins := by
  unfold mixins
  infer_instance

instance structureResource_nearsighted : Nearsighted hints structureResource := by
  unfold structureResource
  infer_instance

instance headUpToBrace_nearsighted : Nearsighted hints headUpToBrace := by
  unfold headUpToBrace
  infer_instance

/-! ### Members -/

instance memberName_nearsighted : Nearsighted hints memberName := by
  unfold memberName
  infer_instance

instance valueAssignment_nearsighted : Nearsighted hints valueAssignment := by
  unfold valueAssignment
  infer_instance

instance startsAssignment_near : Near startsAssignment := .lookPast rfl rfl fun t => decide (t.kind = .equal)

instance afterMember_nearsighted (takesValue : Bool) : Nearsighted hints (afterMember takesValue) := by
  unfold afterMember
  infer_instance

instance memberKind_nearsighted (slot : MemberSlot) (name : String) (elided : Bool) :
    Nearsighted hints (memberKind slot name elided) := by
  unfold memberKind
  split <;> infer_instance

instance memberTarget_nearsighted (elided : Bool) : Nearsighted hints (memberTarget elided) := by
  unfold memberTarget
  infer_instance

theorem peek_nearBefore (elided : Bool) : NearBefore fun b => b.peek (if elided then 1 else 0) := fun h before =>
  h.peek (by split <;> omega)

/-- The name behind a dollar sign is looked at before the sign is taken. -/
instance memberBody_nearsighted (slot : MemberSlot) : Nearsighted hints (memberBody slot) := by
  unfold memberBody
  refine .bind inferInstance fun first => ?_
  dsimp only [upcomingName]
  rw [bind_assoc]
  exact .look (peek_nearBefore _) (fun _ => inferInstance) fun _ => inferInstance

section
variable {α : Type} {docs : Docs}

instance behindTraits_nearsighted {body : Parser (Option α)} [Nearsighted hints body] :
    Nearsighted hints (behindTraits body docs) := by
  unfold behindTraits
  infer_instance

instance shapeMember_nearsighted (slot : MemberSlot) : Nearsighted hints (shapeMember slot docs) := by
  unfold shapeMember
  infer_instance

instance enumMember_nearsighted : Nearsighted hints (enumMember docs) := by
  unfold enumMember
  infer_instance

end

instance beforeBrace_near : Near beforeBrace := inferInstanceAs (Near fun b => b.hasNext && !b.isAt .rbrace)

instance membersOf_nearsighted (kind : TreeKind) {member : Docs → Parser Docs} [∀ docs, Nearsighted hints (member docs)] :
    Nearsighted hints (membersOf kind member) := by
  have (docs : Docs) : Nearsighted hints (memberIn kind member docs) := by
    unfold memberIn
    infer_instance
  unfold membersOf
  infer_instance

/-! ### Shapes -/

instance braced_nearsighted (kind : TreeKind) {contents : Parser Unit} [Nearsighted hints contents] :
    Nearsighted hints (braced kind contents) := by
  unfold braced
  infer_instance

instance enumStatement_nearsighted : Nearsighted hints enumStatement := by
  unfold enumStatement
  infer_instance

instance listStatement_nearsighted : Nearsighted hints listStatement := by
  unfold listStatement
  infer_instance

instance secondMember_nearsighted (first : Member) : Nearsighted hints (secondMember first) := by
  unfold secondMember
  infer_instance

instance keyAndValue_nearsighted : Nearsighted hints keyAndValue := by
  have (first : Option Member) : Nearsighted hints (match first with
      | some first => secondMember first
      | none => return) := by split <;> infer_instance
  unfold keyAndValue
  infer_instance

instance mapMembers_nearsighted : Nearsighted hints mapMembers := by
  unfold mapMembers
  infer_instance

instance mapStatement_nearsighted : Nearsighted hints mapStatement := by
  unfold mapStatement
  infer_instance

instance blockMember_nearsighted (slot : MemberSlot) (docs : Docs) : Nearsighted hints (blockMember slot docs) := by
  unfold blockMember
  infer_instance

instance memberBlock_nearsighted (container wrapper : TreeKind) (slot : MemberSlot) :
    Nearsighted hints (memberBlock container wrapper slot) := by
  unfold memberBlock
  infer_instance

instance structureRest_nearsighted : Nearsighted hints structureRest := by
  unfold structureRest
  infer_instance

instance structureStatement_nearsighted : Nearsighted hints structureStatement := by
  unfold structureStatement
  infer_instance

instance unionStatement_nearsighted : Nearsighted hints unionStatement := by
  unfold unionStatement
  infer_instance

instance inlineStructure_nearsighted : Nearsighted hints inlineStructure := by
  unfold inlineStructure
  infer_instance

theorem definesInline_nearBefore : NearBefore definesInline :=
  NearBefore.lookPast TokenKind.isWhitespace rfl rfl fun t => decide (t.kind = .walrus)

instance operationTarget_nearsighted : Nearsighted hints operationTarget :=
  .look definesInline_nearBefore (fun _ => inferInstance) fun _ => inferInstance

instance operationError_nearsighted : Nearsighted hints operationError := by
  unfold operationError
  infer_instance

instance operationErrors_nearsighted : Nearsighted hints operationErrors := by
  unfold operationErrors
  infer_instance

instance propertyOfName_nearsighted (name : String) : Nearsighted hints (propertyOfName name) := by
  have {kind : TreeKind} {property : Parser Unit} (h : propertyOf? name = some (kind, property)) :
      Nearsighted hints property := by
    unfold propertyOf? at h
    split at h
    all_goals cases h
    all_goals infer_instance
  unfold propertyOfName
  split
  · next found =>
    have := this found
    infer_instance
  · infer_instance

instance operationProperty_nearsighted (seen : List String) : Nearsighted hints (operationProperty seen) := by
  dsimp only [operationProperty]
  infer_instance

instance operationStatement_nearsighted : Nearsighted hints operationStatement := by
  unfold operationStatement
  infer_instance

instance simpleStatement_nearsighted : Nearsighted hints simpleStatement := by
  unfold simpleStatement
  infer_instance

instance entityStatement_nearsighted : Nearsighted hints entityStatement := by
  unfold entityStatement
  infer_instance

instance statement_nearsighted (form : ShapeForm) : Nearsighted hints form.statement := by
  cases form <;> (unfold ShapeForm.statement; infer_instance)

instance shapeOfType_nearsighted (type : String) : Nearsighted hints (shapeOfType type) := by
  unfold shapeOfType
  split <;> infer_instance

instance shapeBody_nearsighted : Nearsighted hints shapeBody := by
  unfold shapeBody
  infer_instance

/-! ### Statements -/

instance traitBlock_nearsighted : Nearsighted hints traitBlock := by
  unfold traitBlock
  infer_instance

/-- The look goes past names and all whitespace. -/
theorem appliesBlock_nearBefore : NearBefore appliesBlock := fun h before => by
  rw [appliesBlock, appliesBlock, h.kind_lookPast rfl (fun kind => by cases kind <;> decide) before]

instance applyStatement_nearsighted : Nearsighted hints applyStatement :=
  .look appliesBlock_nearBefore (fun _ => inferInstance) fun _ => inferInstance

section
variable {docs : Docs} {traits : Option NodeId}

instance withTraits_nearsighted {f : NodeId → Parser Unit} [∀ d, Nearsighted hints (f d)] :
    Nearsighted hints (withTraits traits f) := by
  unfold withTraits
  split <;> infer_instance

instance detachedTraits_nearsighted : Nearsighted hints detachedTraits := by
  unfold detachedTraits
  infer_instance

instance endStatement_nearsighted : Nearsighted hints endStatement := by
  unfold endStatement
  infer_instance

instance shapeStatement_nearsighted : Nearsighted hints (shapeStatement docs traits) := by
  unfold shapeStatement
  infer_instance

instance misplaced_nearsighted (problem : Problem) : Nearsighted True (misplaced traits problem) := by
  have (node : NodeId) : Nearsighted True (encloseInError node problem) := .encloseInError trivial node problem
  unfold misplaced
  infer_instance

instance shapeOrApplyStatement_nearsighted : Nearsighted True (shapeOrApplyStatement docs) := by
  unfold shapeOrApplyStatement
  infer_instance

end

/-! ### Before the statements -/

instance setting_nearsighted (sign : TokenKind) : Nearsighted hints (setting sign) := by
  unfold setting
  infer_instance

instance controlStatement_nearsighted : Nearsighted hints controlStatement := by
  unfold controlStatement
  infer_instance

instance controlSection_nearsighted : Nearsighted hints controlSection := by
  unfold controlSection
  infer_instance

instance metadataStatement_nearsighted : Nearsighted hints metadataStatement := by
  unfold metadataStatement
  infer_instance

instance metadataSection_nearsighted : Nearsighted hints metadataSection := by
  unfold metadataSection
  infer_instance

instance declaration_nearsighted (kind : TreeKind) (declared : Parser Unit) [Nearsighted hints declared] :
    Nearsighted hints (declaration kind declared) := by
  unfold declaration
  infer_instance

instance namespaceStatement_nearsighted : Nearsighted hints namespaceStatement := declaration_nearsighted _ _

instance useStatement_nearsighted : Nearsighted hints useStatement := declaration_nearsighted _ _

instance useSection_nearsighted (docs : Docs) : Nearsighted hints (useSection docs) := by
  unfold useSection
  infer_instance

instance namespaceOrError_nearsighted : Nearsighted True namespaceOrError := by
  have (token : Token) : Nearsighted True (reportMissing (.noNamespace token)) := .reportMissing trivial _
  unfold namespaceOrError
  infer_instance

instance preamble_nearsighted : Nearsighted True preamble := by
  unfold preamble header
  infer_instance

instance shapeSection_nearsighted : Nearsighted True shapeSection := by
  unfold shapeSection shapeStatements
  infer_instance

end Grammar

end SmithyIdl
