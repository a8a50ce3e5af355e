import SmithyIdl.Proofs.Buffer.Costs
import SmithyIdl.Proofs.Grammar.Model
import SmithyIdl.Proofs.Grammar.Unfailing
import SmithyIdl.Proofs.Token.Scans

/-! # What the rules of the grammar cost

A rule that finds its first token pays for all that it opens around it, and the rules inside of it pay for themselves.
At the end of the text at most a few nodes stay open, so a parsed text has no more than 16 nodes for each of its
tokens. -/

set_option synthInstance.maxSize 2000

namespace SmithyIdl.Grammar

open SmithyIdl.Parser

variable {b : Buffer}

/-! ### Whitespace -/

/-- A node for a run of tokens of a class pays where one comes. -/
theorem run_costsFrom (kind : TreeKind) (kinds : TokenKind → Bool) (ends : b.EndsWithEof) (token : b.hasNext = true)
    (here : kinds b.current.kind = true) : CostsFrom (-13) (scope kind (shiftKinds kinds)) b :=
  .scope (c := -15) kind .statement ends (.inr ⟨token, by decide⟩) fun leads same =>
    .shiftKinds (leads.endsWithEof ends) ((leads.hasNext_of_same same).trans token)
      (by rw [leads.current_of_same same]; exact here)

theorem hasNext_of_trivia (ends : b.EndsWithEof) (here : b.current.kind.isTrivia = true) : b.hasNext = true :=
  ends.hasNext fun eof => by rw [eof] at here; cases here

theorem hasNext_of_whitespace (ends : b.EndsWithEof) (here : b.current.kind.isWhitespace = true) :
    b.hasNext = true := ends.hasNext fun eof => by rw [eof] at here; cases here

instance spaces_costs : Costs spaces 0 where
  least := Int.le_refl 0
  costs ends := by
    refine .ask (.ite (fun here => ?_) fun _ => .idle (Int.le_refl 0))
    have paid := run_costsFrom .spaces (· = .space) ends (ends.hasNext_of_isAt here (by decide)) here
    exact (paid.bind (d := 0) (fun _ => .idle (Int.le_refl 0)) (Int.le_refl 0)).mono (by decide)

instance someSpaces_costs : Costs someSpaces 0 := by
  unfold someSpaces
  exact .le (by decide)

instance whitespace_costs : Costs whitespace 0 where
  least := Int.le_refl 0
  costs ends := by
    refine .ask (.ite (fun here => ?_) fun _ => .idle (Int.le_refl 0))
    have paid := run_costsFrom .whitespace TokenKind.isTrivia ends (hasNext_of_trivia ends here) here
    exact (paid.bind (d := 0) (fun _ => .idle (Int.le_refl 0)) (Int.le_refl 0)).mono (by decide)

instance someWhitespace_costs : Costs someWhitespace 0 := by
  unfold someWhitespace
  exact .le (by decide)

instance docComments_costs : Costs docComments 0 where
  least := Int.le_refl 0
  costs ends := by
    refine .ask (.ite (fun here => ?_) fun _ => .idle (Int.le_refl 0))
    have here := of_decide_eq_true here
    have paid := run_costsFrom .whitespace TokenKind.isTrivia ends (ends.hasNext (by rw [here]; decide))
      (by rw [here]; rfl)
    exact (paid.bind (d := 0) (fun _ => .idle (Int.le_refl 0)) (Int.le_refl 0)).mono (by decide)

instance whitespaceUpToDocs_costs : Costs whitespaceUpToDocs 0 where
  least := Int.le_refl 0
  costs ends := by
    refine .ask (.ite (fun here => ?_) fun _ => Costs.costs ends)
    have paid := run_costsFrom .whitespace TokenKind.isWhitespace ends (hasNext_of_whitespace ends here) here
    have closed := paid.bind (f := fun _ => pure ()) (d := 0) (fun _ => .idle (Int.le_refl 0)) (Int.le_refl 0)
    have whole := closed.bind (f := fun _ => docComments) (d := 0)
      (fun run => Costs.costs ((Steady.ok run).endsWithEof ends)) (Int.le_refl 0)
    exact whole.mono (by decide)

instance breakLine_pays : Pays breakLine 13 := by
  unfold breakLine
  exact .le (by decide)

instance endLine_costs : Costs endLine 0 where
  least := Int.le_refl 0
  costs ends := by
    refine (Costs.costs (p := spaces) ends).bind (fun {_ b₁} run => .ask ?_) (Int.le_refl 0)
    have ends₁ := (Steady.ok run).endsWithEof ends
    have breaks (ne : b₁.current.kind ≠ .eof) : CostsFrom 0 breakLine b₁ :=
      (Pays.pays ends₁ (ends₁.hasNext ne)).mono (by decide)
    split
    · next here => exact breaks (by rw [here]; decide)
    · next here => exact breaks (by rw [here]; decide)
    · next here => exact breaks (by rw [here]; decide)
    · exact .idle (Int.le_refl 0)
    · exact .ite (fun _ => .idle (Int.le_refl 0)) fun _ => .idle (Int.le_refl 0)

/-! ### Shape ids and keywords -/

instance keyword_pays : Pays keyword 13 := by
  unfold keyword
  exact .le (by decide)

instance namespacePart_pays : Pays namespacePart 15 := by
  unfold namespacePart
  exact .le (by decide)

instance namespaceId_pays : Pays namespaceId 13 := by
  have : NeedsNext fun (_ : Unit) b => b.isAt .dot := needsNext_isAt (by decide)
  have : Settles (fun (_ : Unit) b => b.isAt .dot) fun _ => namespacePart := .of_pays (t := 15) (by decide)
  unfold namespaceId
  exact .le (by decide)

instance namespaceId_costs : Costs namespaceId 0 := by
  have : NeedsNext fun (_ : Unit) b => b.isAt .dot := needsNext_isAt (by decide)
  have : Settles (fun (_ : Unit) b => b.isAt .dot) fun _ => namespacePart := .of_pays (t := 15) (by decide)
  unfold namespaceId
  exact .of_expect (by decide) (by decide)

instance idMember_costs : Costs idMember 0 := by
  unfold idMember
  exact .of_guard (fun ends here => ends.hasNext_of_isAt here (by decide)) (by decide)

section
variable (allowMember : Bool)

instance shapeId_pays : Pays (shapeId allowMember) 11 := by
  dsimp only [shapeId]
  exact .le (by decide)

instance shapeId_costs : Costs (shapeId allowMember) 0 := by
  dsimp only [shapeId]
  exact .of_expect (by decide) (by decide)

end

instance absoluteShapeId_costs : Costs absoluteShapeId 0 := by
  unfold absoluteShapeId
  exact .le (by decide)

/-! ### Node values -/

instance objectKey_pays : Pays objectKey 13 := by
  unfold objectKey
  exact .le (by decide)

instance objectKey_costs : Costs objectKey 0 := by
  unfold objectKey
  exact .of_expectAny (by decide) (by decide)

instance soundly_pays (part : Parser Unit) {s : Int} [Steady part] [Pays part s] : Pays (soundly part) s := by
  unfold soundly
  exact .le (by omega)

theorem partsUntil_settles (closing : TokenKind) (part : Parser Unit) {s : Int} (gain : 0 ≤ s) [Steady part]
    [Pays part s] : Settles (beforePart closing) fun _ => soundly part := .of_pays gain

section
variable (value : Parser Unit) [Grows value] [Eats value] [Costs value 2]

instance entryOf_pays : Pays (entryOf value) 11 := by
  unfold entryOf
  exact .le (by decide)

instance objectEntry_pays : Pays (objectEntry value) 9 := by
  unfold objectEntry
  exact .le (by decide)

variable [Pays value 9]

instance arrayOf_pays : Pays (arrayOf value) 13 := by
  have := partsUntil_settles .rbracket value (s := 9) (by decide)
  unfold arrayOf partsUntil
  exact .le (by decide)

instance objectOf_pays : Pays (objectOf value) 13 := by
  have := partsUntil_settles .rbrace (objectEntry value) (s := 9) (by decide)
  unfold objectOf partsUntil
  exact .le (by decide)

instance objectOf_costs : Costs (objectOf value) 2 := by
  have := partsUntil_settles .rbrace (objectEntry value) (s := 9) (by decide)
  unfold objectOf partsUntil
  exact .le (by decide)

instance valueFrom_pays (first : TokenKind) : Pays (valueFrom value first) 11 := by
  unfold valueFrom
  split <;> exact .le (by decide)

instance valueBody_pays : Pays (valueBody value) 11 := by
  unfold valueBody
  infer_instance

instance valueBody_costs : Costs (valueBody value) 0 := by
  unfold valueBody
  exact .of_expectAny (by decide) (by decide)

end

/-- However deep values nest, each pays for the nodes around it. -/
theorem nodeValueWithin_accounts (n : Nat) : Costs (nodeValueWithin n) 2 ∧ Pays (nodeValueWithin n) 9 := by
  induction n with
  | zero =>
    unfold nodeValueWithin
    exact ⟨.le (by decide), .le (by decide)⟩
  | succ n ih =>
    obtain ⟨costs, pays⟩ := ih
    unfold nodeValueWithin
    exact ⟨.le (by decide), .le (by decide)⟩

instance nodeValueWithin_costs (n : Nat) : Costs (nodeValueWithin n) 2 := (nodeValueWithin_accounts n).1

instance nodeValue_costs : Costs nodeValue 2 := by
  unfold nodeValue
  exact .le (by decide)

instance entry_pays : Pays entry 11 := entryOf_pays nodeValue

instance nodeObject_costs : Costs nodeObject 2 := objectOf_costs nodeValue

/-! ### Traits -/

instance traitEntry_pays : Pays traitEntry 9 := by
  unfold traitEntry
  exact .le (by decide)

instance traitStructure_costs : Costs traitStructure 2 := by
  have := partsUntil_settles .rparen traitEntry (s := 9) (by decide)
  unfold traitStructure partsUntil
  exact .le (by decide)

instance traitValue_costs : Costs traitValue 4 := by
  unfold traitValue
  exact .le (by decide)

instance soundly_costs (part : Parser Unit) {k : Int} [Steady part] [Costs part k] : Costs (soundly part) k := by
  unfold soundly
  exact .le (by omega)

instance traitBody_pays : Pays traitBody 9 := by
  unfold traitBody
  exact .le (by decide)

instance traitStatement_pays : Pays traitStatement 13 := by
  have : Costs (do if ← isAt .lparen then traitBody) 0 :=
    .of_guard (fun ends here => ends.hasNext_of_isAt here (by decide)) (by decide)
  unfold traitStatement
  exact .le (by decide)

instance traitStatement_costs : Costs traitStatement 0 := by
  have : Costs (do if ← isAt .lparen then traitBody) 0 :=
    .of_guard (fun ends here => ends.hasNext_of_isAt here (by decide)) (by decide)
  unfold traitStatement
  exact .of_expect (by decide) (by decide)

instance nextTrait_pays : Pays nextTrait 13 := by
  unfold nextTrait
  exact .le (by decide)

theorem traitStatements_costsFrom (ends : b.EndsWithEof) (here : b.isAt .atSign = true) :
    CostsFrom (-11) traitStatements b := by
  have : NeedsNext fun (_ : Unit) b => b.isAt .atSign := needsNext_isAt (by decide)
  have : Settles (fun (_ : Unit) b => b.isAt .atSign) fun _ => nextTrait := .of_pays (t := 13) (by decide)
  have token := ends.hasNext_of_isAt here (by decide)
  refine .ask (.ite (fun _ => ?_) fun other => absurd here other)
  have rounds : ∀ {b₁}, b.Leads b₁ → b₁.cursor = b.cursor →
      CostsFrom (-13) (repeatWhile (·.isAt .atSign) nextTrait) b₁ := fun {b₁} leads same => by
    have ends₁ := leads.endsWithEof ends
    have here₁ : b₁.isAt .atSign = true := by rw [Buffer.isAt, leads.current_of_same same]; exact here
    exact .foldWhile_of_round ends₁ here₁ (Pays.pays ends₁ ((leads.hasNext_of_same same).trans token))
  have run := CostsFrom.scope .traitStatements .statement ends (.inr ⟨token, by decide⟩) rounds
  exact (run.bind (d := 0) (fun _ => .idle (Int.le_refl 0)) (Int.le_refl 0)).mono (by decide)

instance traitStatements_costs : Costs traitStatements 0 where
  least := Int.le_refl 0
  costs {b} ends := by
    by_cases here : b.isAt .atSign = true
    · exact (traitStatements_costsFrom ends here).mono (by decide)
    · rw [CostsFrom, traitStatements_of_not here]
      exact CostsFrom.idle (p := pure none) (Int.le_refl 0)

theorem memberTraits_costsFrom (ends : b.EndsWithEof) (here : b.isAt .atSign = true) :
    CostsFrom (-11) memberTraits b := by
  have whole := (traitStatements_costsFrom ends here).bind (d := 0)
    (f := fun _ => (do return decide ((← errorCount) = b.errors) : Parser Bool)) (fun _ => .idle (Int.le_refl 0))
    (Int.le_refl 0)
  exact CostsFrom.ask (g := Buffer.errors) (f := fun before => do
    let _ ← traitStatements
    return decide ((← errorCount) = before)) (whole.mono (by decide))

instance memberTraits_costs : Costs memberTraits 0 := by
  unfold memberTraits
  exact .le (by decide)

section
variable {α : Type} (body : Parser (Option α)) (docs : Docs)

instance behindTraits_costs {k : Int} [Costs body k] : Costs (behindTraits body docs) k := by
  have := Costs.least body
  unfold behindTraits
  exact .le (by omega)

/-- Where traits come they pay, and otherwise the body does. -/
instance behindTraits_pays {s : Int} [Steady body] [Costs body 0] [Pays body s] :
    Pays (behindTraits body docs) (min 11 s) where
  most := by omega
  pays ends token := by
    refine .bind_idle token (by omega) fun {_ b₁} leads same => ?_
    have ends₁ := leads.endsWithEof ends
    have token₁ := (leads.hasNext_of_same same).trans token
    by_cases here : b₁.isAt .atSign = true
    · have whole := (memberTraits_costsFrom ends₁ here).bind (f := fun sound => if sound = true then body else pure none)
        (d := 0) (fun run => Costs.costs ((Steady.ok run).endsWithEof ends₁)) (Int.le_refl 0)
      exact whole.mono (by omega)
    · have found := memberTraits_of_not here
      rw [CostsFrom, run_bind_of_ok found, if_pos rfl]
      exact (Pays.pays ends₁ token₁).mono (by omega)

end

/-! ### Heads of shapes -/

instance typedName_pays : Pays typedName 13 := by
  unfold typedName
  exact .le (by decide)

instance mixin_costs : Costs mixin 0 := by
  unfold mixin
  exact .le (by decide)

instance mixinList_costs : Costs mixinList 0 := by
  have : Settles (fun closed _ => !closed) fun _ => mixin := ⟨fun ends _ => Costs.costs ends⟩
  unfold mixinList
  exact .le (by decide)

instance mixins_costs : Costs mixins 0 := by
  unfold mixins
  exact .of_guard (fun ends here => ends.hasNext_of_keyword here) (by decide)

instance structureResource_costs : Costs structureResource 0 := by
  unfold structureResource
  exact .of_guard (fun ends here => ends.hasNext_of_keyword here) (by decide)

instance headUpToBrace_pays : Pays headUpToBrace 13 := by
  unfold headUpToBrace
  exact .le (by decide)

/-! ### Members -/

instance memberName_costs : Costs memberName 2 := by
  unfold memberName
  exact .le (by decide)

instance memberName_pays : Pays memberName 13 := by
  unfold memberName
  exact .le (by decide)

instance valueAssignment_costs : Costs valueAssignment 2 := by
  unfold valueAssignment
  exact .le (by decide)

instance afterMember_costs (takesValue : Bool) : Costs (afterMember takesValue) 4 := by
  unfold afterMember
  exact .le (by decide)

instance memberKind_idle (slot : MemberSlot) (name : String) (elided : Bool) : Idle (memberKind slot name elided) := by
  unfold memberKind
  split <;> infer_instance

instance upcomingName_idle (elided : Bool) : Idle (upcomingName elided) := by
  unfold upcomingName
  infer_instance

instance memberTarget_pays (elided : Bool) : Pays (memberTarget elided) 13 := by
  unfold memberTarget
  exact .le (by decide)

instance memberBody_pays (slot : MemberSlot) : Pays (memberBody slot) 7 := by
  unfold memberBody
  exact .le (by decide)

instance memberBody_costs (slot : MemberSlot) : Costs (memberBody slot) 0 := by
  unfold memberBody
  exact .of_expectAny (by decide) (by decide)

instance shapeMember_pays (slot : MemberSlot) (docs : Docs) : Pays (shapeMember slot docs) 5 := by
  unfold shapeMember
  exact .le (by decide)

instance shapeMember_costs (slot : MemberSlot) (docs : Docs) : Costs (shapeMember slot docs) 2 := by
  unfold shapeMember
  exact .le (by decide)

/-! ### Shapes with members -/

instance enumMember_pays (docs : Docs) : Pays (enumMember docs) 9 := by
  have body : Pays (do
      expect .identifier
      memberName
      afterMember true) 9 := .le (by decide)
  have free : Costs (do
      expect .identifier
      memberName
      afterMember true) 0 := .of_expect (by decide) (s := 9) (by decide)
  unfold enumMember
  exact .le (by decide)

instance blockMember_pays (slot : MemberSlot) (docs : Docs) : Pays (blockMember slot docs) 5 := by
  unfold blockMember
  exact .le (by decide)

instance beforeBrace_settles (kind : TreeKind) (member : Docs → Parser Docs) [∀ docs, Steady (member docs)]
    [∀ docs, Pays (member docs) 5] : Settles (fun (_ : Docs) b => beforeBrace b) (memberIn kind member) := by
  have (docs : Docs) : Pays (memberIn kind member docs) 3 := by
    unfold memberIn
    exact .le (by decide)
  exact .of_pays (t := 3) (by decide)

instance membersOf_costs (kind : TreeKind) (member : Docs → Parser Docs) [∀ docs, Steady (member docs)]
    [∀ docs, Pays (member docs) 5] : Costs (membersOf kind member) 0 := by
  unfold membersOf
  exact .le (by decide)

instance braced_costs (kind : TreeKind) (contents : Parser Unit) {k : Int} [Steady contents] [Costs contents k] :
    Costs (braced kind contents) (k + 2) := by
  unfold braced
  exact .le (by omega)

instance enumStatement_pays : Pays enumStatement 11 := by
  have (docs : Docs) : Pays (enumMember docs) 5 := .le (by decide)
  unfold enumStatement
  exact .le (by decide)

theorem hasNext_of_beforeBrace (before : beforeBrace b = true) : b.hasNext = true :=
  (Bool.and_eq_true_iff.mp before).1

instance listStatement_pays : Pays listStatement 11 := by
  have : Costs (do
      if ← ask beforeBrace then
        within .listMember do let _ ← shapeMember .inList none
      whitespace) 0 := .of_guard (s := 3) (fun _ => hasNext_of_beforeBrace) (by decide)
  unfold listStatement
  exact .le (by decide)

instance secondMember_costs (first : Member) : Costs (secondMember first) 2 := by
  unfold secondMember
  exact .le (by decide)

instance keyAndValue_pays : Pays keyAndValue 3 := by
  have (first : Option Member) : Costs (match first with
      | some first => secondMember first
      | none => return) 2 := by cases first <;> exact .le (by decide)
  unfold keyAndValue
  exact .le (by decide)

instance mapMembers_costs : Costs mapMembers 0 := by
  unfold mapMembers
  exact .of_guard (s := 3) (fun _ => hasNext_of_beforeBrace) (by decide)

instance mapStatement_pays : Pays mapStatement 11 := by
  unfold mapStatement
  exact .le (by decide)

instance memberBlock_costs (container wrapper : TreeKind) (slot : MemberSlot) :
    Costs (memberBlock container wrapper slot) 2 := by
  unfold memberBlock
  exact .le (by decide)

instance structureRest_costs : Costs structureRest 2 := by
  unfold structureRest
  exact .le (by decide)

instance structureStatement_pays : Pays structureStatement 11 := by
  unfold structureStatement
  exact .le (by decide)

instance unionStatement_pays : Pays unionStatement 11 := by
  unfold unionStatement
  exact .le (by decide)

/-! ### Operations -/

instance inlineStructure_costs : Costs inlineStructure 4 := by
  unfold inlineStructure
  exact .le (by decide)

instance operationTarget_pays : Pays operationTarget 9 := by
  unfold operationTarget
  exact .le (by decide)

instance operationErrors_pays : Pays operationErrors 13 := by
  have round : Pays operationError 11 := by
    unfold operationError
    exact .le (by decide)
  have : Settles (fun (_ : Unit) b => b.hasNext && !b.isAt .rbracket) fun _ => operationError :=
    .of_pays (t := 11) (by decide)
  unfold operationErrors
  exact .le (by decide)

instance propertyOfName_pays (name : String) : Pays (propertyOfName name) 7 := by
  unfold propertyOfName propertyOf?
  split
  · next found =>
    split at found <;> cases found <;> exact .le (by decide)
  · exact .le (by decide)

instance operationProperty_pays (seen : List String) : Pays (operationProperty seen) 7 := by
  unfold operationProperty
  exact .le (by decide)

instance operationStatement_pays : Pays operationStatement 11 := by
  have : Settles (fun (_ : List String) b => beforeBrace b) operationProperty := .of_pays (t := 7) (by decide)
  unfold operationStatement
  exact .le (by decide)

/-! ### Shape bodies -/

instance simpleStatement_pays : Pays simpleStatement 13 := by
  unfold simpleStatement
  exact .le (by decide)

instance entityStatement_pays : Pays entityStatement 11 := by
  unfold entityStatement
  exact .le (by decide)

instance statement_pays (form : ShapeForm) : Pays form.statement 11 := by
  cases form <;> (unfold ShapeForm.statement; exact .le (by decide))

instance shapeOfType_pays (type : String) : Pays (shapeOfType type) 9 := by
  unfold shapeOfType
  split <;> exact .le (by decide)

instance shapeBody_pays : Pays shapeBody 9 := by
  unfold shapeBody
  infer_instance

/-! ### Statements -/

section
variable (docs : Docs) (traits : Option NodeId)

instance traitBlock_costs : Costs traitBlock 0 := by
  unfold traitBlock
  exact .le (by decide)

instance applyStatement_pays : Pays applyStatement 9 := by
  unfold applyStatement
  exact .le (by decide)

instance withTraits_idle (f : NodeId → Parser Unit) [∀ d, Idle (f d)] : Idle (withTraits traits f) := by
  unfold withTraits
  split <;> infer_instance

instance misplaced_costs (problem : Problem) : Costs (misplaced traits problem) 1 := by
  unfold misplaced withTraits
  split <;> exact .le (by decide)

theorem cursor_of_misplaced {problem : Problem} {b' : Buffer} (run : (misplaced traits problem).run b = .ok () b') :
    b'.cursor = b.cursor := by
  cases traits with
  | none =>
    cases run
    rfl
  | some d =>
    obtain ⟨_, _, _, _, b₁, t', -, -, added, -, rfl⟩ := encloseInError_edit run
    exact (addError_ok added).2.2.1

/-- An error around traits does not take the token to come. -/
instance misplaced_pays (problem : Problem) {q : Unit → Parser Docs} {s : Int} [∀ a, Pays (q a) s] :
    Pays (misplaced traits problem >>= q) (s - 1) := by
  have most : s ≤ 15 := Pays.most (q ())
  refine ⟨by omega, fun {b} ends token => ?_⟩
  have first := Costs.costs (p := misplaced traits problem) ends
  have whole := first.bind_unfailing (f := q) (d := -s) fun run => by
    have leads := Steady.ok run
    exact Pays.pays (leads.endsWithEof ends) ((leads.hasNext_of_same (cursor_of_misplaced traits run)).trans token)
  exact whole.mono (by omega)

instance shapeStatement_pays : Pays (shapeStatement docs traits) 5 := by
  unfold shapeStatement
  exact .le (by decide)

instance endStatement_costs : Costs endStatement 1 := by
  unfold endStatement
  exact .le (by decide)

theorem detachedTraits_costsFrom (ends : b.EndsWithEof) (here : b.isAt .atSign = true) :
    CostsFrom (-11) detachedTraits b := by
  have whole := (traitStatements_costsFrom ends here).bind (d := 0) (f := fun traits => do
    withTraits traits detach
    return traits) (fun _ => .idle (Int.le_refl 0)) (Int.le_refl 0)
  exact whole.mono (by decide)

theorem detachedTraits_of_not (other : ¬b.isAt .atSign = true) : detachedTraits.run b = .ok none b :=
  run_bind_of_ok (traitStatements_of_not other)

/-- A round pays for its own nodes: traits by their tokens, and a statement by its first one. -/
theorem shapeOrApplyStatement_costsFrom (ends : b.EndsWithEof) (token : b.hasNext = true) :
    CostsFrom 0 (shapeOrApplyStatement docs) b := by
  have apply (traits : Option NodeId) : Pays (do
      misplaced traits .traitsOnApply
      within .shapeOrApplyStatement applyStatement
      endStatement) 5 := .le (by decide)
  have shape (traits : Option NodeId) : Pays (do
      within .shapeOrApplyStatement (shapeStatement docs traits)
      endStatement) 2 := .le (by decide)
  have nothing : Pays (do
      within .shapeOrApplyStatement do fail (.noStatement (← current))
      return (none : Docs)) 13 := .le (by decide)
  have missing : Costs (do
      within .shapeOrApplyStatement do fail (.noStatement (← current))
      return (none : Docs)) 2 := .le (by decide)
  unfold shapeOrApplyStatement
  refine .ask (.ite (fun _ => Costs.costs ends) fun _ => ?_)
  by_cases here : b.isAt .atSign = true
  · refine ((detachedTraits_costsFrom ends here).bind (d := 2) (fun {traits b₁} run => ?_) (by decide)).mono (by decide)
    have ends₁ := (Steady.ok run).endsWithEof ends
    have dangling : Costs (do
        misplaced traits .danglingTraits
        return (none : Docs)) 2 := .le (by decide)
    refine .ask (.ite (fun keyword => ?_) fun _ => .ask (.ite (fun name => ?_) fun _ => .ite (fun _ => ?_) fun _ => ?_))
    · exact ((apply traits).pays ends₁ (ends₁.hasNext_of_keyword keyword)).mono (by decide)
    · exact ((shape traits).pays ends₁ (ends₁.hasNext_of_isAt name (by decide))).mono (by decide)
    · exact dangling.costs ends₁
    · exact missing.costs ends₁
  · rw [CostsFrom, run_bind_of_ok (detachedTraits_of_not here)]
    refine CostsFrom.ask (.ite (fun _ => ?_) fun _ => .ask (.ite (fun _ => ?_) fun _ => ?_))
    · exact ((apply none).pays ends token).mono (by decide)
    · exact ((shape none).pays ends token).mono (by decide)
    · exact (nothing.pays ends token).mono (by decide)

instance shapeStatements_costs : Costs (shapeStatements docs) 2 := by
  have : Settles (fun (_ : Docs) b => b.hasNext) shapeOrApplyStatement :=
    ⟨fun ends token => shapeOrApplyStatement_costsFrom _ ends token⟩
  unfold shapeStatements
  exact .le (by decide)

/-! ### Sections -/

instance setting_costs (sign : TokenKind) : Costs (setting sign) 2 := by
  unfold setting
  exact .le (by decide)

instance controlSection_costs : Costs controlSection 2 := by
  have statement : Pays controlStatement 11 := by
    unfold controlStatement
    exact .le (by decide)
  have : NeedsNext fun (_ : Unit) b => b.isAt .dollar := needsNext_isAt (by decide)
  have : Settles (fun (_ : Unit) b => b.isAt .dollar) fun _ => controlStatement := .of_pays (t := 11) (by decide)
  unfold controlSection
  exact .le (by decide)

instance metadataSection_costs : Costs metadataSection 2 := by
  have statement : Pays metadataStatement 9 := by
    unfold metadataStatement
    exact .le (by decide)
  have : NeedsNext fun (_ : Unit) b => b.isAtKeyword "metadata" := needsNext_isAtKeyword "metadata"
  have : Settles (fun (_ : Unit) b => b.isAtKeyword "metadata") fun _ => metadataStatement :=
    .of_pays (t := 9) (by decide)
  unfold metadataSection
  exact .le (by decide)

instance declaration_pays (kind : TreeKind) (declared : Parser Unit) [Steady declared] [Costs declared 0] :
    Pays (declaration kind declared) 11 := by
  unfold declaration
  exact .le (by decide)

instance useSection_costs : Costs (useSection docs) 2 := by
  have : NeedsNext fun (_ : Docs) b => b.isAtKeyword "use" := needsNext_isAtKeyword "use"
  have : Settles (fun (_ : Docs) b => b.isAtKeyword "use") fun _ => useStatement := by
    unfold useStatement
    exact .of_pays (t := 11) (by decide)
  unfold useSection
  exact .le (by decide)

instance namespaceOrError_costs : Costs namespaceOrError 1 := by
  have missing : Costs (do
      reportMissing (.noNamespace (← current))
      return (none : Docs)) 1 := .le (by decide)
  unfold namespaceOrError namespaceStatement
  exact .of_guard (s := 11) (fun ends here => ends.hasNext_of_keyword here) (by decide)

end

instance shapeSection_costs : Costs shapeSection 7 := by
  unfold shapeSection
  exact .le (by decide)

instance leftOver_costs : Costs leftOver 1 := by
  unfold leftOver
  exact .le (by decide)

/-- A whole file costs no more than what is open at its end. -/
instance model_costs : Costs model 12 := by
  unfold model
  exact .le (by decide)

namespace Finished

variable {filename text : String} {maxDepth : Nat} {b : Buffer} {F L : Forest}

end Finished

end SmithyIdl.Grammar
