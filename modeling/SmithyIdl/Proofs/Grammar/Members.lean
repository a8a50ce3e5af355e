import SmithyIdl.Grammar.Aggregate
import SmithyIdl.Proofs.Buffer.Docs
import SmithyIdl.Proofs.Grammar.Values

/-! # Growth of members

Members adopt the documentation comments that were read before them and hand on those behind them. -/

set_option synthInstance.maxSize 2000

namespace SmithyIdl.Grammar

open SmithyIdl.Parser

variable {b : Buffer}

/-! ### Documentation comments -/

instance docComments_hands : Hands id docComments where
  hands {b v} shown := by
    unfold docComments
    refine .after (run_ask _ b) (.ite (fun _ => ?_) fun _ => .pure shown.like.docs_none)
    refine ((scope_grows shown).mono (fun _ _ _ h => h) fun _ h => h.elim).bind fun r b' h => .pure ?_
    obtain ⟨F, h⟩ := h
    exact ⟨_, h, rfl, rfl, .last trivial⟩

instance whitespaceUpToDocs_hands : Hands id whitespaceUpToDocs := by
  unfold whitespaceUpToDocs
  infer_instance

instance breakLine_hands : Hands id breakLine := by
  unfold breakLine
  infer_instance

instance endLine_hands : Hands id endLine := by
  unfold endLine
  refine Hands.seq fun _ => Hands.seq fun token => ?_
  split <;> infer_instance

/-! ### Heads of shapes -/

instance typedName_grows : Grows typedName := by
  unfold typedName
  infer_instance

instance typedName_eats : Eats typedName := by
  unfold typedName
  infer_instance

instance mixin_grows : Grows mixin := by
  unfold mixin
  infer_instance

/-- A mixin begins with an identifier, so the repetition need not ask for a token. -/
instance mixin_advances : Advances (fun closed _ => !closed) fun _ => mixin where
  advances ends _ := by
    unfold mixin
    refine .bind_left ?_
    unfold shapeId
    exact .of_expect ends (by decide) inferInstance

instance mixinList_grows : Grows mixinList := by
  unfold mixinList
  infer_instance

instance mixins_grows : Grows mixins := by
  unfold mixins
  infer_instance

instance structureResource_grows : Grows structureResource := by
  unfold structureResource
  infer_instance

/-! ### Members -/

instance memberName_grows : Grows memberName := by
  unfold memberName
  infer_instance

instance memberName_eats : Eats memberName := by
  unfold memberName
  infer_instance

instance valueAssignment_grows : Grows valueAssignment := by
  unfold valueAssignment
  infer_instance

instance valueAssignment_hands : Hands id valueAssignment := by
  unfold valueAssignment
  infer_instance

instance afterMember_grows (takesValue : Bool) : Grows (afterMember takesValue) := by
  unfold afterMember
  infer_instance

instance afterMember_hands (takesValue : Bool) : Hands id (afterMember takesValue) := by
  unfold afterMember
  infer_instance

instance memberKind_grows (slot : MemberSlot) (name : String) (elided : Bool) :
    Grows (memberKind slot name elided) := by
  unfold memberKind
  split <;> infer_instance

instance upcomingName_grows (elided : Bool) : Grows (upcomingName elided) := by
  unfold upcomingName
  infer_instance

instance memberTarget_grows (elided : Bool) : Grows (memberTarget elided) := by
  unfold memberTarget
  infer_instance

instance memberTarget_eats (elided : Bool) : Eats (memberTarget elided) := by
  unfold memberTarget
  infer_instance

instance memberBody_grows (slot : MemberSlot) : Grows (memberBody slot) := by
  unfold memberBody
  infer_instance

instance memberBody_eats (slot : MemberSlot) : Eats (memberBody slot) := by
  unfold memberBody
  infer_instance

/-! ### Behind traits -/

theorem traitStatements_eatsFrom (ends : b.EndsWithEof) (here : b.isAt .atSign = true) :
    traitStatements.EatsFrom b := by
  have next := ends.hasNext_of_isAt here (by decide)
  unfold traitStatements
  refine .bind_right fun found b' hask _ => ?_
  cases hask
  refine .ite (fun _ => .bind_left (.scope ends next fun b₁ leads same => ?_)) fun no => absurd here no
  have here₁ : b₁.isAt .atSign = true := by rw [Buffer.isAt, leads.current_of_same same]; exact here
  exact .foldWhile here₁ (Eats.eats (leads.endsWithEof ends) ((leads.hasNext_of_same same).trans next))

theorem traitStatements_of_not (other : ¬b.isAt .atSign = true) : traitStatements.run b = .ok none b := by
  unfold traitStatements
  refine (run_bind_of_ok (run_ask _ b)).trans ?_
  rw [run_ite, if_neg other]
  rfl

theorem memberTraits_of_not (other : ¬b.isAt .atSign = true) : memberTraits.run b = .ok true b := by
  have sound : memberTraits.run b = .ok (decide (b.errors = b.errors)) b := by
    unfold memberTraits
    exact (run_bind_of_ok (run_ask _ b)).trans (run_bind_of_ok (traitStatements_of_not other))
  rw [sound, decide_eq_true rfl]

/-- Traits with an error in them are traits. -/
theorem cursor_lt_of_memberTraits {b' : Buffer} (ends : b.EndsWithEof) (h : memberTraits.run b = .ok false b') :
    b.cursor < b'.cursor := by
  by_cases here : b.isAt .atSign = true
  · unfold memberTraits at h
    refine EatsFrom.bind_right (fun _ _ hask _ => ?_) h
    cases hask
    exact .bind_left (traitStatements_eatsFrom ends here)
  · rw [memberTraits_of_not here] at h
    cases h

section
variable {α : Type} (body : Parser (Option α)) (docs : Docs)

instance behindTraits_steady [Steady body] : Steady (behindTraits body docs) := by
  unfold behindTraits
  infer_instance

instance behindTraits_eats [Steady body] [Eats body] : Eats (behindTraits body docs) where
  eats ends next := by
    unfold behindTraits
    refine .bind_right fun _ b₁ adopted same => .bind_right fun sound b₂ traits same' => ?_
    have leads := Steady.ok adopted
    have leads' := Steady.ok traits
    cases sound with
    | false =>
      have lt := cursor_lt_of_memberTraits (leads.endsWithEof ends) traits
      exact absurd same' (Nat.ne_of_gt lt)
    | true =>
      rw [if_pos rfl]
      refine Eats.eats (leads'.endsWithEof (leads.endsWithEof ends)) ?_
      exact (leads'.hasNext_of_same same').trans ((leads.hasNext_of_same same).trans next)

theorem behindTraits_adopts {g : Option α → Docs} [Hands g body] (nothing : g none = none) :
    Adopts g (behindTraits body) := fun _ _ _ shown awaits empty => by
  unfold behindTraits
  refine (adoptDocs_ensures shown awaits empty).bind fun _ b₁ h₁ => ?_
  obtain ⟨w, shown₁, names, loose, -⟩ := h₁
  have rest : Hands g (do if ← memberTraits then body else return none) := by
    have := Hands.pure nothing
    infer_instance
  exact (rest.hands shown₁).mono (fun _ _ _ h => h.trans names loose) fun _ h => h.trans names loose

end

/-! ### Members of shapes -/

instance memberBody_hands (slot : MemberSlot) : Hands (fun m => m.bind Member.docs) (memberBody slot) := by
  unfold memberBody
  have behind (name : String) : Hands (fun m => m.bind Member.docs)
      (do return some ⟨name, ← afterMember slot.takesValue⟩) :=
    .map (g := fun docs => some (Member.mk name docs)) (afterMember_hands slot.takesValue)
  infer_instance

instance shapeMember_steady (slot : MemberSlot) (docs : Docs) : Steady (shapeMember slot docs) := by
  unfold shapeMember
  infer_instance

instance shapeMember_eats (slot : MemberSlot) (docs : Docs) : Eats (shapeMember slot docs) := by
  unfold shapeMember
  infer_instance

theorem shapeMember_passes (slot : MemberSlot) : Passes (fun m => m.bind Member.docs) (shapeMember slot) :=
  fun _ _ _ shown awaits => by
    unfold shapeMember
    have inside := scope_passes .shapeMember .statement 
      (behindTraits_adopts (g := fun m => m.bind Member.docs) (memberBody slot) rfl)
    refine (inside shown awaits).bind fun c b' h => .pure ?_
    obtain ⟨node, value⟩ := c
    cases value with
    | none => exact h
    | some m => exact h

instance shapeMember_reshapes (slot : MemberSlot) : Reshapes (shapeMember slot none) where
  reshapes shown := (shapeMember_passes slot shown .none).mono (fun _ _ _ h => h.like) fun _ h => h

instance enumMember_steady (docs : Docs) : Steady (enumMember docs) := by
  unfold enumMember
  infer_instance

instance enumMember_eats (docs : Docs) : Eats (enumMember docs) := by
  unfold enumMember
  infer_instance

theorem enumMember_adopts : Adopts id enumMember := by
  unfold enumMember
  exact behindTraits_adopts _ rfl

instance beforeBrace_needsNext {σ : Type} : NeedsNext fun (_ : σ) b => beforeBrace b :=
  ⟨fun _ go => (Bool.and_eq_true_iff.mp go).1⟩

section
variable (kind : TreeKind) {member : Docs → Parser Docs}

theorem memberIn_passes (adopts : Adopts id member) : Passes id (memberIn kind member) :=
  fun _ _ _ shown awaits => by
    unfold memberIn
    exact (scope_passes kind .statement adopts shown awaits).bind fun _ _ h => .pure h

variable [∀ docs, Steady (member docs)]

instance memberIn_steady (docs : Docs) : Steady (memberIn kind member docs) := by
  unfold memberIn
  infer_instance

instance memberIn_eats (docs : Docs) [∀ docs, Eats (member docs)] : Eats (memberIn kind member docs) := by
  unfold memberIn
  infer_instance

instance membersOf_steady : Steady (membersOf kind member) := by
  unfold membersOf
  infer_instance

/-- What comes of documentation comments behind the last member does not matter to what follows. -/
theorem membersOf_reshapes [∀ docs, Eats (member docs)] (adopts : Adopts id member) :
    Reshapes (membersOf kind member) where
  reshapes shown := by
    unfold membersOf
    exact (foldWhile_passes (memberIn_passes kind adopts) shown .none).bind fun _ _ h => .pure h.like

end

/-! ### Shapes with members -/

instance headUpToBrace_grows : Grows headUpToBrace := by
  unfold headUpToBrace
  infer_instance

instance headUpToBrace_eats : Eats headUpToBrace := by
  unfold headUpToBrace
  infer_instance

instance braced_reshapes (kind : TreeKind) (contents : Parser Unit) [Reshapes contents] :
    Reshapes (braced kind contents) := by
  unfold braced
  infer_instance

instance enumMembers_reshapes : Reshapes (membersOf .enumMember enumMember) := membersOf_reshapes _ enumMember_adopts

instance enumStatement_reshapes : Reshapes enumStatement := by
  unfold enumStatement
  infer_instance

instance enumStatement_eats : Eats enumStatement := by
  unfold enumStatement
  infer_instance

instance listStatement_reshapes : Reshapes listStatement := by
  unfold listStatement
  infer_instance

instance listStatement_eats : Eats listStatement := by
  unfold listStatement
  infer_instance

instance secondMember_steady (first : Member) : Steady (secondMember first) := by
  unfold secondMember
  infer_instance

/-- The documentation comments behind the first member are those of the second one. -/
theorem secondMember_ensures {v : View} {first : Member} (shown : b.Shows v) (awaits : v.Awaits first.docs) :
    (secondMember first).Ensures b (fun _ b' => b'.ShowsLike v) fun b' => b'.ShowsLike v := by
  unfold secondMember
  refine .after (run_ask _ b) (.ite (fun _ => .ite (fun _ => .fail shown.like) fun _ => ?_) fun _ => .pure shown.like)
  exact (shapeMember_passes .mapSecond shown awaits).bind fun _ _ h => .pure h.like

instance keyAndValue_reshapes : Reshapes keyAndValue where
  toSteady := by
    unfold keyAndValue
    refine .seq fun m => ?_
    cases m <;> infer_instance
  reshapes shown := by
    unfold keyAndValue
    refine (shapeMember_passes .mapFirst shown .none).bind fun m b' h => ?_
    cases m with
    | none => exact .pure h.like
    | some first =>
      obtain ⟨w, shown', names, loose, awaits⟩ := h
      exact (secondMember_ensures shown' awaits).mono (fun _ _ _ h => h.trans names loose) fun _ h =>
        h.trans names loose

instance mapMembers_reshapes : Reshapes mapMembers := by
  unfold mapMembers
  infer_instance

instance mapStatement_reshapes : Reshapes mapStatement := by
  unfold mapStatement
  infer_instance

instance mapStatement_eats : Eats mapStatement := by
  unfold mapStatement
  infer_instance

instance blockMember_steady (slot : MemberSlot) (docs : Docs) : Steady (blockMember slot docs) := by
  unfold blockMember
  infer_instance

instance blockMember_eats (slot : MemberSlot) (docs : Docs) : Eats (blockMember slot docs) := by
  unfold blockMember
  infer_instance

theorem blockMember_passes (slot : MemberSlot) : Passes id (blockMember slot) := fun _ _ _ shown awaits => by
  unfold blockMember
  exact (shapeMember_passes slot shown awaits).bind fun _ _ h => .pure h

instance blockMembers_reshapes (kind : TreeKind) (slot : MemberSlot) : Reshapes (membersOf kind (blockMember slot)) :=
  membersOf_reshapes _ (blockMember_passes slot).adopts

instance memberBlock_reshapes (container wrapper : TreeKind) (slot : MemberSlot) :
    Reshapes (memberBlock container wrapper slot) := by
  unfold memberBlock
  infer_instance

instance structureRest_reshapes : Reshapes structureRest := by
  unfold structureRest
  infer_instance

instance structureStatement_reshapes : Reshapes structureStatement := by
  unfold structureStatement
  infer_instance

instance structureStatement_eats : Eats structureStatement := by
  unfold structureStatement
  infer_instance

instance unionStatement_reshapes : Reshapes unionStatement := by
  unfold unionStatement
  infer_instance

instance unionStatement_eats : Eats unionStatement := by
  unfold unionStatement
  infer_instance

end SmithyIdl.Grammar
