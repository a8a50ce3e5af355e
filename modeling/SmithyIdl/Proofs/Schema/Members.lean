import SmithyIdl.Proofs.Schema.Docs

/-! # Rows of members

Members write the rows of their productions; documentation comments stand in the node of a member or of a line break
until the next member adopts them. -/

set_option synthInstance.maxSize 2000

namespace SmithyIdl.Grammar

open SmithyIdl.Parser SmithyIdl.Schema

variable {b b' : Buffer} {v : View} {ts : Array Token} {kept : Prop} {r : Rows}

/-- Any view will do. -/
abbrev anywhere : View → Prop := fun _ => True

/-! ### Line ends -/

theorem docComments_writes : docComments.WritesDocs anywhere View.Pends id b space := by
  unfold docComments
  refine .ask (.ite (fun here => ?_) fun _ => (WritesDocs.pure rfl fun _ => .none).of_subset fun _ => Or.inl)
  have node {b₁ : Buffer} (same : b₁.peek = b.peek) :
      (shiftKinds TokenKind.isTrivia).Writes False b₁ (production .whitespace) := by
    refine .shiftKinds_plus rfl (fun _ => trivia_among) ?_ rfl
    rw [Buffer.current_of_peek same, of_decide_eq_true here]
    rfl
  refine ⟨.bind (.scope (by decide) fun _ _ same => (node same).guards) fun _ _ _ => .pure _, fun d b' run => ?_, fun _ => ?_⟩
  · obtain ⟨c, b₁, closed, done⟩ := bind_eq_ok.mp run
    cases done
    rintro d ⟨⟩
    exact ⟨_, (scope_ok closed).1⟩
  · refine (YieldsFrom.scope (Q := fun _ _ _ => True) fun _ _ same =>
      (node same).rows.mono fun _ _ _ _ _ hu => ⟨hu, trivial⟩).bind fun _ _ _ _ _ _ _ h => .pure ⟨?_, ?_⟩
    · obtain ⟨_, _, _, -, -, -, -, -, rfl, -⟩ := h
      exact .inr rfl
    · obtain ⟨_, _, x, rfl, -, -, rfl, names, -⟩ := h
      obtain ⟨F, last⟩ := View.exists_leave names
      rintro d ⟨⟩
      exact .inl ⟨F, _, last⟩

theorem whitespaceUpToDocs_writes :
    whitespaceUpToDocs.WritesDocs anywhere View.Pends id b (sequence [space, space]) := by
  dsimp only [whitespaceUpToDocs]
  refine .ask (.ite (fun here => ?_) fun _ => docComments_writes.last.of_subset (mem_optional_mul _ _))
  refine (WritesDocs.cons (.within (by decide) fun b₁ _ same => ?_) fun _ _ _ => docComments_writes.last).of_subset
    (mem_optional_mul_of_mul _ _)
  refine .shiftKinds_plus rfl (fun k hk => trivia_among (Bool.or_eq_true_iff.mpr (.inl hk))) ?_ rfl
  rwa [Buffer.current_of_peek same]

theorem whitespace_among {k : TokenKind} (h : k.isWhitespace = true) : [Symbol.token k] ∈ whitespaceToken.matches' := by
  rw [whitespaceToken, mem_anyOf]
  revert h
  cases k <;> simp [TokenKind.isWhitespace, mem_tok]

theorem breakLine_writes (here : b.current.kind ∈ [TokenKind.newline, .comment, .docComment]) :
    breakLine.WritesDocs anywhere View.Held id b (one .lineBreak) := by
  have inside (b₁ : Buffer) (_ : b.Leads b₁) (same : b₁.peek = b.peek) : (do
      consumeAny
      shiftKinds TokenKind.isWhitespace
      docComments : Parser Docs).WritesDocs anywhere View.Pends id b₁ (production .lineBreak) := by
    have starts : consumeAny.Writes False b₁ (anyOf [tok .newline, tok .comment, tok .docComment]) := by
      rw [← Buffer.current_of_peek same] at here
      refine (Writes.consumeAny_at rfl fun error => ?_).of_subset fun u hu => ?_
      · rw [error] at here
        simp at here
      · obtain rfl := mem_tok.mp hu
        refine mem_anyOf.mpr ?_
        simpa [mem_tok] using here
    exact .cons starts fun _ _ _ => .cons (.shiftKinds rfl fun _ => whitespace_among) fun _ _ _ => docComments_writes.last
  unfold breakLine
  exact .map (WritesDocs.scope (by decide) (fun _ => trivial)
    (fun pends label open' => View.Pends.leave_held pends label (by decide) open') inside)

theorem lineEnd_steady (token : Token) : Steady (match token.kind with
    | .newline | .comment | .docComment => breakLine
    | .eof => pure none
    | _ => if token.start.column = 1 then pure none else fail (.noLineBreak token) : Parser Docs) := by
  split <;> infer_instance

theorem endLine_writes : endLine.WritesDocs anywhere View.Held id b lineEnd := by
  have := lineEnd_steady
  unfold endLine
  refine .cons spaces_writes fun _ b₁ _ => .last (.ask ?_)
  have ended : (pure none : Parser Docs).WritesDocs anywhere View.Held id b₁ (Schema.optional (one .lineBreak)) :=
    (WritesDocs.pure rfl fun _ => .none).of_subset fun _ => Or.inl
  have broken (here : b₁.current.kind ∈ [TokenKind.newline, .comment, .docComment]) :
      breakLine.WritesDocs anywhere View.Held id b₁ (Schema.optional (one .lineBreak)) :=
    (breakLine_writes here).of_subset fun _ => Or.inr
  split
  · next here => exact broken (by rw [here]; decide)
  · next here => exact broken (by rw [here]; decide)
  · next here => exact broken (by rw [here]; decide)
  · exact ended
  · exact .ite (fun _ => ended) fun _ => .fail

/-! ### Heads of shapes -/

theorem typedName_writes (here : b.current.kind = .identifier) : typedName.Writes kept b head := by
  unfold typedName
  exact .cons (keyword_writes here) fun _ _ _ => .cons someSpaces_writes fun _ _ _ => .cons (.consume (by decide))
    fun _ _ _ => spaces_writes.last

theorem mixin_writes : mixin.Writes kept b (sequence [Schema.shapeId, space]) := by
  unfold mixin
  exact .cons (shapeId_writes false) fun _ _ _ => .cons whitespace_writes fun _ _ _ => .expectAny_bind fun _ => .pure _

theorem current_of_mixin {closed : Bool} (run : mixin.run b = .ok closed b') (closes : closed = true) :
    b'.current.kind = .rbracket := by
  unfold mixin at run
  obtain ⟨_, b₁, -, run⟩ := bind_eq_ok.mp run
  obtain ⟨_, b₂, -, run⟩ := bind_eq_ok.mp run
  obtain ⟨k, b₃, found, done⟩ := bind_eq_ok.mp run
  obtain ⟨rfl, rfl, -⟩ := expectAny_ok found
  cases done
  exact of_decide_eq_true closes

/-- Mixins end where the closing bracket comes. -/
theorem mixinList_writes :
    mixinList.Writes kept b (sequence [plus (sequence [Schema.shapeId, space]), tok .rbracket]) := by
  unfold mixinList
  refine .cons (.foldWhile_plus (fun _ _ _ _ => mixin_writes) fun _ => rfl) fun closed b₁ run => .last ?_
  obtain ⟨here, ended⟩ := foldWhile_ok (I := fun closed b => closed = true → b.current.kind = .rbracket)
    (fun _ _ _ _ _ _ run closes => current_of_mixin run closes) (fun closed => absurd closed Bool.false_ne_true) run
  exact .consumeAny_at (here (by simpa using ended)) (by decide)

theorem identifier_of_keyword {name : String} (here : b.isAtKeyword name = true) : b.current.kind = .identifier :=
  of_decide_eq_true (Bool.and_eq_true_iff.mp here).1

theorem mixins_writes : mixins.Writes kept b Schema.mixins := by
  unfold mixins
  refine .ask (.whenever fun here => .within (by decide) fun b₁ _ same => .cons (keyword_writes ?_) fun _ _ _ =>
    .cons whitespace_writes fun _ _ _ => .last (.cons (.consume (by decide)) fun _ _ _ =>
      .cons whitespace_writes fun _ _ _ => mixinList_writes))
  rw [Buffer.current_of_peek same]
  exact identifier_of_keyword here

theorem structureResource_writes :
    structureResource.Writes kept b (Schema.optional (sequence [one .structureResource, blanks])) := by
  unfold structureResource
  refine .ask (.whenever fun here => .cons (.within (by decide) fun b₁ _ same => .cons (keyword_writes ?_)
    fun _ _ _ => .cons someSpaces_writes fun _ _ _ => (shapeId_writes false).last) fun _ _ _ => spaces_writes.last)
  rw [Buffer.current_of_peek same]
  exact identifier_of_keyword here

/-! ### Members -/

theorem memberName_writes (here : b.current.kind = .identifier) : memberName.Writes kept b (one .shapeMemberName) := by
  unfold memberName
  refine .within (by decide) fun _ _ same => .consumeAny_at ?_ (by decide)
  rwa [Buffer.current_of_peek same]

theorem valueAssignment_writes :
    valueAssignment.WritesDocs anywhere View.Held id b (production .valueAssignment) := by
  unfold valueAssignment
  refine .cons spaces_writes fun _ _ _ => .cons (.consume (by decide)) fun _ _ _ => .cons spaces_writes fun _ _ _ =>
    .cons nodeValue_writes fun _ _ _ => .cons spaces_writes fun _ b₁ _ => .ask (.ite (fun here => ?_) fun _ => ?_)
  · exact (WritesDocs.cons (.consumeAny_at (of_decide_eq_true here) (by decide)) fun _ _ _ =>
      endLine_writes.last).of_subset (mem_optional_mul_of_mul _ _)
  · exact endLine_writes.last.of_subset (mem_optional_mul _ _)

theorem afterMember_writes (takesValue : Bool) :
    (afterMember takesValue).WritesDocs anywhere View.Pends id b trailing := by
  unfold afterMember
  refine .ask (.ite (fun _ => ?_) fun _ => ?_)
  · have closed : (scope .valueAssignment valueAssignment).WritesDocs anywhere View.Held
        (fun c => c.value.bind id) b (one .valueAssignment) :=
      .scope (by decide) (fun _ => trivial) (fun held _ _ => View.AwaitsIn.leave_held held)
        fun _ _ _ => valueAssignment_writes
    exact (WritesDocs.map (closed.mono id fun held => held.pends)).of_subset fun _ => Or.inl
  · exact whitespaceUpToDocs_writes.of_subset fun _ => Or.inr

theorem kindsOf_ok {slot : MemberSlot} {name : String} {explicit implicit : TreeKind}
    (h : slot.kindsOf name = .ok (explicit, implicit)) :
    (explicit ∈ memberTargets ∧ production explicit = explicitMember) ∧
      implicit ∈ memberTargets ∧ production implicit = elidedMember := by
  unfold MemberSlot.kindsOf at h
  cases slot <;> (repeat' split at h) <;> cases h <;> exact ⟨⟨by decide, rfl⟩, by decide, rfl⟩

theorem memberKind_ok {slot : MemberSlot} {name : String} {elided : Bool} {kind : TreeKind}
    (run : (memberKind slot name elided).run b = .ok kind b') :
    b' = b ∧ kind ∈ memberTargets ∧ production kind = if elided then elidedMember else explicitMember := by
  unfold memberKind at run
  split at run
  · next explicit implicit found =>
    obtain ⟨first, second⟩ := kindsOf_ok found
    cases run
    cases elided
    · exact ⟨rfl, first⟩
    · exact ⟨rfl, second⟩
  · cases run

theorem memberTarget_writes (elided : Bool) (here : (b.peek (if elided then 1 else 0)).kind = .identifier)
    (dollar : elided = true → b.current.kind = .dollar) :
    (memberTarget elided).Writes kept b (if elided then elidedMember else explicitMember) := by
  unfold memberTarget
  cases elided with
  | true =>
    refine .cons (.consumeAny_at (dollar rfl) (by decide)) fun _ b₁ run => (memberName_writes ?_).last
    rw [Buffer.current, consumeAny_peek run]
    exact here
  | false =>
    exact .cons (memberName_writes here) fun _ _ _ => .cons spaces_writes fun _ _ _ => .cons (.consume (by decide))
      fun _ _ _ => .cons spaces_writes fun _ _ _ => (shapeId_writes false).last

instance upcomingName_looks (elided : Bool) : Looks (upcomingName elided) := by
  unfold upcomingName
  infer_instance

theorem upcomingName_ok {elided : Bool} {name : String} (run : (upcomingName elided).run b = .ok name b') :
    (b.peek (if elided then 1 else 0)).kind = .identifier := by
  unfold upcomingName at run
  obtain ⟨token, b₁, hask, run⟩ := bind_eq_ok.mp run
  cases hask
  by_cases here : (b.peek (if elided then 1 else 0)).kind = .identifier
  · exact here
  · rw [run_ite, if_neg here] at run
    cases run

instance memberKind_looks (slot : MemberSlot) (name : String) (elided : Bool) : Looks (memberKind slot name elided) := by
  unfold memberKind
  split <;> infer_instance

theorem memberBody_writes (slot : MemberSlot) :
    (memberBody slot).WritesDocs anywhere View.Pends (fun m => m.bind Member.docs) b
      (sequence [anyOf (memberTargets.map one), trailing]) := by
  unfold memberBody
  refine .look_bind fun first found => .look_bind fun name named => .look_bind fun kind hkind => ?_
  obtain ⟨-, rfl, -⟩ := expectAny_ok found
  obtain ⟨-, among, row⟩ := memberKind_ok hkind
  have ne : kind ≠ .shapeId ∧ kind ≠ .error := by
    constructor <;> rintro rfl <;> simp [memberTargets] at among
  have target : (within kind (memberTarget (b.current.kind = .dollar))).Writes False b (anyOf (memberTargets.map one)) := by
    refine (Writes.within ne fun b₁ _ same => ?_).of_subset fun u hu => mem_anyOf.mpr ⟨_, List.mem_map_of_mem among, hu⟩
    rw [row]
    refine memberTarget_writes _ ?_ fun dollar => ?_
    · rw [same]
      exact upcomingName_ok named
    · rw [Buffer.current_of_peek same]
      exact of_decide_eq_true dollar
  refine .cons target fun _ b₁ _ => .last (.map ?_)
  exact afterMember_writes slot.takesValue

/-! ### Behind traits -/

/-- Documentation comments are adopted before the traits are written. -/
theorem behindTraits_writes {α : Type} {body : Parser (Option α)} [Steady body] {docs : Option α → Docs}
    {held : View → Docs → Prop} (nothing : docs none = none) (writes : ∀ b, body.WritesDocs anywhere held docs b r)
    {given : Docs} (names : b.Names given) :
    (behindTraits body given).WritesDocs (·.Receives given) held docs b (traited r) := by
  unfold behindTraits
  refine .bind_of_yields (.adoptDocs names) (fun receives => (adoptDocs_yields receives).mono fun _ _ _ _ _ hu => hu.1)
    fun _ b₁ _ => ?_
  refine .bind_sound memberTraits_writes (fun b₂ => (writes b₂).last) (fun _ => .pure _) fun _ _ _ run => ?_
  cases run
  exact nothing ▸ .none

theorem shapeMember_writes (slot : MemberSlot) {given : Docs} (names : b.Names given) :
    (shapeMember slot given).WritesDocs (·.Held given) View.Held (fun m => m.bind Member.docs) b (one .shapeMember) := by
  have inside (b₁ : Buffer) (leads : b.Leads b₁) (_ : b₁.peek = b.peek) :
      (behindTraits (memberBody slot) given).WritesDocs (·.Receives given) View.Pends (fun m => m.bind Member.docs) b₁
        (production .shapeMember) :=
    behindTraits_writes rfl (fun _ => memberBody_writes slot) (names.leads leads)
  have closed : (scope .shapeMember (behindTraits (memberBody slot) given)).WritesDocs (·.Held given) View.Held
      (fun c => c.value.bind fun m => m.bind Member.docs) b (one .shapeMember) :=
    .scope (by decide) (fun held => View.AwaitsIn.receives held)
      (fun pends label open' => View.Pends.leave_held pends label (by decide) open') inside
  have same : (fun c : Closed (Option Member) => c.value.join.bind Member.docs) =
      fun c => c.value.bind fun m => m.bind Member.docs := by
    funext ⟨_, value⟩
    cases value <;> rfl
  unfold shapeMember
  exact .map (same ▸ closed)

theorem enumMember_writes {given : Docs} (names : b.Names given) :
    (enumMember given).WritesDocs (·.Receives given) View.Pends id b (production .enumMember) := by
  unfold enumMember
  refine behindTraits_writes rfl (fun b₁ => .look_bind fun _ found => ?_) names
  exact .cons (memberName_writes (expect_ok found).2) fun _ _ _ => (afterMember_writes true).last

theorem blockMember_writes (slot : MemberSlot) {given : Docs} (names : b.Names given) :
    (blockMember slot given).WritesDocs (·.Held given) View.Held id b (one .shapeMember) := by
  unfold blockMember
  exact .map (shapeMember_writes slot names)

section
variable {kind : TreeKind} {member : Docs → Parser Docs} [∀ docs, Steady (member docs)]

/-- What a member holds, its node holds when it is closed. -/
theorem memberIn_writes {held : View → Docs → Prop} (ne : kind ≠ .shapeId ∧ kind ≠ .error)
    (closes : ∀ {w d}, held w d → w.inner.label = .plain kind → w.outer ≠ [] → w.leave.Held d)
    (writes : ∀ b given, b.Names given →
      (member given).WritesDocs (·.Receives given) held id b (production kind)) {given : Docs} (names : b.Names given) :
    (memberIn kind member given).WritesDocs (·.Held given) View.Held id b (one kind) := by
  unfold memberIn
  exact .map (.scope ne (fun held => View.AwaitsIn.receives held) closes
    fun b₁ leads _ => writes b₁ given (names.leads leads))

theorem membersOf_writes (writes : ∀ b given, b.Names given →
    (memberIn kind member given).WritesDocs (·.Held given) View.Held id b (one kind)) :
    (membersOf kind member).Writes False b (one kind).star := by
  unfold membersOf
  have all : (foldWhile (fun _ b => beforeBrace b) (memberIn kind member) none).WritesDocs (·.Held none) View.Held id b
      (one kind).star := .foldWhile .none fun b₁ d names _ => writes b₁ d names
  exact .map (all.mono (fun _ => .none) id).writes

end

end SmithyIdl.Grammar
