import SmithyIdl.Proofs.Grammar.Members
import SmithyIdl.Proofs.Lockstep.Values

/-! # Members in lockstep

Members hand documentation comments on by the names of their nodes. Two runs hand on nodes that belong together. -/

set_option synthInstance.maxSize 20000

namespace SmithyIdl.Grammar

open SmithyIdl.Parser

variable {M : Matching}

/-! ### Heads of shapes -/

instance typedName_lockstep : Lockstep M Eq typedName typedName := by
  unfold typedName
  infer_instance

instance mixin_lockstep : Lockstep M Eq mixin mixin := by
  unfold mixin
  infer_instance

instance mixinList_lockstep : Lockstep M Eq mixinList mixinList := by
  unfold mixinList
  infer_instance

instance mixins_lockstep : Lockstep M Eq mixins mixins := by
  unfold mixins
  infer_instance

instance structureResource_lockstep : Lockstep M Eq structureResource structureResource := by
  unfold structureResource
  infer_instance

/-! ### Members -/

instance memberName_lockstep : Lockstep M Eq memberName memberName := by
  unfold memberName
  infer_instance

instance valueAssignment_lockstep : Lockstep M (Option.Rel M.docs) valueAssignment valueAssignment := by
  unfold valueAssignment
  infer_instance

instance startsAssignment_shown : M.Shown startsAssignment := .lookPast 0 (· = .space) .equal

instance afterMember_lockstep (takesValue : Bool) :
    Lockstep M (Option.Rel M.docs) (afterMember takesValue) (afterMember takesValue) := by
  have assigned : Lockstep M (Option.Rel M.docs) (do return (← scope .valueAssignment valueAssignment).value.join)
      (do return (← scope .valueAssignment valueAssignment).value.join) :=
    .scope_value .valueAssignment .statement valueAssignment_lockstep fun _ _ h => .pure (join_rel h)
  unfold afterMember
  infer_instance

theorem kindsOf_plain {slot : MemberSlot} {name : String} {problem : Problem}
    (h : slot.kindsOf name = .error problem) : problem.isPlain = true := by
  unfold MemberSlot.kindsOf at h
  repeat' split at h
  all_goals cases h
  all_goals rfl

theorem kindsOf_ofRule {slot : MemberSlot} {name : String} {explicit implicit : TreeKind}
    (h : slot.kindsOf name = .ok (explicit, implicit)) : explicit.OfRule ∧ implicit.OfRule := by
  unfold MemberSlot.kindsOf at h
  repeat' split at h
  all_goals cases h
  all_goals exact ⟨inferInstance, inferInstance⟩

theorem memberKind_lockstep (slot : MemberSlot) (name : String) (elided : Bool) :
    Lockstep M (fun kind kind' => kind' = kind ∧ kind.OfRule) (memberKind slot name elided)
      (memberKind slot name elided) := by
  unfold memberKind
  split
  · next explicit implicit found =>
    obtain ⟨_, _⟩ := kindsOf_ofRule found
    exact .pure ⟨rfl, inferInstance⟩
  · next problem refused => exact .fail (.plain (kindsOf_plain refused))

instance upcomingName_lockstep (elided : Bool) : Lockstep M Eq (upcomingName elided) (upcomingName elided) := by
  unfold upcomingName
  refine .bind (.peek _) fun t t' h => ?_
  rw [M.kind_eq h]
  exact .of_ite (fun identifier => .pure (M.name_eq h identifier).symm) fun _ => .fail (.noMemberName h)

instance memberTarget_lockstep (elided : Bool) : Lockstep M Eq (memberTarget elided) (memberTarget elided) := by
  unfold memberTarget
  infer_instance

/-! ### Behind traits -/

theorem adoptDocs_lockstep {docs docs' : Docs} (h : Option.Rel M.docs docs docs') :
    Lockstep M Eq (adoptDocs docs) (adoptDocs docs') := by
  cases h with
  | none => exact .pure rfl
  | some h => exact .adoptDocs h

theorem behindTraits_lockstep {α : Type} {R : α → α → Prop} {body : Parser (Option α)} [Steady body]
    (inside : Lockstep M (Option.Rel R) body body) {docs docs' : Docs} (h : Option.Rel M.docs docs docs') :
    Lockstep M (Option.Rel R) (behindTraits body docs) (behindTraits body docs') := by
  unfold behindTraits
  refine .bind (adoptDocs_lockstep h) fun _ _ _ => Lockstep.seq fun sound => ?_
  exact .of_ite (fun _ => inside) fun _ => .pure .none

/-- The same name, and documentation comments that belong together. -/
structure Member.Both (docs : NodeId → NodeId → Prop) (m m' : Member) : Prop where
  name : m'.name = m.name
  docs : Option.Rel docs m.docs m'.docs

theorem Member.Both.bind_docs {docs : NodeId → NodeId → Prop} {m m' : Option Member}
    (h : Option.Rel (Member.Both docs) m m') : Option.Rel docs (m.bind Member.docs) (m'.bind Member.docs) := by
  cases h with
  | none => exact .none
  | some both => exact both.docs

instance memberBody_lockstep (slot : MemberSlot) :
    Lockstep M (Option.Rel (Member.Both M.docs)) (memberBody slot) (memberBody slot) := by
  unfold memberBody
  refine Lockstep.seq fun first => Lockstep.seq fun name => .bind (memberKind_lockstep slot name _) ?_
  rintro kind _ ⟨rfl, _⟩
  exact Lockstep.seq fun _ => .bind (afterMember_lockstep _) fun _ _ h => .pure (.some ⟨rfl, h⟩)

theorem shapeMember_lockstep (slot : MemberSlot) {docs docs' : Docs} (h : Option.Rel M.docs docs docs') :
    Lockstep M (Option.Rel (Member.Both M.docs)) (shapeMember slot docs) (shapeMember slot docs') := by
  unfold shapeMember
  exact .scope_value .shapeMember .statement (behindTraits_lockstep (memberBody_lockstep slot) h) fun _ _ h =>
    .pure (join_rel h)

theorem enumMember_lockstep {docs docs' : Docs} (h : Option.Rel M.docs docs docs') :
    Lockstep M (Option.Rel M.docs) (enumMember docs) (enumMember docs') := by
  unfold enumMember
  exact behindTraits_lockstep inferInstance h

instance beforeBrace_shown : M.Shown beforeBrace :=
  inferInstanceAs (M.Shown fun b => b.hasNext && !b.isAt .rbrace)

/-- The documentation comments behind a member go into the next round. -/
theorem membersOf_lockstep (kind : TreeKind) [kind.OfRule] {member : Docs → Parser Docs} [∀ docs, Steady (member docs)]
    (inside : ∀ docs docs', Option.Rel M.docs docs docs' → Lockstep M (Option.Rel M.docs) (member docs) (member docs')) :
    Lockstep M Eq (membersOf kind member) (membersOf kind member) := by
  have round (docs docs' : Docs) (h : Option.Rel M.docs docs docs') :
      Lockstep M (Option.Rel M.docs) (memberIn kind member docs) (memberIn kind member docs') := by
    unfold memberIn
    exact .scope_value kind .statement (inside docs docs' h) fun _ _ h => .pure (join_rel h)
  have rounds : Lockstep M (Option.Rel M.docs) (foldWhile (fun _ b => beforeBrace b) (memberIn kind member) none)
      (foldWhile (fun _ b => beforeBrace b) (memberIn kind member) none) :=
    .foldWhile .none (fun _ _ _ _ _ h => beforeBrace_shown.same h) round
  unfold membersOf
  exact .bind rounds fun _ _ _ => .pure rfl

/-! ### Shapes with members -/

instance headUpToBrace_lockstep : Lockstep M Eq headUpToBrace headUpToBrace := by
  unfold headUpToBrace
  infer_instance

instance braced_lockstep (kind : TreeKind) [kind.OfRule] (contents : Parser Unit) [Steady contents] [Lockstep M Eq contents contents] :
    Lockstep M Eq (braced kind contents) (braced kind contents) := by
  unfold braced
  infer_instance

instance enumMembers_lockstep : Lockstep M Eq (membersOf .enumMember enumMember) (membersOf .enumMember enumMember) :=
  membersOf_lockstep _ fun _ _ => enumMember_lockstep

instance enumStatement_lockstep : Lockstep M Eq enumStatement enumStatement := by
  unfold enumStatement
  infer_instance

instance listStatement_lockstep : Lockstep M Eq listStatement listStatement := by
  have member : Lockstep M Eq (do let _ ← shapeMember .inList none) (do let _ ← shapeMember .inList none) :=
    .bind (shapeMember_lockstep .inList .none) fun _ _ _ => .pure rfl
  unfold listStatement
  infer_instance

theorem secondMember_lockstep {first first' : Member} (h : first.Both M.docs first') :
    Lockstep M Eq (secondMember first) (secondMember first') := by
  unfold secondMember
  rw [h.name]
  refine Lockstep.seq fun more => .of_ite (fun _ => .of_ite (fun _ => .fail_plain rfl) fun _ => ?_) fun _ => .pure rfl
  exact .bind (shapeMember_lockstep .mapSecond h.docs) fun _ _ _ => .pure rfl

instance keyAndValue_lockstep : Lockstep M Eq keyAndValue keyAndValue := by
  have : ∀ first : Option Member, Steady (match first with
      | some first => secondMember first
      | none => return) := fun first => by cases first <;> infer_instance
  unfold keyAndValue
  refine .bind (shapeMember_lockstep .mapFirst .none) fun _ _ h => ?_
  cases h with
  | none => exact .pure rfl
  | some both => exact secondMember_lockstep both

instance mapMembers_lockstep : Lockstep M Eq mapMembers mapMembers := by
  unfold mapMembers
  infer_instance

instance mapStatement_lockstep : Lockstep M Eq mapStatement mapStatement := by
  unfold mapStatement
  infer_instance

theorem blockMember_lockstep (slot : MemberSlot) {docs docs' : Docs} (h : Option.Rel M.docs docs docs') :
    Lockstep M (Option.Rel M.docs) (blockMember slot docs) (blockMember slot docs') := by
  unfold blockMember
  exact .bind (shapeMember_lockstep slot h) fun _ _ h => .pure (Member.Both.bind_docs h)

instance blockMembers_lockstep (kind : TreeKind) [kind.OfRule] (slot : MemberSlot) :
    Lockstep M Eq (membersOf kind (blockMember slot)) (membersOf kind (blockMember slot)) :=
  membersOf_lockstep kind fun _ _ => blockMember_lockstep slot

instance memberBlock_lockstep (container wrapper : TreeKind) [container.OfRule] [wrapper.OfRule] (slot : MemberSlot) :
    Lockstep M Eq (memberBlock container wrapper slot) (memberBlock container wrapper slot) := by
  unfold memberBlock
  infer_instance

instance structureRest_lockstep : Lockstep M Eq structureRest structureRest := by
  unfold structureRest
  infer_instance

instance structureStatement_lockstep : Lockstep M Eq structureStatement structureStatement := by
  unfold structureStatement
  infer_instance

instance unionStatement_lockstep : Lockstep M Eq unionStatement unionStatement := by
  unfold unionStatement
  infer_instance

end SmithyIdl.Grammar
