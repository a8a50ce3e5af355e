import SmithyIdl.Proofs.Discipline.Values
import SmithyIdl.Proofs.Schema.Members

/-! # Lawful members

What a member has in it is said by its row: a name is among the targets just where the slot has it, also for a member
that failed behind its target. Lists, maps and operations take each of their parts at most once. -/

set_option synthInstance.maxSize 2000

namespace SmithyIdl.Grammar

open SmithyIdl.Parser

variable {b : Buffer} {v : View}

/-! ### Values of members -/

instance memberName_obeys : Obeys memberName := by
  unfold memberName
  infer_instance

instance memberKind_obeys (slot : MemberSlot) (name : String) (elided : Bool) : Obeys (memberKind slot name elided) := by
  unfold memberKind
  split <;> infer_instance

instance upcomingName_obeys (elided : Bool) : Obeys (upcomingName elided) := by
  unfold upcomingName
  infer_instance

instance memberTarget_obeys (elided : Bool) : Obeys (memberTarget elided) := by
  unfold memberTarget
  infer_instance

instance valueAssignment_obeys : Obeys valueAssignment := by
  unfold valueAssignment
  infer_instance

/-- A node of a kind is put, whatever becomes of it. -/
theorem scope_kinds {α : Type} {p : Parser α} [Obeys p] (kind : TreeKind) [TreeKind.Computed kind.isFree]
    (other : kind ≠ .whitespace) (h : b.Lawful v) :
    (scope kind p).PutsKinds b v (fun _ kinds => kinds = [kind]) fun _ => False := by
  refine (Obeys.scope_node kind .statement h).imp fun _ _ _ put => ?_
  obtain ⟨_, rfl⟩ := put
  exact Forest.solid_branch (by simpa using other)

theorem within_kinds {body : Parser Unit} [Obeys body] (kind : TreeKind) [TreeKind.Computed kind.isFree]
    (other : kind ≠ .whitespace) (h : b.Lawful v) :
    (within kind body).PutsKinds b v (fun _ kinds => kinds = [kind]) fun _ => False := by
  unfold within
  exact .map (scope_kinds kind other h)

theorem docComments_bland (h : b.Lawful v) : docComments.PutsKinds b v (fun _ kinds => kinds = []) fun _ => False := by
  unfold docComments
  exact .ask (.ite (fun _ => .map (scope_whitespace_bland h)) fun _ => .pure h rfl)

theorem whitespaceUpToDocs_bland (h : b.Lawful v) :
    whitespaceUpToDocs.PutsKinds b v (fun _ kinds => kinds = []) fun _ => False := by
  unfold whitespaceUpToDocs
  refine .ask (.ite (fun _ => ?_) fun _ => docComments_bland h)
  refine (within_whitespace_bland h).bind (fun _ _ _ kinds _ lawful none => ?_) fun _ never => never
  subst none
  exact docComments_bland lawful

/-- Behind a member comes a value only where it may have one. -/
theorem afterMember_kinds (takesValue : Bool) (h : b.Lawful v) :
    (afterMember takesValue).PutsKinds b v
      (fun _ kinds => kinds = [] ∨ takesValue = true ∧ kinds = [.valueAssignment]) fun _ => False := by
  unfold afterMember
  refine .ask (.ite (fun both => .map ?_) fun _ => ?_)
  · exact (scope_kinds .valueAssignment nofun h).mono
      (fun _ _ same => .inr ⟨(Bool.and_eq_true_iff.mp both).1, same⟩) fun _ never => never
  · exact (whitespaceUpToDocs_bland h).imp fun _ _ none => .inl none

/-! ### Members -/

/-- The kinds of nodes for a member of a name in a slot. -/
def MemberSlot.Names (slot : MemberSlot) (name : String) (kind : TreeKind) : Prop :=
  ∃ explicit elided, slot.kindsOf name = .ok (explicit, elided) ∧ (kind = explicit ∨ kind = elided)

theorem MemberSlot.Names.among {slot : MemberSlot} {name : String} {kind : TreeKind} (h : slot.Names name kind) :
    kind ∈ Schema.memberTargets := by
  obtain ⟨explicit, elided, found, rfl | rfl⟩ := h
  · exact (kindsOf_ok found).1.1
  · exact (kindsOf_ok found).2.1

theorem free_of_memberTargets : ∀ kind ∈ Schema.memberTargets,
    kind.isFree = true ∧ kind.isUnruled = true ∧ kind ≠ .whitespace := by decide

/-- What stands in a member. The target is of a kind that the slot has for the name, also where the member failed. -/
structure MemberRow (slot : MemberSlot) (read : Option Member) (row : List TreeKind) : Prop where
  value : .valueAssignment ∈ row → slot.takesValue = true
  target : ∀ kind ∈ targets row, ∃ name, slot.Names name kind ∧ ∀ m ∈ read, m.name = name
  named : ∀ m ∈ read, ∃ kind ∈ row, slot.Names m.name kind
  ruled : ∀ kind ∈ row, kind.isUnruled = true ∨ kind ∈ [.traitStatements, .valueAssignment]

namespace MemberRow

variable {slot : MemberSlot} {read : Option Member} {row : List TreeKind}

theorem nil : MemberRow slot none [] := ⟨nofun, nofun, nofun, nofun⟩

/-- Trees that say nothing of the member. -/
theorem append (h : MemberRow slot read row) (beside : List TreeKind)
    (other : ∀ kind ∈ beside, kind ≠ .valueAssignment ∧ kind ∉ Schema.memberTargets ∧
      (kind.isUnruled = true ∨ kind = .traitStatements)) :
    MemberRow slot read (row ++ beside) ∧ MemberRow slot read (beside ++ row) := by
  have none : targets beside = [] := List.filter_eq_nil_iff.mpr fun kind among => by simp [(other kind among).2.1]
  have value : .valueAssignment ∉ beside := fun among => (other _ among).1 rfl
  have ruled : ∀ kind ∈ beside, kind.isUnruled = true ∨ kind ∈ [.traitStatements, .valueAssignment] := fun kind among =>
    (other kind among).2.2.imp id fun same => by simp [same]
  constructor
  · refine ⟨fun among => ?_, ?_, fun m hm => ?_, ?_⟩
    · exact h.value ((List.mem_append.mp among).resolve_right value)
    · rw [targets_append, none, List.append_nil]
      exact h.target
    · obtain ⟨kind, among, names⟩ := h.named m hm
      exact ⟨kind, List.mem_append_left _ among, names⟩
    · exact List.forall_mem_append.mpr ⟨h.ruled, ruled⟩
  · refine ⟨fun among => ?_, ?_, fun m hm => ?_, ?_⟩
    · exact h.value ((List.mem_append.mp among).resolve_left value)
    · rw [targets_append, none]
      exact h.target
    · obtain ⟨kind, among, names⟩ := h.named m hm
      exact ⟨kind, List.mem_append_right _ among, names⟩
    · exact List.forall_mem_append.mpr ⟨ruled, h.ruled⟩

/-- The target of a member, and a value where the slot has one. -/
theorem of_target {m : Member} {kind : TreeKind} {behind : List TreeKind} (names : slot.Names m.name kind)
    (value : behind = [] ∨ slot.takesValue = true ∧ behind = [.valueAssignment]) :
    MemberRow slot (some m) (kind :: behind) where
  value among := by
    rcases value with rfl | ⟨takes, -⟩
    · have same := List.mem_singleton.mp among
      exact absurd (same ▸ names.among) (by decide)
    · exact takes
  target := by
    have here : targets [kind] = [kind] := List.filter_eq_self.mpr fun _ among =>
      decide_eq_true (List.mem_singleton.mp among ▸ names.among)
    have none : targets behind = [] := by
      rcases value with rfl | ⟨-, rfl⟩ <;> rfl
    rw [← List.singleton_append, targets_append, here, none, List.append_nil, List.forall_mem_singleton]
    exact ⟨m.name, names, fun _ hm => Option.some.inj hm ▸ rfl⟩
  named _ hm := by
    cases hm
    exact ⟨kind, List.mem_cons_self, names⟩
  ruled := by
    refine List.forall_mem_cons.mpr ⟨.inl (free_of_memberTargets kind names.among).2.1, ?_⟩
    rcases value with rfl | ⟨-, rfl⟩ <;> simp

end MemberRow

theorem memberKind_names {b' : Buffer} {slot : MemberSlot} {name : String} {elided : Bool} {kind : TreeKind}
    (run : (memberKind slot name elided).run b = .ok kind b') : slot.Names name kind := by
  unfold memberKind at run
  split at run
  · next explicit implicit found =>
    cases run
    refine ⟨explicit, implicit, found, ?_⟩
    cases elided
    · exact .inl rfl
    · exact .inr rfl
  · cases run

/-- A member that fails has no target yet. -/
theorem memberBody_kinds (slot : MemberSlot) (h : b.Lawful v) :
    (memberBody slot).PutsKinds b v (MemberRow slot) (MemberRow slot none) := by
  unfold memberBody
  refine .looks h (fun _ _ => .looks h (fun name _ => .looks h (fun kind run => ?_) .nil) .nil) .nil
  have names := memberKind_names run
  obtain ⟨free, -, other⟩ := free_of_memberTargets kind names.among
  have : TreeKind.Computed kind.isFree := ⟨free⟩
  refine (within_kinds kind other h).bind (fun _ _ _ kinds _ lawful same => .map ?_)
    fun _ never => never.elim
  subst same
  exact (afterMember_kinds slot.takesValue lawful).imp fun _ _ value => .of_target names value

/-! ### Behind traits -/

theorem memberTraits_kinds (h : b.Lawful v) :
    memberTraits.PutsKinds b v (fun _ kinds => kinds = [] ∨ kinds = [.traitStatements]) fun _ => False := by
  unfold memberTraits
  refine .ask (PutsKinds.bind (Q := fun _ kinds => kinds = [] ∨ kinds = [.traitStatements]) (E := fun _ => False)
    (Puts.imp (traitStatements_puts h) fun _ _ _ run => run.solid_eq)
    (fun _ _ _ kinds _ lawful run => .ask (.pure lawful ?_)) fun _ never => never)
  rwa [List.append_nil]

/-- Documentation comments, traits, and what they stand before. -/
theorem behindTraits_kinds {α : Type} {body : Parser (Option α)} [Steady body] {docs : Docs}
    {Q : Option α → List TreeKind → Prop}
    (inside : ∀ {b v}, b.Lawful v → body.PutsKinds b v Q (Q none)) (empty : Q none [])
    (traits : ∀ r kinds, Q r kinds → Q r (.traitStatements :: kinds)) (h : b.Lawful v) (awaits : v.Awaits docs)
    (new : v.inner.children = .nil) : (behindTraits body docs).PutsKinds b v Q (Q none) := by
  unfold behindTraits
  refine (adoptDocs_puts (E := fun _ => False) h awaits new).bind (fun _ b₁ w kinds _ lawful none => ?_)
    fun _ never => never.elim
  subst none
  refine (memberTraits_kinds lawful).bind (fun sound _ _ kinds _ lawful run => .ite (fun _ => ?_) fun _ => .pure lawful ?_)
    fun _ never => never.elim
  · refine (inside lawful).mono (fun r behind hQ => ?_) fun behind hQ => ?_
    · rcases run with rfl | rfl
      · exact hQ
      · exact traits r behind hQ
    · rcases run with rfl | rfl
      · exact hQ
      · exact traits none behind hQ
  · rcases run with rfl | rfl
    · exact empty
    · exact traits none [] empty

/-- A node with traits in it. -/
theorem traited_scope {α : Type} {body : Parser (Option α)} [Steady body] {docs : Docs} {kind : TreeKind}
    (free : kind.isFree = true) {Q : Option α → List TreeKind → Prop}
    (inside : ∀ {b v}, b.Lawful v → body.PutsKinds b v Q (Q none)) (empty : Q none [])
    (traits : ∀ r kinds, Q r kinds → Q r (.traitStatements :: kinds))
    (report : ∀ kinds, Q none kinds → Q none (kinds ++ [.error]))
    (fits : ∀ (r : Option α) (F : Forest), Q r F.solid → F.Fits kind) (h : b.Lawful v) (awaits : v.Awaits docs) :
    (scope kind (behindTraits body docs)).Puts b v
      (fun c _ G => ∃ F, G = .branch c.node (.plain kind) F .nil ∧ Q c.value.join F.solid) fun _ _ => False := by
  have kept (r : Option (Option α)) (b' : Buffer) (F : Forest)
      (h : Kept (fun r _ F => Q r F.solid) (fun _ F => Q none F.solid) r b' F) : Q r.join F.solid := by
    cases r with
    | some r => exact h
    | none =>
      obtain ⟨b₀, F', R, rfl, before, reported⟩ := h
      rw [Forest.solid_append, reported.solid]
      exact report _ before
  refine (Puts.scope .statement h (fun b₁ _ _ lawful => ⟨empty, ?_⟩) fun r b' F h' =>
    (fits _ F (kept r b' F h')).lawfulNode free).imp fun c _ _ ⟨F, b₁, same, _, h'⟩ => ⟨F, same, kept c.value b₁ F h'⟩
  exact behindTraits_kinds inside empty traits lawful (awaits.enter _ _) rfl

/-! ### Members of shapes -/

/-- Members have traits and values in them. -/
theorem fits_member {kind : TreeKind} (here : kind = .enumMember ∨ kind = .shapeMember) {F : Forest}
    (ruled : ∀ sort ∈ F.solid, sort.isUnruled = true ∨ sort ∈ [.traitStatements, .valueAssignment]) : F.Fits kind := by
  have none {sort : TreeKind} (other : sort.isUnruled = false ∧ sort ∉ [TreeKind.traitStatements, .valueAssignment]) :
      sort ∉ F.solid := fun among =>
    (ruled sort among).elim (fun free => Bool.noConfusion (other.1.symm.trans free)) other.2
  have inside : F.inside .shapeMember = [] := Forest.inside_eq_nil nofun (none (by decide))
  refine ⟨fun _ => here, ?_, ?_, ?_, ?_, fun _ => ?_⟩
  · simp [inside]
  · rcases here with rfl | rfl <;> nofun
  · rcases here with rfl | rfl <;> nofun
  · rcases here with rfl | rfl <;> nofun
  · rcases here with rfl | rfl <;> simp

/-- A member and nothing else. -/
def IsMember (slot : MemberSlot) (read : Option Member) (F : Forest) : Prop :=
  F.solid = [.shapeMember] ∧ ∃ row, F.inside .shapeMember = [row] ∧ MemberRow slot read row

theorem shapeMember_puts (slot : MemberSlot) {docs : Docs} (h : b.Lawful v) (awaits : v.Awaits docs) :
    (shapeMember slot docs).Puts b v (fun m _ F => IsMember slot m F) fun _ _ => False := by
  unfold shapeMember
  refine .map ((traited_scope rfl (fun h => memberBody_kinds slot h) .nil (fun r kinds row => ?_) (fun kinds row => ?_)
    (fun r F row => fits_member (.inr rfl) row.ruled) h awaits).imp fun c _ _ put => ?_)
  · exact (row.append [.traitStatements] (by simp [Schema.memberTargets])).2
  · exact (row.append [.error] (by simp [Schema.memberTargets])).1
  · obtain ⟨F, rfl, row⟩ := put
    exact ⟨Forest.solid_branch (by simp), _, Forest.inside_branch, row⟩

/-- A member in a node that only stands around it. -/
theorem fits_wrapper {slot : MemberSlot} {read : Option Member} {kind : TreeKind} {F : Forest}
    (among : kind ∈ [.structureMember, .unionMember, .listMember])
    (value : slot.takesValue = true → kind = .structureMember) (h : IsMember slot read F) : F.Fits kind := by
  obtain ⟨solid, row, inside, member⟩ := h
  have ruled : F.ruled = [.shapeMember] := by rw [Forest.ruled, solid]; rfl
  refine ⟨?_, ?_, ?_, ?_, ?_, ?_⟩
  · simp [ruled]
  · rw [inside, List.forall_mem_singleton]
    exact fun has => value (member.value has)
  · rintro rfl
    exact absurd among (by decide)
  · rintro rfl
    exact absurd among (by decide)
  · rintro rfl
    exact absurd among (by decide)
  · simp [ruled]

section
variable {kind : TreeKind} {member : Docs → Parser Docs}

theorem memberIn_puts (node : ∀ {b v docs}, b.Lawful v → v.Awaits docs → (scope kind (member docs)).Puts b v
      (fun c _ G => ∃ F, G = .branch c.node (.plain kind) F .nil) fun _ _ => False)
    (unruled : kind.isUnruled = true) {docs : Docs} (h : b.Lawful v) (awaits : v.Awaits docs) :
    (memberIn kind member docs).Puts b v (fun _ _ => Forest.Ordinary) fun _ _ => False := by
  unfold memberIn
  exact .map ((node h awaits).imp fun _ _ _ ⟨_, same⟩ => same ▸ Forest.ordinary_branch unruled)

/-- Each member takes the documentation comments that the one before it left. -/
theorem membersOf_obeys [∀ docs, Steady (member docs)] [∀ docs, Eats (member docs)] (adopts : Adopts id member)
    (node : ∀ {b v docs}, b.Lawful v → v.Awaits docs → (scope kind (member docs)).Puts b v
      (fun c _ G => ∃ F, G = .branch c.node (.plain kind) F .nil) fun _ _ => False)
    (unruled : kind.isUnruled = true) : Obeys (membersOf kind member) where
  obeys {b v} h := by
    unfold membersOf
    exact .map (.foldWhile_handing (fun lawful awaits => (Puts.awaiting lawful awaits (memberIn_passes kind adopts)
      (memberIn_puts node unruled lawful awaits)).mono (fun _ _ _ h' => h') fun _ ⟨_, _, _, _, never⟩ => never.elim) h .none)

end

theorem blockMember_puts (slot : MemberSlot) {docs : Docs} (h : b.Lawful v) (awaits : v.Awaits docs) :
    (blockMember slot docs).Puts b v (fun _ _ F => ∃ m, IsMember slot m F) fun _ _ => False := by
  unfold blockMember
  exact .map ((shapeMember_puts slot h awaits).imp fun m _ _ row => ⟨m, row⟩)

theorem blockMember_node {kind : TreeKind} (free : kind.isFree = true) {slot : MemberSlot}
    (among : kind ∈ [.structureMember, .unionMember, .listMember])
    (value : slot.takesValue = true → kind = .structureMember) {docs : Docs} (h : b.Lawful v) (awaits : v.Awaits docs) :
    (scope kind (blockMember slot docs)).Puts b v (fun c _ G => ∃ F, G = .branch c.node (.plain kind) F .nil)
      fun _ _ => False :=
  Fills.scope_of free .statement h fun _ _ lawful => (blockMember_puts slot lawful (awaits.enter _ _)).imp
    fun _ _ _ ⟨_, row⟩ => fits_wrapper among value row

instance structureMembers_obeys : Obeys (membersOf .structureMember (blockMember .inStructure)) :=
  membersOf_obeys (blockMember_passes .inStructure).adopts (blockMember_node rfl (by decide) fun _ => rfl) rfl

instance unionMembers_obeys : Obeys (membersOf .unionMember (blockMember .inUnion)) :=
  membersOf_obeys (blockMember_passes .inUnion).adopts (blockMember_node rfl (by decide) (by decide)) rfl

/-- What stands in a member of an enumeration. -/
theorem enumMember_node {docs : Docs} (h : b.Lawful v) (awaits : v.Awaits docs) :
    (scope .enumMember (enumMember docs)).Puts b v (fun c _ G => ∃ F, G = .branch c.node (.plain .enumMember) F .nil)
      fun _ _ => False := by
  unfold enumMember
  refine (traited_scope (Q := fun _ kinds => ∀ kind ∈ kinds, kind.isUnruled = true ∨
      kind ∈ [.traitStatements, .valueAssignment]) rfl (fun {b v} h => ?_) nofun (fun _ kinds row => ?_)
    (fun kinds row => ?_) (fun _ F row => fits_member (.inl rfl) row) h awaits).imp fun _ _ _ ⟨F, same, _⟩ => ⟨F, same⟩
  · refine .looks h (fun _ _ => ?_) nofun
    unfold memberName
    refine (within_kinds .shapeMemberName nofun h).bind (fun _ _ _ kinds _ lawful same => ?_) fun _ never => never.elim
    subst same
    refine (afterMember_kinds true lawful).imp fun _ behind value => ?_
    rcases value with rfl | ⟨-, rfl⟩ <;> simp
  · exact List.forall_mem_cons.mpr ⟨.inr (by simp), row⟩
  · exact List.forall_mem_append.mpr ⟨row, by simp⟩

instance enumMembers_obeys : Obeys (membersOf .enumMember enumMember) :=
  membersOf_obeys enumMember_adopts enumMember_node rfl

end SmithyIdl.Grammar
