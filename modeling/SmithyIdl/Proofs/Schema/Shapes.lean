import SmithyIdl.Proofs.Grammar.Shapes
import SmithyIdl.Proofs.Schema.Members

/-! # Rows of shapes

Every shape writes a node whose children are a row of its production, whatever form it has. -/

set_option synthInstance.maxSize 2000

namespace SmithyIdl.Grammar

open SmithyIdl.Parser SmithyIdl.Schema

variable {b : Buffer} {r : Rows}

/-! ### Shapes with members -/

/-- The head of a shape ends before its brace. -/
theorem headUpToBrace_bind {rest : Parser Unit} {rs : List Rows} [Steady rest] (here : b.current.kind = .identifier)
    (behind : ∀ b₁, b₁.current.kind = .lbrace → rest.Writes False b₁ (sequence rs)) :
    (do
      headUpToBrace
      rest : Parser Unit).Writes False b (sequence (head :: Schema.mixins :: space :: rs)) := by
  unfold headUpToBrace
  simp only [bind_assoc]
  exact .cons (typedName_writes here) fun _ _ _ => .cons mixins_writes fun _ _ _ => .cons whitespace_writes fun _ b₁ _ =>
    .expect_bind fun brace => behind b₁ brace

theorem braced_writes {kind : TreeKind} {contents : Parser Unit} [Reshapes contents]
    (ne : kind ≠ .shapeId ∧ kind ≠ .error)
    (row : production kind = bracketed .lbrace r .rbrace) (writes : ∀ b₁, contents.Writes False b₁ r)
    (here : b.current.kind = .lbrace) :
    (braced kind contents).Writes False b (one kind) := by
  unfold braced
  refine .within ne fun b₁ _ same => ?_
  rw [row]
  refine .cons (.consumeAny_at ?_ (by decide)) fun _ _ _ => .cons whitespace_writes fun _ _ _ =>
    .cons (writes _) fun _ _ _ => .last (.consume (by decide))
  rwa [Buffer.current_of_peek same]

theorem enumStatement_writes (here : b.current.kind = .identifier) :
    enumStatement.Writes False b (production .enumStatement) := by
  unfold enumStatement
  refine headUpToBrace_bind here fun b₁ brace => .last (braced_writes (by decide) rfl (fun _ => ?_) brace)
  refine membersOf_writes fun b₂ given names => memberIn_writes (by decide) (fun pends label open' => ?_)
    (fun _ _ named => enumMember_writes named) names
  exact View.Pends.leave_held pends label (by decide) open'

theorem listStatement_writes (here : b.current.kind = .identifier) :
    listStatement.Writes False b (production .listStatement) := by
  unfold listStatement
  refine headUpToBrace_bind here fun b₁ brace => .last (braced_writes (by decide) rfl (fun _ => ?_) brace)
  refine .ask (.ite (fun _ => ?_) fun _ => whitespace_writes.last.of_subset (mem_optional_mul _ _))
  have member (b₂ : Buffer) : (do let _ ← shapeMember .inList none : Parser Unit).Writes False b₂ (one .shapeMember) :=
    .map ((shapeMember_writes .inList .none).mono (fun _ => .none) id).writes
  exact (Writes.cons (.within (by decide) fun b₂ _ _ => member b₂) fun _ _ _ => whitespace_writes.last).of_subset
    (mem_optional_mul_of_mul _ _)

theorem secondMember_writes {first : Member} (names : b.Names first.docs) :
    (secondMember first).WritesDocs (·.Held first.docs) View.Held (fun _ => none) b
      (Schema.optional (one .shapeMember)) := by
  have second : (do let _ ← shapeMember .mapSecond first.docs : Parser Unit).WritesDocs (·.Held first.docs) View.Held
      (fun _ => none) b (one .shapeMember) := .map (shapeMember_writes .mapSecond names).forget
  unfold secondMember
  refine .ask (.ite (fun _ => .ite (fun _ => .fail) fun _ => second.of_subset fun _ => Or.inr) fun _ => ?_)
  exact (WritesDocs.pure rfl fun _ => .none).of_subset fun _ => Or.inl

theorem behindFirst_steady (m : Option Member) : Steady (match m with
    | some first => secondMember first
    | none => pure () : Parser Unit) := by
  cases m <;> infer_instance

theorem keyAndValue_writes :
    keyAndValue.Writes False b (sequence [one .shapeMember, Schema.optional (one .shapeMember)]) := by
  have steady := behindFirst_steady
  have both : keyAndValue.WritesDocs anywhere View.Held (fun _ => none) b
      (sequence [one .shapeMember, Schema.optional (one .shapeMember)]) := by
    refine .hand ((shapeMember_writes .mapFirst .none).mono (fun _ => .none) id) fun m b₁ _ names => .last ?_
    cases m with
    | none => exact (WritesDocs.pure rfl fun _ => .none).of_subset fun _ => Or.inl
    | some first => exact secondMember_writes names
  exact both.writes

theorem mapStatement_writes (here : b.current.kind = .identifier) :
    mapStatement.Writes False b (production .mapStatement) := by
  unfold mapStatement
  refine headUpToBrace_bind here fun b₁ brace => .last (braced_writes (by decide) rfl (fun _ => ?_) brace)
  unfold mapMembers
  refine .ask (.ite (fun _ => ?_) fun _ => whitespace_writes.last.of_subset (mem_optional_mul _ _))
  exact (Writes.cons keyAndValue_writes fun _ _ _ => whitespace_writes.last).of_subset (mem_optional_mul_of_mul _ _)

/-- The members of a structure or a union. -/
theorem memberBlock_writes {container wrapper : TreeKind} (slot : MemberSlot)
    (ne : container ≠ .shapeId ∧ container ≠ .error) (ne' : wrapper ≠ .shapeId ∧ wrapper ≠ .error)
    (row : production container = members wrapper) (row' : production wrapper = one .shapeMember) :
    (memberBlock container wrapper slot).Writes False b (one container) := by
  unfold memberBlock
  refine .expect_bind fun brace => braced_writes ne row (fun _ => membersOf_writes fun b₂ given names => ?_) brace
  refine memberIn_writes ne' (fun held _ _ => View.AwaitsIn.leave_held held) (fun _ _ named => ?_) names
  rw [row']
  exact (blockMember_writes slot named).mono And.left id

theorem structureRest_writes : structureRest.Writes False b Schema.structureRest := by
  unfold structureRest
  exact .cons structureResource_writes fun _ _ _ => .cons mixins_writes fun _ _ _ => .cons whitespace_writes fun _ _ _ =>
    .last (memberBlock_writes .inStructure (by decide) (by decide) rfl rfl)

theorem structureStatement_writes (here : b.current.kind = .identifier) :
    structureStatement.Writes False b (production .structureStatement) := by
  unfold structureStatement
  exact .cons (typedName_writes here) fun _ _ _ => structureRest_writes.last

theorem unionStatement_writes (here : b.current.kind = .identifier) :
    unionStatement.Writes False b (production .unionStatement) := by
  unfold unionStatement
  exact .cons (typedName_writes here) fun _ _ _ => .cons mixins_writes fun _ _ _ => .cons whitespace_writes fun _ _ _ =>
    .last (memberBlock_writes .inUnion (by decide) (by decide) rfl rfl)

/-! ### Operations -/

theorem inlineStructure_writes : inlineStructure.Writes False b (one .inlineStructure) := by
  unfold inlineStructure
  refine .expect_bind fun here => .within (by decide) fun b₁ _ same => .cons (.consumeAny_at ?_ (by decide)) fun _ _ _ =>
    .cons whitespace_writes fun _ _ _ => .cons traitStatements_writes fun _ _ _ => structureRest_writes.last
  rwa [Buffer.current_of_peek same]

theorem operationTarget_writes (here : b.current.kind = .identifier) :
    operationTarget.Writes False b Schema.operationTarget := by
  unfold operationTarget
  refine .ask (.cons (keyword_writes here) fun _ _ _ => .cons whitespace_writes fun _ _ _ => .last (.ite (fun _ => ?_)
    fun _ => ?_))
  · exact inlineStructure_writes.of_subset fun _ => Or.inl
  · exact (Writes.cons (.consume (by decide)) fun _ _ _ => .cons whitespace_writes fun _ _ _ =>
      (shapeId_writes false).last).of_subset fun _ => Or.inr

theorem operationErrors_writes (here : b.current.kind = .identifier) :
    operationErrors.Writes False b (production .operationErrors) := by
  have error (b₁ : Buffer) : operationError.Writes False b₁ (sequence [Schema.shapeId, space]) := by
    unfold operationError
    exact .cons (shapeId_writes false) fun _ _ _ => whitespace_writes.last
  unfold operationErrors
  exact .cons (keyword_writes here) fun _ _ _ => .cons whitespace_writes fun _ _ _ => .cons (.consume (by decide))
    fun _ _ _ => .cons whitespace_writes fun _ _ _ => .last (.cons (.consume (by decide)) fun _ _ _ =>
      .cons whitespace_writes fun _ _ _ => .cons (.repeatWhile fun b₁ _ _ => error b₁) fun _ _ _ =>
        .last (.consume (by decide)))

theorem propertyOfName_writes (name : String) (here : b.current.kind = .identifier) :
    (propertyOfName name).Writes False b
      (anyOf [one .operationInput, one .operationOutput, one .operationErrors]) := by
  have node {kind : TreeKind} {property : Parser Unit} [Steady property] (ne : kind ≠ .shapeId ∧ kind ≠ .error)
      (among : one kind ∈ [one .operationInput, one .operationOutput, one .operationErrors])
      (writes : ∀ b₁, b₁.current.kind = .identifier → property.Writes False b₁ (production kind)) :
      (within kind property).Writes False b (anyOf [one .operationInput, one .operationOutput, one .operationErrors]) := by
    refine (Writes.within ne fun b₁ _ same => writes b₁ ?_).of_subset fun u hu => mem_anyOf.mpr ⟨_, among, hu⟩
    rwa [Buffer.current_of_peek same]
  unfold propertyOfName propertyOf?
  split
  · rename_i h
    split at h <;> cases h
    · exact node (by decide) (by simp) fun _ => operationTarget_writes
    · exact node (by decide) (by simp) fun _ => operationTarget_writes
    · exact node (by decide) (by simp) fun _ => operationErrors_writes
  · exact .fail

theorem operationProperty_writes (seen : List String) :
    (operationProperty seen).Writes False b
      (sequence [anyOf [one .operationInput, one .operationOutput, one .operationErrors], space]) := by
  dsimp only [operationProperty]
  exact .expect_bind fun here => .ask (.ite (fun _ => .fail) fun _ => .cons (propertyOfName_writes _ here)
    fun _ _ _ => whitespace_writes.map.last)

theorem operationStatement_writes (here : b.current.kind = .identifier) :
    operationStatement.Writes False b (production .operationStatement) := by
  unfold operationStatement
  refine headUpToBrace_bind here fun b₁ brace => .last (braced_writes (by decide) rfl (fun _ => ?_) brace)
  exact .map (.foldWhile fun seen _ _ _ => operationProperty_writes seen)

/-! ### Shape bodies -/

theorem simpleStatement_writes (here : b.current.kind = .identifier) :
    simpleStatement.Writes False b (production .simpleShapeStatement) := by
  unfold simpleStatement
  exact .cons (typedName_writes here) fun _ _ _ => mixins_writes.last

theorem entityStatement_writes (here : b.current.kind = .identifier) :
    entityStatement.Writes False b (sequence [head, Schema.mixins, space, one .nodeObject]) := by
  unfold entityStatement
  exact headUpToBrace_bind here fun _ brace => (nodeObject_writes brace).last

theorem statement_writes (form : ShapeForm) (here : b.current.kind = .identifier) :
    form.statement.Writes False b (production form.kind) := by
  cases form with
  | simple => exact simpleStatement_writes here
  | enumeration => exact enumStatement_writes here
  | list => exact listStatement_writes here
  | map => exact mapStatement_writes here
  | struct => exact structureStatement_writes here
  | union => exact unionStatement_writes here
  | service => exact entityStatement_writes here
  | resource => exact entityStatement_writes here
  | operation => exact operationStatement_writes here

theorem shapeBody_writes (here : b.current.kind = .identifier) : shapeBody.Writes False b (production .shapeBody) := by
  unfold shapeBody
  refine .ask ?_
  unfold shapeOfType
  split
  · next form _ =>
    have ne : form.kind ≠ .shapeId ∧ form.kind ≠ .error := by cases form <;> decide
    refine (Writes.within ne fun b₁ _ same => statement_writes form ?_).of_subset fun u hu =>
      mem_anyOf.mpr ⟨_, ?_, hu⟩
    · rwa [Buffer.current_of_peek same]
    · cases form <;> simp [ShapeForm.kind]
  · exact .fail

end SmithyIdl.Grammar
