import Mathlib.Data.List.Basic
import SmithyIdl.Proofs.Grammar.Model
import SmithyIdl.Proofs.Lockstep.Members

/-! # Files in lockstep

Two runs of the grammar take the same steps wherever the same tokens come. Only statements take traits out of the tree
and put them in again. -/

set_option synthInstance.maxSize 20000

namespace SmithyIdl.Grammar

open SmithyIdl.Parser

variable {M : Matching}

/-! ### Operations -/

instance inlineStructure_lockstep : Lockstep M Eq inlineStructure inlineStructure := by
  have behind : Lockstep M Eq (do
      let _ ← traitStatements
      structureRest) (do
      let _ ← traitStatements
      structureRest) := .bind traitStatements_lockstep fun _ _ _ => inferInstance
  unfold inlineStructure
  infer_instance

instance definesInline_shown : M.Shown definesInline := .lookPast 1 TokenKind.isWhitespace .walrus

instance operationTarget_lockstep : Lockstep M Eq operationTarget operationTarget := by
  unfold operationTarget
  infer_instance

instance operationError_lockstep : Lockstep M Eq operationError operationError := by
  unfold operationError
  infer_instance

instance operationErrors_lockstep : Lockstep M Eq operationErrors operationErrors := by
  unfold operationErrors
  infer_instance

theorem propertyOf?_lockstep {name : String} {kind : TreeKind} {property : Parser Unit}
    (h : propertyOf? name = some (kind, property)) : kind.OfRule ∧ Lockstep M Eq property property := by
  unfold propertyOf? at h
  split at h
  all_goals cases h
  all_goals exact ⟨inferInstance, inferInstance⟩

theorem propertyOf?_of_break {name : String} (broken : '\n' ∈ name.toList) : propertyOf? name = none := by
  unfold propertyOf?
  split
  all_goals first | rfl | exact absurd broken (by decide)

instance propertyOfName_lockstep (name : String) :
    Lockstep M Eq (propertyOfName name) (propertyOfName (M.respell name)) := by
  unfold propertyOfName
  rw [M.respell_congr (f := propertyOf?) fun _ => propertyOf?_of_break]
  split
  · next kind property found =>
    obtain ⟨_, _⟩ := propertyOf?_lockstep (M := M) found
    infer_instance
  · exact .fail (.unknownProperty name)

/-- The properties seen are written as in the other run. -/
theorem operationProperty_lockstep (seen : List String) :
    Lockstep M (fun seen seen' => seen' = seen.map M.respell) (operationProperty seen)
      (operationProperty (seen.map M.respell)) := by
  dsimp only [operationProperty]
  refine Lockstep.seq fun _ => .bind .current fun t t' h => ?_
  rw [M.lexeme_eq h, if_congr (List.mem_map_of_injective M.respell_injective) rfl rfl]
  refine .of_ite (fun _ => .fail (.duplicateProperty _)) fun _ => ?_
  have := propertyOfName_lockstep (M := M) t.lexeme
  exact Lockstep.seq fun _ => Lockstep.seq fun _ => .pure rfl

instance operationStatement_lockstep : Lockstep M Eq operationStatement operationStatement := by
  have properties : Lockstep M (fun seen seen' => seen' = seen.map M.respell)
      (foldWhile (fun _ b => beforeBrace b) operationProperty [])
      (foldWhile (fun _ b => beforeBrace b) operationProperty []) :=
    .foldWhile rfl (fun _ _ _ _ _ h => beforeBrace_shown.same h) fun seen _ same => same ▸ operationProperty_lockstep seen
  have inside : Lockstep M Eq (do let _ ← foldWhile (fun _ b => beforeBrace b) operationProperty [])
      (do let _ ← foldWhile (fun _ b => beforeBrace b) operationProperty []) :=
    .bind properties fun _ _ _ => .pure rfl
  unfold operationStatement
  infer_instance

/-! ### Shapes -/

instance simpleStatement_lockstep : Lockstep M Eq simpleStatement simpleStatement := by
  unfold simpleStatement
  infer_instance

instance entityStatement_lockstep : Lockstep M Eq entityStatement entityStatement := by
  unfold entityStatement
  infer_instance

instance statement_lockstep (form : ShapeForm) : Lockstep M Eq form.statement form.statement := by
  cases form <;> (unfold ShapeForm.statement; infer_instance)

instance kind_ofRule (form : ShapeForm) : form.kind.OfRule := by cases form <;> (unfold ShapeForm.kind; infer_instance)

theorem ofType?_of_break {type : String} (broken : '\n' ∈ type.toList) : ShapeForm.ofType? type = none := by
  have other : type ∉ ShapeForm.simpleTypes := fun among => by
    have words : ∀ word ∈ ShapeForm.simpleTypes, '\n' ∉ word.toList := by decide
    exact words type among broken
  unfold ShapeForm.ofType?
  rw [if_neg other]
  split
  all_goals first | rfl | exact absurd broken (by decide)

instance shapeOfType_lockstep (type : String) : Lockstep M Eq (shapeOfType type) (shapeOfType (M.respell type)) := by
  unfold shapeOfType
  rw [M.respell_congr (f := ShapeForm.ofType?) fun _ => ofType?_of_break]
  split
  · infer_instance
  · exact .fail (.unknownShapeType type)

instance shapeBody_lockstep : Lockstep M Eq shapeBody shapeBody := by
  unfold shapeBody
  refine .bind .current fun t t' h => ?_
  rw [M.lexeme_eq h]
  infer_instance

/-! ### Statements -/

instance traitBlock_lockstep : Lockstep M Eq traitBlock traitBlock := by
  have behind : Lockstep M Eq (do
      let _ ← traitStatements
      whitespace
      consume .rbrace) (do
      let _ ← traitStatements
      whitespace
      consume .rbrace) := .bind traitStatements_lockstep fun _ _ _ => inferInstance
  unfold traitBlock
  infer_instance

instance appliesBlock_shown : M.Shown appliesBlock :=
  .lookPast 1 (fun kind => kind ≠ .atSign && kind ≠ .lbrace) .lbrace

instance applyStatement_lockstep : Lockstep M Eq applyStatement applyStatement := by
  unfold applyStatement
  infer_instance

theorem withTraits_lockstep {f f' : NodeId → Parser Unit} (h : ∀ d d', M.node d d' → Lockstep M Eq (f d) (f' d'))
    {traits traits' : Option NodeId} (both : Option.Rel M.node traits traits') :
    Lockstep M Eq (withTraits traits f) (withTraits traits' f') := by
  cases both with
  | none => exact .pure rfl
  | some both => exact h _ _ both

instance noStatement_lockstep : Lockstep M Eq (do fail (.noStatement (← current)) : Parser Unit)
    (do fail (.noStatement (← current))) := .bind .current fun _ _ h => .fail (.noStatement h)

instance endStatement_lockstep : Lockstep M (Option.Rel M.docs) endStatement endStatement := by
  unfold endStatement
  exact .bind (.recovering endLine_lockstep .statement) fun _ _ h => .pure (join_rel h)

section
variable {traits traits' : Option NodeId} {docs docs' : Docs}

theorem misplaced_lockstep (encloses : M.encloses) {problem : Problem} (misplaced : problem.encloses = true)
    (both : Option.Rel M.node traits traits') :
    Lockstep M Eq (Grammar.misplaced traits problem) (Grammar.misplaced traits' problem) :=
  withTraits_lockstep (fun _ _ h => .encloseInError encloses h misplaced) both

variable (moves : M.moves)
include moves

theorem detachedTraits_lockstep : Lockstep M (Option.Rel M.node) detachedTraits detachedTraits := by
  unfold detachedTraits
  refine .bind traitStatements_lockstep fun _ _ both => ?_
  exact .bind (withTraits_lockstep (fun _ _ h => .detach moves h) both) fun _ _ _ => .pure both

theorem shapeStatement_lockstep (h : Option.Rel M.docs docs docs') (both : Option.Rel M.node traits traits') :
    Lockstep M Eq (shapeStatement docs traits) (shapeStatement docs' traits') := by
  have attached := withTraits_lockstep (fun _ _ h => .attach moves h) both
  have adopted := adoptDocs_lockstep h
  unfold shapeStatement
  infer_instance

/-- A shape, with the end of its line. -/
theorem statedShape_lockstep (h : Option.Rel M.docs docs docs') (both : Option.Rel M.node traits traits') :
    Lockstep M (Option.Rel M.docs) (do
      within .shapeOrApplyStatement (shapeStatement docs traits)
      endStatement) (do
      within .shapeOrApplyStatement (shapeStatement docs' traits')
      endStatement) := by
  have := shapeStatement_lockstep moves h both
  infer_instance

variable (encloses : M.encloses)
include encloses

theorem shapeOrApplyStatement_lockstep (h : Option.Rel M.docs docs docs') :
    Lockstep M (Option.Rel M.docs) (shapeOrApplyStatement docs) (shapeOrApplyStatement docs') := by
  unfold shapeOrApplyStatement
  refine .bind .current fun t t' here => ?_
  rw [M.kind_eq here]
  refine .of_ite (fun _ => inferInstance) fun _ => .bind (detachedTraits_lockstep moves) fun traits traits' both => ?_
  have same : traits'.isSome = traits.isSome := by cases both <;> rfl
  refine Lockstep.seq fun apply => .of_ite (fun _ => ?_) fun _ => Lockstep.seq fun shape =>
    .of_ite (fun _ => ?_) fun _ => ?_
  · have : Lockstep M Eq (misplaced traits .traitsOnApply) (misplaced traits' .traitsOnApply) :=
      misplaced_lockstep encloses rfl both
    infer_instance
  · exact statedShape_lockstep moves h both
  · rw [same]
    refine .of_ite (fun _ => .bind (misplaced_lockstep encloses rfl both) fun _ _ _ => .pure .none) fun _ => ?_
    exact .bind inferInstance fun _ _ _ => .pure .none

theorem statements_lockstep (h : Option.Rel M.docs docs docs') :
    Lockstep M (Option.Rel M.docs) (foldWhile (fun _ b => b.hasNext) shapeOrApplyStatement docs)
      (foldWhile (fun _ b => b.hasNext) shapeOrApplyStatement docs') :=
  .foldWhile h (fun _ _ _ _ _ seen => seen.hasNext) fun _ _ => shapeOrApplyStatement_lockstep moves encloses

theorem shapeStatements_lockstep (h : Option.Rel M.docs docs docs') :
    Lockstep M Eq (shapeStatements docs) (shapeStatements docs') := by
  have rounds := statements_lockstep moves encloses h
  have inside : Lockstep M Eq (do let _ ← foldWhile (fun _ b => b.hasNext) shapeOrApplyStatement docs)
      (do let _ ← foldWhile (fun _ b => b.hasNext) shapeOrApplyStatement docs') :=
    .bind rounds fun _ _ _ => .pure rfl
  unfold shapeStatements
  infer_instance

end

/-! ### Control, metadata and namespaces -/

instance setting_lockstep (sign : TokenKind) : Lockstep M Eq (setting sign) (setting sign) := by
  have behind : Lockstep M Eq (do let _ ← endLine) (do let _ ← endLine) :=
    .bind endLine_lockstep fun _ _ _ => .pure rfl
  unfold setting
  infer_instance

instance controlStatement_lockstep : Lockstep M Eq controlStatement controlStatement := by
  unfold controlStatement
  infer_instance

instance controlSection_lockstep : Lockstep M Eq controlSection controlSection := by
  unfold controlSection
  infer_instance

instance metadataStatement_lockstep : Lockstep M Eq metadataStatement metadataStatement := by
  unfold metadataStatement
  infer_instance

instance metadataSection_lockstep : Lockstep M Eq metadataSection metadataSection := by
  unfold metadataSection
  infer_instance

theorem declaration_lockstep (kind : TreeKind) [kind.OfRule] (declared : Parser Unit) [Steady declared]
    [Lockstep M Eq declared declared] :
    Lockstep M (Option.Rel M.docs) (declaration kind declared) (declaration kind declared) := by
  unfold declaration
  exact .scope_value kind .statement inferInstance fun _ _ h => .pure (join_rel h)

instance namespaceStatement_lockstep : Lockstep M (Option.Rel M.docs) namespaceStatement namespaceStatement :=
  declaration_lockstep _ _

instance useStatement_lockstep : Lockstep M (Option.Rel M.docs) useStatement useStatement := declaration_lockstep _ _

theorem useSection_lockstep {docs docs' : Docs} (h : Option.Rel M.docs docs docs') :
    Lockstep M (Option.Rel M.docs) (useSection docs) (useSection docs') := by
  have rounds : Lockstep M (Option.Rel M.docs) (foldWhile (fun _ b => b.isAtKeyword "use") (fun _ => useStatement) docs)
      (foldWhile (fun _ b => b.isAtKeyword "use") (fun _ => useStatement) docs') :=
    .foldWhile h (fun _ _ _ _ _ seen => seen.isAtKeyword "use") fun _ _ _ => inferInstance
  unfold useSection
  exact .scope_value .useSection .statement rounds fun _ _ h => .pure (join_rel h)

instance namespaceOrError_lockstep : Lockstep M (Option.Rel M.docs) namespaceOrError namespaceOrError := by
  unfold namespaceOrError
  refine Lockstep.seq fun here => .of_ite (fun _ => inferInstance) fun _ => .bind .current fun _ _ h => ?_
  exact .bind (.reportMissing (.noNamespace h)) fun _ _ _ => .pure .none

/-! ### Whole files -/

/-- The report of a problem at the token to come. -/
theorem report_eq (problem : Problem) (recovery : Recovery) :
    (do report (← ask (·.syntaxError problem)) recovery) =
      (recovering recovery (fail problem : Parser Unit) >>= fun _ => pure ()) := by
  funext b
  change (report (b.syntaxError problem) recovery).run b =
    ((report (b.syntaxError problem) recovery >>= fun _ => pure (none : Option Unit)) >>= fun _ => pure ()).run b
  simp

instance leftOver_lockstep : Lockstep M Eq leftOver leftOver := by
  have reported {t t' : Token} (h : M.token t t') :
      Lockstep M Eq (do report (← ask (·.syntaxError (.noEndOfFile t))) .endOfText)
        (do report (← ask (·.syntaxError (.noEndOfFile t'))) .endOfText) := by
    rw [report_eq, report_eq]
    have missing : Lockstep M Eq (fail (.noEndOfFile t) : Parser Unit) (fail (.noEndOfFile t')) := .fail (.noEndOfFile h)
    exact .bind (.recovering missing .endOfText) fun _ _ _ => .pure rfl
  unfold leftOver
  exact Lockstep.seq fun more => .of_ite (fun _ => .bind .current fun _ _ h => reported h) fun _ => .pure rfl

theorem model_lockstep (moves : M.moves) (encloses : M.encloses) : Lockstep M Eq model model := by
  have sections : Lockstep M Eq shapeSection shapeSection := by
    have inside : Lockstep M Eq (do
        let docs ← namespaceOrError
        let docs ← useSection docs
        shapeStatements docs) (do
        let docs ← namespaceOrError
        let docs ← useSection docs
        shapeStatements docs) :=
      .bind namespaceOrError_lockstep fun _ _ h => .bind (useSection_lockstep h) fun _ _ h' =>
        shapeStatements_lockstep moves encloses h'
    unfold shapeSection
    infer_instance
  unfold model
  infer_instance

end SmithyIdl.Grammar
