import SmithyIdl.Grammar.Model
import SmithyIdl.Proofs.Buffer.Scopes

/-! # Statements do not fail

What a statement meets it records. So a failure ends in the scope it arises in, and the sections of a file are
read up to their ends. -/

set_option synthInstance.maxSize 2000

namespace SmithyIdl.Grammar

open SmithyIdl.Parser

variable (docs : Docs)

/-! ### Whitespace -/

instance docComments_unfailing : Unfailing docComments := by
  have (kind : TokenKind) : Unfailing (Parser.isAt kind) := .ask _
  unfold docComments
  infer_instance

instance whitespaceUpToDocs_unfailing : Unfailing whitespaceUpToDocs := by
  have : Unfailing Parser.current := .ask _
  unfold whitespaceUpToDocs
  infer_instance

/-! ### Statements -/

instance traitStatements_unfailing : Unfailing traitStatements := by
  have (kind : TokenKind) : Unfailing (Parser.isAt kind) := .ask _
  unfold traitStatements
  infer_instance

instance withTraits_unfailing (traits : Option NodeId) (f : NodeId → Parser Unit) [∀ d, Unfailing (f d)] :
    Unfailing (withTraits traits f) := by
  cases traits <;> (unfold withTraits; infer_instance)

instance detachedTraits_unfailing : Unfailing detachedTraits := by
  unfold detachedTraits
  infer_instance

instance misplaced_unfailing (traits : Option NodeId) (problem : Problem) : Unfailing (misplaced traits problem) := by
  unfold misplaced
  infer_instance

instance endStatement_unfailing : Unfailing endStatement := by
  unfold endStatement
  infer_instance

instance shapeOrApplyStatement_unfailing : Unfailing (shapeOrApplyStatement docs) := by
  have : Unfailing Parser.current := .ask _
  have (kind : TokenKind) : Unfailing (Parser.isAt kind) := .ask _
  have (keyword : String) : Unfailing (Parser.isAtKeyword keyword) := .ask _
  unfold shapeOrApplyStatement
  infer_instance

instance shapeStatements_unfailing : Unfailing (shapeStatements docs) := by
  unfold shapeStatements
  infer_instance

/-! ### Sections -/

instance declaration_unfailing (kind : TreeKind) (declared : Parser Unit) : Unfailing (declaration kind declared) := by
  unfold declaration
  infer_instance

instance namespaceOrError_unfailing : Unfailing namespaceOrError := by
  have : Unfailing Parser.current := .ask _
  have (keyword : String) : Unfailing (Parser.isAtKeyword keyword) := .ask _
  unfold namespaceOrError namespaceStatement
  infer_instance

instance useSection_unfailing : Unfailing (useSection docs) := by
  unfold useSection
  infer_instance

end SmithyIdl.Grammar
