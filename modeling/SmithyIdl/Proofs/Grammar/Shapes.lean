import SmithyIdl.Grammar.Shape
import SmithyIdl.Proofs.Grammar.Members

/-! # Growth of shapes

Operations take their properties one by one, and every shape begins with its type, which it takes. -/

set_option synthInstance.maxSize 2000

namespace SmithyIdl.Grammar

open SmithyIdl.Parser

/-! ### Operations -/

instance inlineStructure_reshapes : Reshapes inlineStructure := by
  unfold inlineStructure
  infer_instance

instance operationTarget_reshapes : Reshapes operationTarget := by
  unfold operationTarget
  infer_instance

instance operationTarget_eats : Eats operationTarget := by
  unfold operationTarget
  infer_instance

instance operationError_grows : Grows operationError := by
  unfold operationError
  infer_instance

instance operationError_eats : Eats operationError := by
  unfold operationError
  infer_instance

instance beforeBracket_needsNext {σ : Type} : NeedsNext fun (_ : σ) b => b.hasNext && !b.isAt .rbracket :=
  ⟨fun _ go => (Bool.and_eq_true_iff.mp go).1⟩

instance operationErrors_grows : Grows operationErrors := by
  unfold operationErrors
  infer_instance

instance operationErrors_eats : Eats operationErrors := by
  unfold operationErrors
  infer_instance

instance propertyOfName_reshapes (name : String) : Reshapes (propertyOfName name) := by
  unfold propertyOfName propertyOf?
  split
  · rename_i h
    split at h <;> cases h <;> infer_instance
  · infer_instance

instance propertyOfName_eats (name : String) : Eats (propertyOfName name) := by
  unfold propertyOfName propertyOf?
  split
  · rename_i h
    split at h <;> cases h <;> infer_instance
  · infer_instance

instance operationProperty_reshapes (seen : List String) : Reshapes (operationProperty seen) := by
  dsimp only [operationProperty]
  infer_instance

instance operationProperty_eats (seen : List String) : Eats (operationProperty seen) := by
  dsimp only [operationProperty]
  infer_instance

instance operationStatement_reshapes : Reshapes operationStatement := by
  unfold operationStatement
  infer_instance

instance operationStatement_eats : Eats operationStatement := by
  unfold operationStatement
  infer_instance

/-! ### Shape bodies -/

instance simpleStatement_reshapes : Reshapes simpleStatement := by
  unfold simpleStatement
  infer_instance

instance simpleStatement_eats : Eats simpleStatement := by
  unfold simpleStatement
  infer_instance

instance entityStatement_reshapes : Reshapes entityStatement := by
  unfold entityStatement
  infer_instance

instance entityStatement_eats : Eats entityStatement := by
  unfold entityStatement
  infer_instance

instance ShapeForm_statement_reshapes (form : ShapeForm) : Reshapes (ShapeForm.statement form) := by
  unfold ShapeForm.statement
  cases form <;> infer_instance

instance ShapeForm_statement_eats (form : ShapeForm) : Eats (ShapeForm.statement form) := by
  unfold ShapeForm.statement
  cases form <;> infer_instance

instance shapeOfType_reshapes (type : String) : Reshapes (shapeOfType type) := by
  unfold shapeOfType
  split <;> infer_instance

instance shapeOfType_eats (type : String) : Eats (shapeOfType type) := by
  unfold shapeOfType
  split <;> infer_instance

instance shapeBody_reshapes : Reshapes shapeBody := by
  unfold shapeBody
  infer_instance

instance shapeBody_eats : Eats shapeBody := by
  unfold shapeBody
  infer_instance

end SmithyIdl.Grammar
