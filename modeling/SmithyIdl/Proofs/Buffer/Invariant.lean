import SmithyIdl.Proofs.Buffer.Simulation

/-! # What every step keeps

A run matched with itself takes the steps of the grammar and no others, and every problem that it reports stands at the
token to come. What each of these steps keeps, a parser in lockstep with itself keeps. -/

namespace SmithyIdl

/-- What holds of a buffer behind every step, as long as only certain nodes are moved. -/
structure Invariant (docs node : NodeId → Prop) (moves encloses : Prop) where
  holds : Buffer → Prop
  docs_of_node : ∀ {i}, node i → docs i
  around : ∀ {b openNodes}, holds b → holds { b with openNodes }
  shift : ∀ {b b'}, holds b → Parser.shift.run b = .ok () b' → holds b'
  openNode : ∀ {b b' kind i}, holds b → (Parser.openNode kind).run b = .ok i b' → node i ∧ holds b'
  addError : ∀ {b b' problem i}, holds b → problem.encloses = false →
    (Parser.addError (Parser.markOf (b.syntaxError problem))).run b = .ok i b' → node i ∧ holds b'
  adoptDocs : ∀ {b b' d}, holds b → docs d → (Parser.adoptDocs (some d)).run b = .ok () b' → holds b'
  detach : ∀ {b b' d}, moves → holds b → node d → (Parser.detach d).run b = .ok () b' → holds b'
  attach : ∀ {b b' d}, moves → holds b → node d → (Parser.attach d).run b = .ok () b' → holds b'
  encloseInError : ∀ {b b' d problem}, encloses → holds b → node d → problem.encloses = true →
    (Parser.encloseInError d problem).run b = .ok () b' → holds b'

namespace Invariant

variable {docs node : NodeId → Prop} {moves encloses : Prop} (I : Invariant docs node moves encloses)

/-- An invariant as a simulation of a run by itself. -/
def simulation : Simulation (.alone docs node moves encloses) where
  same b b' := b' = b ∧ I.holds b
  lost _ := False
  lost_leads _ lost := lost
  refused lenient := lenient.elim
  docs_of_node := fun ⟨same, node⟩ => ⟨same, I.docs_of_node node⟩
  sees := by
    rintro b _ ⟨rfl, -⟩
    exact Matching.alone_sees ..
  errors := by
    rintro b _ ⟨rfl, -⟩
    rfl
  room := by
    rintro b _ ⟨rfl, -⟩
    exact .inl rfl
  deep := by
    rintro b _ ⟨rfl, -⟩
    exact .inl rfl
  push := by
    rintro b _ i _ ⟨rfl, holds⟩ ⟨rfl, -⟩
    exact ⟨rfl, I.around holds⟩
  pop := by
    rintro b _ ⟨rfl, holds⟩
    exact ⟨rfl, I.around holds⟩
  shift := by
    rintro b _ b₁ b₁' ⟨rfl, holds⟩ run run'
    cases run.symm.trans run'
    exact ⟨rfl, I.shift holds run⟩
  openNode := by
    rintro b _ b₁ b₁' kind i i' ⟨rfl, holds⟩ run run'
    cases run.symm.trans run'
    obtain ⟨node, holds'⟩ := I.openNode holds run
    exact ⟨⟨rfl, node⟩, rfl, holds'⟩
  addError := by
    rintro b _ b₁ b₁' problem problem' i i' ⟨rfl, holds⟩ like run run'
    obtain rfl := like.eq
    cases run.symm.trans run'
    obtain ⟨node, holds'⟩ := I.addError holds like.not_encloses run
    exact ⟨⟨rfl, node⟩, rfl, holds'⟩
  adoptDocs := by
    rintro b _ b₁ b₁' d _ ⟨rfl, holds⟩ ⟨rfl, docs⟩ run run'
    cases run.symm.trans run'
    exact ⟨rfl, I.adoptDocs holds docs run⟩
  detach := by
    rintro b _ b₁ b₁' d _ moves ⟨rfl, holds⟩ ⟨rfl, node⟩ run run'
    cases run.symm.trans run'
    exact ⟨rfl, I.detach moves holds node run⟩
  attach := by
    rintro b _ b₁ b₁' d _ moves ⟨rfl, holds⟩ ⟨rfl, node⟩ run run'
    cases run.symm.trans run'
    exact ⟨rfl, I.attach moves holds node run⟩
  encloseInError := by
    rintro b _ b₁ b₁' d _ problem encloses ⟨rfl, holds⟩ ⟨rfl, node⟩ misplaced run run'
    cases run.symm.trans run'
    exact ⟨rfl, I.encloseInError encloses holds node misplaced run⟩

variable {α : Type} {R : α → α → Prop} {p : Parser α} {a : α} {b b' : Buffer}

/-- A parser in lockstep with itself keeps the invariant. -/
theorem keeps (h : Lockstep (.alone docs node moves encloses) R p p) (holds : I.holds b)
    (run : p.run b = .ok a b') : R a a ∧ I.holds b' := by
  have agree := h.agrees I.simulation ⟨rfl, holds⟩
  rw [run] at agree
  cases agree with
  | escaped lost => exact lost.elim
  | ok value same => exact ⟨value, same.2⟩

end Invariant

end SmithyIdl
