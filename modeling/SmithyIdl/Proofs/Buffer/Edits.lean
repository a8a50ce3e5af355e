import SmithyIdl.Proofs.Buffer.Runs
import SmithyIdl.Proofs.Tree.Edited

/-! # The edit in a step

A step that succeeded has made one edit of the tree, or none. Each is read off its run. -/

namespace SmithyIdl

/-! ### Steps -/

namespace Parser

variable {b b' : Buffer} {d i : NodeId}

theorem openNode_edit {kind : TreeKind} (run : (openNode kind).run b = .ok i b') : i = b.tree.size ∧
    ∃ t, (b.tree.addNode kind).2.append b.innermost b.tree.size = .ok t ∧
      b' = { b with tree := t, openNodes := b.tree.size :: b.openNodes } := by
  unfold openNode at run
  obtain ⟨_, b₁, made, run⟩ := bind_eq_ok.mp run
  obtain ⟨t, edit, rfl⟩ := onTree_ok made
  cases edit
  obtain ⟨_, b₂, attached, run⟩ := bind_eq_ok.mp run
  obtain ⟨t, edit, rfl⟩ := attach_ok attached
  cases run
  exact ⟨rfl, t, edit, rfl⟩

theorem addError_edit {mark : Mark} (run : (addError mark).run b = .ok i b') : i = b.tree.size ∧
    ∃ t, (b.tree.addError mark).2.append b.innermost b.tree.size = .ok t ∧
      b' = { b with tree := t, errors := b.errors + 1 } := by
  unfold addError at run
  obtain ⟨_, b₁, counted, run⟩ := bind_eq_ok.mp run
  cases counted
  obtain ⟨_, b₁, made, run⟩ := bind_eq_ok.mp run
  obtain ⟨t, edit, rfl⟩ := onTree_ok made
  cases edit
  obtain ⟨_, b₂, attached, run⟩ := bind_eq_ok.mp run
  obtain ⟨t, edit, rfl⟩ := attach_ok attached
  cases run
  exact ⟨rfl, t, edit, rfl⟩

theorem parent?_read {t t' : SyntaxTree} {parent : Option NodeId} (read : (Reading.parent? d).run t = .ok (parent, t')) :
    t' = t ∧ t.parent? d = parent := by
  rw [SyntaxTree.parent?]
  change (Node.parent <$> Reading.node d) t = _ at read
  simp only [Functor.map, StateT.map, Reading.node] at read
  cases found : t.nodes[d]? with
  | none =>
    rw [found] at read
    cases read
  | some n =>
    rw [found] at read
    cases read
    exact ⟨rfl, rfl⟩

theorem detach_edit (run : (detach d).run b = .ok () b') : b.tree.parent? d = none ∧ b' = b ∨
    ∃ p found t, b.tree.parent? d = some p ∧ b.tree.remove p d = .ok (found, t) ∧ b' = { b with tree := t } := by
  unfold detach at run
  obtain ⟨parent, b₁, found, run⟩ := bind_eq_ok.mp run
  obtain ⟨t, read, rfl⟩ := onTree_ok found
  obtain ⟨rfl, above⟩ := parent?_read read
  cases parent with
  | none =>
    cases run
    exact .inl ⟨above, rfl⟩
  | some p =>
    obtain ⟨_, b₂, removed, run⟩ := bind_eq_ok.mp run
    obtain ⟨t', edit, rfl⟩ := onTree_ok removed
    cases run
    exact .inr ⟨p, _, t', above, edit, rfl⟩

/-- Documentation comments are moved into a node without children. -/
theorem adoptDocs_steps (run : (adoptDocs (some d)).run b = .ok () b') :
    ∃ b₁, (detach d).run b = .ok () b₁ ∧ (attach d).run b₁ = .ok () b' := by
  unfold adoptDocs at run
  obtain ⟨n, b₁, hask, run⟩ := bind_eq_ok.mp run
  cases hask
  split at run
  · obtain ⟨_, b₂, taken, put⟩ := bind_eq_ok.mp run
    exact ⟨b₂, taken, put⟩
  · cases run

theorem adoptDocs_cursor {docs : Option NodeId} (run : (adoptDocs docs).run b = .ok () b') : b'.cursor = b.cursor := by
  cases docs with
  | none =>
    cases run
    rfl
  | some d =>
    obtain ⟨b₁, taken, put⟩ := adoptDocs_steps run
    obtain ⟨t, -, rfl⟩ := attach_ok put
    rcases detach_edit taken with ⟨-, rfl⟩ | ⟨p, found, t, -, edit, rfl⟩ <;> rfl

/-- Reading where the node starts comes before the edits. -/
theorem encloseInError_edit {problem : Problem} (run : (encloseInError d problem).run b = .ok () b') :
    ∃ start t₁ range t₂ b₁ t', Reading.start d b.tree = .ok (start, t₁) ∧ Reading.range d t₁ = .ok (range, t₂) ∧
      (addError ⟨problem, range.start, start⟩).run { b with tree := t₂ } = .ok t₂.size b₁ ∧
      b₁.tree.append t₂.size d = .ok t' ∧ b' = { b₁ with tree := t' } := by
  unfold encloseInError at run
  obtain ⟨start, b₁, first, run⟩ := bind_eq_ok.mp run
  obtain ⟨t₁, read, rfl⟩ := onTree_ok first
  obtain ⟨range, b₂, second, run⟩ := bind_eq_ok.mp run
  obtain ⟨t₂, read', rfl⟩ := onTree_ok second
  obtain ⟨error, b₃, added, run⟩ := bind_eq_ok.mp run
  obtain rfl : error = t₂.size := (addError_edit added).1
  obtain ⟨t₃, edit, rfl⟩ := onTree_ok run
  cases appended : b₃.tree.append t₂.size d with
  | error why =>
    rw [appended] at edit
    cases edit
  | ok t =>
    rw [appended] at edit
    cases edit
    exact ⟨start, t₁, range, t₂, b₃, _, read, read', added, appended, rfl⟩

end Parser

end SmithyIdl
