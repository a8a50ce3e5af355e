import SmithyIdl.Proofs.Discipline.Trees

/-! # Broken values

Where a part of a value or of the body of a trait has an error in it, what it is part of ends with it: no bracket, no
further part and no whitespace stands behind it. -/

namespace SmithyIdl

/-- Behind a broken part nothing stands. -/
theorem Forest.EndsBroken.eq_nil {parts : List TreeKind} {A B below : Forest} {id : NodeId} {label : Label}
    (h : (A ++ branch id label below B).EndsBroken parts) (part : label.kind ∈ parts) (broken : ¬ below.Clean) :
    B = nil := by
  induction A with
  | nil => exact h.1 part broken
  | leaf _ _ rest ih => exact ih h
  | branch _ _ _ rest _ ih => exact ih h.2

namespace SyntaxTree

variable {t : SyntaxTree} {F : Forest} {ts : Array Token} {p c e : NodeId} {kind part : TreeKind}

/-- A part that has an error below it is the last child. -/
theorem Stands.getLast?_childrenOf (h : t.Stands F) (lawful : F.Lawful ts) (reasoned : t.Reasoned)
    (sort : t.kind? p = some kind) (child : c ∈ t.childrenOf p) (sort' : t.kind? c = some part)
    (among : part ∈ kind.parts) (below : e ∈ t.descendants c) (error : t.kind? e = some .error) :
    (t.childrenOf p).getLast? = some c := by
  obtain ⟨way, label, inner, place, node, -⟩ := h.exists_lawfulParent lawful (h.mem_childrenOf.mp child)
  obtain rfl := Option.some.inj (sort.symm.trans place.kind?_branch)
  rw [place.children_eq] at child ⊢
  obtain ⟨A, D, B, rfl, one⟩ := Forest.exists_root child
  have here := place.descend one
  rcases Forest.eq_of_roots c one with ⟨token, rfl⟩ | ⟨label', inner, rfl⟩
  · obtain rfl := Option.some.inj (sort'.symm.trans here.inside.kind?_leaf)
    exact absurd among (label.kind.not_mem_parts).2.1
  · obtain rfl := Option.some.inj (sort'.symm.trans here.kind?_branch)
    have inside : e ∈ inner.ids := by
      have all : c :: t.descendants c = c :: (inner.ids ++ []) := here.descendants_eq
      rwa [(List.cons.inj all).2, List.append_nil] at below
    have broken : ¬ inner.Clean := fun clean => here.inside.2.1.kind?_of_clean reasoned clean inside error
    have parts := node.parts
    rw [Forest.append_assoc] at parts
    obtain rfl : B = .nil := Forest.EndsBroken.eq_nil parts among broken
    simp

end SyntaxTree

/-- Under every limit, an element of an array, an entry of an object or of a trait, and the value or the entries in the
    body of a trait are the last child where an error is anywhere below them. -/
theorem parse_ends_broken_values (filename text : String) (maxDepth : Nat) :
    ∃ m, parse filename text maxDepth = .ok m ∧ ∀ p c e above part, m.tree.kind? p = some above →
      c ∈ m.tree.childrenOf p → m.tree.kind? c = some part → part ∈ above.parts →
        e ∈ m.tree.descendants c → m.tree.kind? e = some .error → (m.tree.childrenOf p).getLast? = some c := by
  obtain ⟨m, F, parsed, file⟩ := exists_lawful filename text maxDepth
  exact ⟨m, parsed, fun p c e above part sort child sort' among below error =>
    file.stands.getLast?_childrenOf file.lawful file.reasoned sort child sort' among below error⟩

end SmithyIdl
