import SmithyIdl.Proofs.Buffer.Growth

/-! # A buffer shows one view

The open nodes and the trees that stand alone tell a view: all that is below them is read off the tree. So what is
known of the same run in two ways is known of one view. -/

namespace SmithyIdl

namespace SyntaxTree

/-- A tree holds one forest below a node. -/
theorem Holds.unique {t : SyntaxTree} {parent parent' : Option NodeId} {F G : Forest} (h : t.Holds parent F)
    (h' : t.Holds parent' G) (roots : F.roots = G.roots) : F = G := by
  induction F generalizing G parent parent' with
  | nil => exact (Forest.eq_nil_of_roots roots.symm).symm
  | leaf id token rest ih =>
    obtain ⟨⟨_, node, -⟩, beside⟩ := h
    cases G with
    | nil => cases roots
    | leaf id' token' rest' =>
      obtain ⟨rfl, behind⟩ := List.cons.inj roots
      obtain ⟨⟨_, node', -⟩, beside'⟩ := h'
      cases node.symm.trans node'
      rw [ih beside beside' behind]
    | branch id' label inner rest' =>
      obtain ⟨rfl, -⟩ := List.cons.inj roots
      obtain ⟨⟨_, node', -⟩, -⟩ := h'
      cases node.symm.trans node'
  | branch id label inner rest ihInner ihRest =>
    obtain ⟨⟨_, node, -⟩, below, beside⟩ := h
    cases G with
    | nil => cases roots
    | leaf id' token' rest' =>
      obtain ⟨rfl, -⟩ := List.cons.inj roots
      obtain ⟨⟨_, node', -⟩, -⟩ := h'
      cases node.symm.trans node'
    | branch id' label' inner' rest' =>
      obtain ⟨rfl, behind⟩ := List.cons.inj roots
      obtain ⟨⟨_, node', -⟩, below', beside'⟩ := h'
      simp only [Option.some.injEq, node, Node.mk.injEq, NodeContent.branch.injEq] at node'
      obtain ⟨⟨rfl, children⟩, rfl, -⟩ := node'
      rw [ihInner below below' (by simpa using children), ihRest beside beside' behind]

end SyntaxTree

/-! ### Views -/

/-- A forest is cut in one way into a part with some number of roots and the rest. -/
theorem Forest.append_inj {F F' G G' : Forest} (h : F ++ G = F' ++ G') (same : G.roots.length = G'.roots.length) :
    F = F' ∧ G = G' := by
  have roots := congrArg (List.length ∘ Forest.roots) h
  simp only [Function.comp_apply, roots_append, List.length_append] at roots
  induction F generalizing F' with
  | nil =>
    obtain rfl : F' = nil := eq_nil_of_roots (List.length_eq_zero_iff.mp (by simp at roots; omega))
    exact ⟨rfl, h⟩
  | leaf id token rest ih =>
    cases F' with
    | nil => simp at roots; omega
    | branch => cases h
    | leaf id' token' rest' =>
      simp only [leaf_append, leaf.injEq, roots_leaf, List.length_cons] at h roots
      obtain ⟨rfl, rfl, h⟩ := h
      obtain ⟨rfl, rfl⟩ := ih h (by omega)
      exact ⟨rfl, rfl⟩
  | branch id label inner rest _ ih =>
    cases F' with
    | nil => simp at roots; omega
    | leaf => cases h
    | branch id' label' inner' rest' =>
      simp only [branch_append, branch.injEq, roots_branch, List.length_cons] at h roots
      obtain ⟨rfl, rfl, rfl, h⟩ := h
      obtain ⟨rfl, rfl⟩ := ih h (by omega)
      exact ⟨rfl, rfl⟩

/-- The tree that open nodes make up tells what is below each of them. -/
theorem spine_unique {spine spine' : List OpenNode} {F G : Forest}
    (names : spine.map OpenNode.name = spine'.map OpenNode.name) (roots : F.roots.length = G.roots.length)
    (same : Forest.plug (spine.map OpenNode.frame) F = Forest.plug (spine'.map OpenNode.frame) G) :
    spine = spine' ∧ F = G := by
  induction spine generalizing spine' F G with
  | nil =>
    obtain rfl := List.map_eq_nil_iff.mp names.symm
    exact ⟨rfl, same⟩
  | cons n spine ih =>
    cases spine' with
    | nil => cases names
    | cons n' spine' =>
      obtain ⟨⟨id, label, children⟩, ⟨id', label', children'⟩⟩ := n, n'
      obtain ⟨name, names⟩ := List.cons.inj names
      obtain ⟨rfl, node⟩ := ih names (by simp) same
      simp only [OpenNode.frame, Forest.append_nil, Forest.branch.injEq] at node
      obtain ⟨rfl, rfl, inside, -⟩ := node
      obtain ⟨rfl, rfl⟩ := Forest.append_inj inside roots
      exact ⟨rfl, rfl⟩

/-- The outermost node is the only root. -/
theorem View.whole_roots (v : View) : v.whole.roots = (v.names.getLast?.map Prod.fst).toList := by
  have top (spine : List OpenNode) (n : OpenNode) (F : Forest) :
      (Forest.plug ((n :: spine).map OpenNode.frame) F).roots =
        (((n :: spine).map OpenNode.name).getLast?.map Prod.fst).toList := by
    induction spine generalizing n F with
    | nil => rfl
    | cons m spine ih =>
      rw [List.map_cons, Forest.plug_cons, ih m]
      rfl
  exact top v.outer v.inner .nil

variable {b : Buffer} {v w : View}

/-- The open nodes and the trees that stand alone tell the view. -/
theorem Buffer.Shows.unique (h : b.Shows v) (h' : b.Shows w) (names : w.names = v.names) (loose : w.loose = v.loose) :
    w = v := by
  have whole : w.whole = v.whole := h'.placed.unique h.placed (by rw [View.whole_roots, View.whole_roots, names])
  obtain ⟨spine, -⟩ := spine_unique names rfl whole
  obtain ⟨n, outer, L⟩ := v
  obtain ⟨n', outer', L'⟩ := w
  obtain ⟨rfl, rfl⟩ := List.cons.inj spine
  exact congrArg _ loose

end SmithyIdl
