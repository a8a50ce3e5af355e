import SmithyIdl.Proofs.Schema.Rows

/-! # Trees that conform

Whether a syntax tree conforms to the schema is said of the nodes in its array; the forest that the tree holds says
the same of its branches. -/

namespace SmithyIdl

namespace SyntaxTree

/-- The symbol of a node. -/
def symbol? (t : SyntaxTree) (id : NodeId) : Option Symbol := do
  let node ← t.nodes[id]?
  match node.content with
  | .leaf token => return .token (← t.tokens[token]?).kind
  | .branch label children => return .ofNode label.kind (children[0]?.bind t.kind?)

/-- The symbols of the children of a node. -/
def row? (t : SyntaxTree) (id : NodeId) : Option (List Symbol) := (t.childrenOf id).mapM t.symbol?

/-- The children of every inner node match the production of its kind. -/
def Conforms (t : SyntaxTree) : Prop :=
  ∀ id node, t.nodes[id]? = some node → node.isLeaf = false →
    ∃ row, t.row? id = some row ∧ row ∈ (Schema.production node.kind).matches'

variable {t : SyntaxTree} {parent : Option NodeId} {F : Forest} {s : Symbol} {d e : NodeId} {row : List Symbol}
  {k : TreeKind}

theorem isLeaf_of_kind? (sort : t.kind? d = some k) (inner : k ≠ .token) :
    t.nodes[d]?.map Node.isLeaf = some false := by
  obtain ⟨⟨content, parent, kept⟩, found, rfl⟩ := Option.map_eq_some_iff.mp sort
  rw [found]
  cases content with
  | leaf => exact absurd rfl inner
  | branch => rfl

theorem Conforms.exists_row (h : t.Conforms) (sort : t.kind? d = some k) (inner : k ≠ .token) :
    ∃ row, t.row? d = some row ∧ row ∈ (Schema.production k).matches' := by
  obtain ⟨node, found, branch⟩ := Option.map_eq_some_iff.mp (isLeaf_of_kind? sort inner)
  obtain rfl : node.kind = k := by simpa [kind?, found] using sort
  exact h d node found branch

theorem Holds.firstKind (h : t.Holds parent F) : F.roots.head?.bind t.kind? = F.firstKind := by
  cases F with
  | nil => rfl
  | leaf id token rest =>
    obtain ⟨⟨kept, node, -⟩, -⟩ := h
    simp [kind?, node, Node.kind, Forest.firstKind]
  | branch id label inner rest =>
    obtain ⟨⟨kept, node, -⟩, -⟩ := h
    simp [kind?, node, Node.kind, Forest.firstKind]

theorem Holds.mapM_symbol (h : t.Holds parent F) (made : ∀ i ∈ F.tokens, i < t.tokens.size) :
    F.roots.mapM t.symbol? = some (F.row t.tokens) := by
  induction F generalizing parent with
  | nil => rfl
  | leaf id token rest ih =>
    obtain ⟨⟨kept, node, -⟩, below⟩ := h
    obtain ⟨first, others⟩ := List.forall_mem_cons.mp made
    have here : t.symbol? id = some (.token (kindAt t.tokens token)) := by
      simp [symbol?, node, kindAt, Array.getElem?_eq_getElem first]
    rw [Forest.roots_leaf, List.mapM_cons, here, ih below others]
    rfl
  | branch id label inner rest _ ih =>
    obtain ⟨⟨kept, node, -⟩, within, below⟩ := h
    have here : t.symbol? id = some (.ofNode label.kind inner.firstKind) := by
      simp [symbol?, node, ← within.firstKind, List.head?_eq_getElem?]
    rw [Forest.roots_branch, List.mapM_cons, here, ih below fun i hi => made i (List.mem_append_right _ hi)]
    rfl

theorem kind?_of_symbol? (h : t.symbol? e = some s) : t.kind? e = some s.kind := by
  unfold symbol? at h
  obtain ⟨⟨content, parent, kept⟩, node, h⟩ := Option.bind_eq_some_iff.mp h
  rw [kind?, node]
  cases content with
  | leaf token =>
    obtain ⟨u, -, h⟩ := Option.bind_eq_some_iff.mp h
    cases h
    rfl
  | branch label children =>
    cases h
    rw [Symbol.kind_ofNode]
    rfl

theorem symbol?_of_leaf {token : TokenId} {u : Token} (leaf : t.tag? d = some (.inl token)) (found : t.tokens[token]? = some u) :
    t.symbol? d = some (.token u.kind) := by
  obtain ⟨⟨content, parent, kept⟩, node, tag⟩ := Option.map_eq_some_iff.mp leaf
  cases content with
  | leaf =>
    cases tag
    simp [symbol?, node, found]
  | branch => cases tag

/-- The symbol of a node of most kinds says no more than its kind. -/
theorem kind?_iff_of_symbol? (noToken : k ≠ .token) (noId : k ≠ .shapeId) (h : t.symbol? e = some s) :
    t.kind? e = some k ↔ s = .node k := by
  rw [kind?_of_symbol? h, Option.some.injEq]
  cases s with
  | token => exact iff_of_false (fun same => noToken same.symm) nofun
  | node kind => exact (Symbol.node.injEq ..).symm ▸ .rfl
  | absoluteId => exact iff_of_false (fun same => noId same.symm) nofun

theorem map_symbol? (h : t.row? d = some row) : row.map some = (t.childrenOf d).map t.symbol? := by
  unfold row? at h
  generalize t.childrenOf d = l at h ⊢
  induction l generalizing row with
  | nil =>
    cases h
    rfl
  | cons e l ih =>
    rw [List.mapM_cons] at h
    obtain ⟨s, here, h⟩ := Option.bind_eq_some_iff.mp h
    obtain ⟨rest, below, h⟩ := Option.bind_eq_some_iff.mp h
    cases h
    rw [List.map_cons, List.map_cons, here, ih below]

/-- Where the forest conforms, so do the nodes that it names. -/
theorem Holds.conforms (h : t.Holds parent F) (conf : F.Conforms t.tokens) (made : ∀ i ∈ F.tokens, i < t.tokens.size)
    {id : NodeId} {node : Node} (among : id ∈ F.ids) (found : t.nodes[id]? = some node) (inner : node.isLeaf = false) :
    ∃ row, t.row? id = some row ∧ row ∈ (Schema.production node.kind).matches' := by
  induction F generalizing parent with
  | nil => cases among
  | leaf i token rest ih =>
    obtain ⟨⟨kept, here, -⟩, below⟩ := h
    rcases List.mem_cons.mp among with rfl | among
    · obtain rfl := Option.some.inj (here.symm.trans found)
      cases inner
    · exact ih below conf (fun j hj => made j (List.mem_cons_of_mem _ hj)) among
  | branch i label F G ihF ihG =>
    obtain ⟨⟨kept, here, -⟩, within, below⟩ := h
    obtain ⟨row, conf, conf'⟩ := conf
    have madeF : ∀ j ∈ F.tokens, j < t.tokens.size := fun j hj => made j (List.mem_append_left _ hj)
    rcases List.mem_cons.mp among with rfl | among
    · obtain rfl := Option.some.inj (here.symm.trans found)
      refine ⟨F.row t.tokens, ?_, row⟩
      have children : t.childrenOf id = F.roots := by simp [childrenOf, here, Node.children]
      rw [row?, children, within.mapM_symbol madeF]
    · rcases List.mem_append.mp among with among | among
      · exact ihF within conf madeF among
      · exact ihG below conf' (fun j hj => made j (List.mem_append_right _ hj)) among

end SyntaxTree

end SmithyIdl
