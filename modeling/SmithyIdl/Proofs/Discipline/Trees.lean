import SmithyIdl.Proofs.Diagnostics
import SmithyIdl.Proofs.Discipline.Statements

/-! # Lawful trees

The tree of every file stands for lawful trees, whether it has errors or not. So it is known of every node what its
children are, as far as they are ruled. -/

namespace SmithyIdl

/-! ### Kinds of children -/

namespace SyntaxTree

/-- The kinds of the children of a node, in the order of the text. -/
def kindsBelow (t : SyntaxTree) (id : NodeId) : List TreeKind := (t.childrenOf id).filterMap t.kind?

/-- The children of a node that have a kind. -/
def childrenOfKind (t : SyntaxTree) (kind : TreeKind) (id : NodeId) : List NodeId :=
  (t.childrenOf id).filter fun c => t.kind? c = some kind

/-- The kinds of the children of a node but for whitespace. -/
def solidBelow (t : SyntaxTree) (id : NodeId) : List TreeKind := (t.kindsBelow id).filter (· ≠ .whitespace)

variable {t : SyntaxTree} {F inner : Forest} {parent : Option NodeId} {way : List Frame} {label : Label} {kind : TreeKind}
  {c p : NodeId} {ts : Array Token}

theorem mem_kindsBelow : kind ∈ t.kindsBelow p ↔ ∃ c ∈ t.childrenOf p, t.kind? c = some kind := List.mem_filterMap

theorem mem_solidBelow (solid : kind ≠ .whitespace) :
    kind ∈ t.solidBelow p ↔ ∃ c ∈ t.childrenOf p, t.kind? c = some kind := by
  rw [solidBelow, List.mem_filter, mem_kindsBelow]
  exact and_iff_left (by simpa using solid)

namespace Holds

theorem kind?_branch (h : t.Holds parent (.branch c label inner F)) : t.kind? c = some label.kind := by
  obtain ⟨⟨kept, node, -⟩, -⟩ := h
  rw [kind?, node]
  rfl

theorem kind?_leaf {token : TokenId} (h : t.Holds parent (.leaf c token F)) : t.kind? c = some .token := by
  obtain ⟨⟨kept, node, -⟩, -⟩ := h
  rw [kind?, node]
  rfl

theorem solid (h : t.Holds parent F) : (F.roots.filterMap t.kind?).filter (· ≠ .whitespace) = F.solid := by
  induction F generalizing parent with
  | nil => rfl
  | leaf id token rest ih =>
    rw [Forest.roots_leaf, List.filterMap_cons_some h.kind?_leaf, List.filter_cons_of_pos (by simp), ih h.2]
    rfl
  | branch id label inner rest _ ih =>
    rw [Forest.roots_branch, List.filterMap_cons_some h.kind?_branch]
    by_cases white : label = .plain .whitespace
    · subst white
      exact ih h.2.2
    · have other : label.kind ≠ .whitespace := by
        rintro same
        cases label with
        | plain kind => exact white (congrArg _ same)
        | error mark => cases same
      rw [List.filter_cons_of_pos (by simpa using other), ih h.2.2, Forest.solid_branch white]

theorem solidBelow (h : t.Holds parent (.branch c label inner F)) : t.solidBelow c = inner.solid := by
  obtain ⟨⟨kept, node, -⟩, within, -⟩ := h
  rw [SyntaxTree.solidBelow, kindsBelow, childrenOf, node]
  exact within.solid

/-- The children of a kind, with what stands in each. -/
theorem inside (h : t.Holds parent F) (leaf : kind ≠ .token) (error : kind ≠ .error) :
    (F.roots.filter fun c => t.kind? c = some kind).map t.solidBelow = F.inside kind := by
  induction F generalizing parent with
  | nil => rfl
  | leaf id token rest ih =>
    rw [Forest.roots_leaf, List.filter_cons_of_neg (by simpa [h.kind?_leaf] using leaf.symm)]
    exact ih h.2
  | branch id label inner rest _ ih =>
    rw [Forest.roots_branch]
    by_cases here : label = .plain kind
    · subst here
      rw [List.filter_cons_of_pos (by simp [h.kind?_branch, Label.kind]), List.map_cons, ih h.2.2, h.solidBelow,
        Forest.inside_branch]
    · have other : label.kind ≠ kind := by
        rintro rfl
        cases label with
        | plain kind => exact here rfl
        | error mark => exact error rfl
      rw [List.filter_cons_of_neg (by simpa [h.kind?_branch] using other), ih h.2.2, Forest.inside_branch_of_ne here]

end Holds

namespace At

variable (h : t.At way (.branch p label inner .nil) p)
include h

theorem kind?_branch : t.kind? p = some label.kind := h.inside.kind?_branch

theorem label_eq (sort : t.kind? p = some kind) (error : kind ≠ .error) : label = .plain kind := by
  have same := Option.some.inj (h.kind?_branch.symm.trans sort)
  cases label with
  | plain kind => exact congrArg _ same
  | error mark => exact absurd same.symm error

theorem solidBelow : t.solidBelow p = inner.solid := h.inside.solidBelow

theorem mem_solid (solid : kind ≠ .whitespace) : kind ∈ inner.solid ↔ ∃ c ∈ t.childrenOf p, t.kind? c = some kind := by
  rw [← h.solidBelow, mem_solidBelow solid]

theorem childrenOfKind_inside (leaf : kind ≠ .token) (error : kind ≠ .error) :
    (t.childrenOfKind kind p).map t.solidBelow = inner.inside kind := by
  rw [childrenOfKind, h.children_eq]
  exact h.inside.2.1.inside leaf error

theorem length_childrenOfKind (solid : kind ≠ .whitespace) : (t.childrenOfKind kind p).length = inner.solid.count kind := by
  have all : inner.solid.count kind = (inner.roots.filterMap t.kind?).count kind := by
    rw [← h.inside.2.1.solid]
    exact List.count_filter (by simpa using solid)
  rw [all, childrenOfKind, h.children_eq, List.count, List.countP_filterMap, List.countP_eq_length_filter]
  refine congrArg List.length (List.filter_congr fun c _ => ?_)
  cases t.kind? c <;> simp [beq_eq_decide]

end At

/-! ### Nodes -/

section
variable (h : t.Stands F) (lawful : F.Lawful ts)
include h lawful

/-- An inner node in lawful trees, with what stands in it. -/
theorem Stands.exists_lawfulInner (inner : t.nodes[p]?.map Node.isLeaf = some false) : ∃ way label inner,
    t.At way (.branch p label inner .nil) p ∧ Forest.LawfulNode ts label inner ∧ inner.Lawful ts := by
  obtain ⟨n, found, leaf⟩ := Option.map_eq_some_iff.mp inner
  obtain ⟨A, way, D, B, rfl, place⟩ := h.exists_at (Array.getElem?_eq_some_iff.mp found).1
  have here := (Forest.lawful_append.mp (Forest.lawful_append.mp lawful).1).2.of_plug
  rcases place.eq_of_node found with ⟨token, content, rfl⟩ | ⟨label, inner, content, rfl⟩
  · rw [Node.isLeaf, content] at leaf
    cases leaf
  · exact ⟨way, label, inner, place, here.1, here.2.1⟩

/-- A node of a kind. -/
theorem Stands.exists_lawfulNode (sort : t.kind? p = some kind) (plain : kind ≠ .token ∧ kind ≠ .error) :
    ∃ way inner, t.At way (.branch p (.plain kind) inner .nil) p ∧ Forest.LawfulNode ts (.plain kind) inner ∧
      inner.Lawful ts := by
  obtain ⟨way, label, inner, place, node, below⟩ := h.exists_lawfulInner lawful (isLeaf_of_kind? sort plain.1)
  obtain rfl := place.label_eq sort plain.2
  exact ⟨way, inner, place, node, below⟩

/-- The parent of a node. -/
theorem Stands.exists_lawfulParent (up : t.parent? c = some p) : ∃ way label inner,
    t.At way (.branch p label inner .nil) p ∧ Forest.LawfulNode ts label inner ∧ inner.Lawful ts :=
  h.exists_lawfulInner lawful (h.isLeaf_of_parent? up)

end

/-- A node below another has a parent, which is the other or below it as well. -/
theorem Stands.exists_parent (h : t.Stands F) (below : c ∈ t.descendants p) :
    ∃ q, t.parent? c = some q ∧ (p = q ∨ q ∈ t.descendants p) := by
  have above := h.mem_descendants.mp below
  cases up : t.parent? c with
  | none =>
    rw [ancestors_of_none up] at above
    cases above
  | some q =>
    rw [h.ancestors_of_some up, List.mem_cons] at above
    exact ⟨q, rfl, above.imp_right h.mem_descendants.mpr⟩

/-- In clean trees there are no error nodes. -/
theorem Holds.kind?_of_clean (h : t.Holds parent F) (reasoned : t.Reasoned) (clean : F.Clean) (among : c ∈ F.ids) :
    t.kind? c ≠ some .error := by
  induction F generalizing parent with
  | nil => cases among
  | leaf id token rest ih =>
    rcases List.mem_cons.mp among with rfl | among
    · simp [h.kind?_leaf]
    · exact ih h.2 clean among
  | branch id label inner rest ihInner ihRest =>
    obtain ⟨here, inside, beside⟩ := clean
    rcases List.mem_cons.mp among with rfl | among
    · intro error
      obtain ⟨⟨kept, node, -⟩, -⟩ := h
      obtain ⟨mark, tag⟩ := isMarked_iff.mp (reasoned.kind?_eq_error_iff.mp error)
      rw [tag?, node] at tag
      cases label with
      | plain => cases tag
      | error => cases here
    · exact (List.mem_append.mp among).elim (ihInner h.2.1 inside) (ihRest h.2.2 beside)

end SyntaxTree

/-! ### Files -/

/-- The tree of a file, with or without errors, stands for lawful trees. -/
structure ParsedModel.LawfulAs (m : ParsedModel) (text : String) (F : Forest) : Prop where
  tokens : m.tree.tokens = (tokens text).toArray
  reasoned : m.tree.Reasoned
  top : m.tree.kind? SyntaxTree.root = some .idl
  stands : m.tree.Stands F
  lawful : F.Lawful (SmithyIdl.tokens text).toArray
  conforms : m.hasErrors = .ok false → m.tree.Conforms

theorem exists_lawful (filename text : String) (maxDepth : Nat) :
    ∃ (m : ParsedModel) (F : Forest), parse filename text maxDepth = .ok m ∧ m.LawfulAs text F := by
  obtain ⟨b, F, L, run, finished, -⟩ := Grammar.model_run filename text maxDepth
  have start := Grammar.ofText_shows filename text maxDepth
  have guarded : b.tree.Guarded :=
    Grammar.model_guards (by rw [run]; rfl) start.ends (Grammar.ofText_guarded filename text maxDepth)
  have top : b.tree.kind? SyntaxTree.root = some .idl := finished.placed.kind?_branch
  have lawful : (Buffer.ofText filename text maxDepth).Lawful ⟨⟨SyntaxTree.root, .plain .idl, .nil⟩, [], .nil⟩ :=
    ⟨start, List.forall_mem_singleton.mpr trivial, trivial⟩
  obtain ⟨w, G, lawful', becomes, ordinary⟩ := (Parser.Obeys.obeys (p := Grammar.model) lawful).holds run
  have children : w.inner.children = G := becomes.children_eq rfl
  obtain ⟨⟨root, label, C⟩, outer, L⟩ := w
  obtain rfl : C = G := children
  obtain ⟨⟨n, thin, inner⟩, around⟩ := becomes
  cases around
  obtain rfl : label = .plain .idl := (congrArg OpenNode.label inner).trans (congrArg Prod.snd thin.name)
  have stands := lawful'.shown.stands
  rw [View.whole_of_one] at stands
  have below : C.Lawful b.tree.tokens := lawful'.open' _ List.mem_cons_self
  have here : Forest.LawfulNode b.tree.tokens (.plain .idl) C := .of_ordinary rfl ordinary
  have parsed := parse_of_run run finished.finish
  obtain ⟨b', parsed', sound⟩ := exists_conforming filename text maxDepth
  have same : b'.tree = b.tree := congrArg ParsedModel.tree (Except.ok.inj (parsed'.symm.trans parsed))
  refine ⟨_, _, parsed, finished.tokens, guarded.reasoned, top, stands,
    finished.tokens ▸ Forest.lawful_append.mpr ⟨⟨here, below, trivial⟩, lawful'.loose⟩, fun clean => ?_⟩
  obtain ⟨-, -, conforms⟩ := sound (same ▸ clean)
  exact same ▸ conforms

end SmithyIdl
