import SmithyIdl.Proofs.Tree.Forest

/-! # The shape of a syntax tree

A tree holds a forest when the nodes that the forest names are linked as the forest says and keep no
tokens but those below them. `link` and `unlink` change one list of children and forget what was kept on
the way to the top, so they change the forest at one open place and nothing beside it. -/

namespace SmithyIdl.SyntaxTree

/-- The nodes of a forest stand in the tree, those at the top below `parent`. -/
def Holds (t : SyntaxTree) : Option NodeId → Forest → Prop
  | _, .nil => True
  | parent, .leaf id token rest =>
    (∃ kept, t.nodes[id]? = some ⟨.leaf token, parent, kept⟩ ∧ ∀ tokens ∈ kept, tokens = #[token]) ∧
      t.Holds parent rest
  | parent, .branch id label inner rest =>
    (∃ kept, t.nodes[id]? = some ⟨.branch label inner.roots.toArray, parent, kept⟩ ∧
        ∀ tokens ∈ kept, tokens = inner.tokens.toArray) ∧
      t.Holds (some id) inner ∧ t.Holds parent rest

/-- The tokens kept at a node are as before or forgotten. -/
def ForgetsAt (t t' : SyntaxTree) (i : NodeId) : Prop :=
  t'.nodes[i]? = t.nodes[i]? ∨ t'.nodes[i]? = t.nodes[i]?.map (Node.withCache none)

section
variable {t t' : SyntaxTree} {parent : Option NodeId} {F G : Forest}

@[simp] theorem holds_nil : t.Holds parent .nil := trivial

theorem holds_append : t.Holds parent (F ++ G) ↔ t.Holds parent F ∧ t.Holds parent G := by
  induction F with
  | nil => simp
  | leaf id token rest ih => simp only [Forest.leaf_append, Holds, ih, and_assoc]
  | branch id label inner rest _ ih => simp only [Forest.branch_append, Holds, ih, and_assoc]

theorem Holds.exists_node (h : t.Holds parent F) {i : NodeId} (hi : i ∈ F.ids) : i < t.size := by
  induction F generalizing parent with
  | nil => cases hi
  | leaf id token rest ih =>
    obtain ⟨⟨kept, node, -⟩, hrest⟩ := h
    rcases List.mem_cons.mp hi with rfl | hi
    · exact (Array.getElem?_eq_some_iff.mp node).1
    · exact ih hrest hi
  | branch id label inner rest ihInner ihRest =>
    obtain ⟨⟨kept, node, -⟩, hinner, hrest⟩ := h
    rcases List.mem_cons.mp hi with rfl | hi
    · exact (Array.getElem?_eq_some_iff.mp node).1
    · rcases List.mem_append.mp hi with hi | hi
      · exact ihInner hinner hi
      · exact ihRest hrest hi

theorem Holds.of_forgets (h : t.Holds parent F) (same : ∀ i ∈ F.ids, ForgetsAt t t' i) :
    t'.Holds parent F := by
  induction F generalizing parent with
  | nil => trivial
  | leaf id token rest ih =>
    obtain ⟨⟨kept, node, right⟩, hrest⟩ := h
    refine ⟨?_, ih hrest fun i hi => same i (List.mem_cons_of_mem _ hi)⟩
    rcases same id List.mem_cons_self with hid | hid
    · exact ⟨kept, hid.trans node, right⟩
    · exact ⟨none, by rw [hid, node]; rfl, by simp⟩
  | branch id label inner rest ihInner ihRest =>
    obtain ⟨⟨kept, node, right⟩, hinner, hrest⟩ := h
    refine ⟨?_, ihInner hinner fun i hi => same i ?_, ihRest hrest fun i hi => same i ?_⟩
    · rcases same id List.mem_cons_self with hid | hid
      · exact ⟨kept, hid.trans node, right⟩
      · exact ⟨none, by rw [hid, node]; rfl, by simp⟩
    · exact List.mem_cons_of_mem _ (List.mem_append_left _ hi)
    · exact List.mem_cons_of_mem _ (List.mem_append_right _ hi)

theorem Holds.of_same (h : t.Holds parent F) (same : ∀ i ∈ F.ids, t'.nodes[i]? = t.nodes[i]?) :
    t'.Holds parent F :=
  h.of_forgets fun i hi => Or.inl (same i hi)

/-- A tree that stands below `parent` has it as its parent. -/
theorem Holds.parent_of_one {id : NodeId} (h : t.Holds parent F) (one : F.roots = [id]) :
    t.nodes[id]?.map Node.parent = some parent := by
  rcases Forest.eq_of_roots id one with ⟨token, rfl⟩ | ⟨label, inner, rfl⟩
  · obtain ⟨⟨_, node, -⟩, -⟩ := h
    rw [node]
    rfl
  · obtain ⟨⟨_, node, -⟩, -⟩ := h
    rw [node]
    rfl

/-- A tree that is moved keeps its inside. -/
theorem Holds.moved {id : NodeId} {parent' : Option NodeId} (h : t.Holds parent F) (one : F.roots = [id])
    (nodup : F.ids.Nodup) (top : t'.nodes[id]? = t.nodes[id]?.map (Node.withParent parent'))
    (same : ∀ i ∈ F.ids, i ≠ id → ForgetsAt t t' i) : t'.Holds parent' F := by
  rcases Forest.eq_of_roots id one with ⟨token, rfl⟩ | ⟨label, inner, rfl⟩
  · obtain ⟨⟨kept, node, right⟩, -⟩ := h
    exact ⟨⟨kept, by rw [top, node]; rfl, right⟩, trivial⟩
  · obtain ⟨⟨kept, node, right⟩, hinner, -⟩ := h
    simp only [Forest.ids_branch, Forest.ids_nil, List.append_nil, List.nodup_cons] at nodup
    refine ⟨⟨kept, by rw [top, node]; rfl, right⟩, hinner.of_forgets fun i hi => ?_, trivial⟩
    exact same i (by simp [hi]) fun heq => nodup.1 (heq ▸ hi)

/-! ### Single nodes -/

theorem modify_getElem? (i j : NodeId) (g : Node → Node) :
    (t.modify i g).nodes[j]? = if i = j then t.nodes[j]?.map g else t.nodes[j]? :=
  Array.getElem?_modify

@[simp] theorem modify_size (i : NodeId) (g : Node → Node) : (t.modify i g).size = t.size :=
  Array.size_modify

@[simp] theorem modify_tokens (i : NodeId) (g : Node → Node) : (t.modify i g).tokens = t.tokens := rfl

/-! ### New nodes -/

theorem size_add (content : NodeContent) : (t.add content).2.size = t.size + 1 := Array.size_push ..

theorem add_getElem?_size (content : NodeContent) : (t.add content).2.nodes[t.size]? = some { content } :=
  Array.getElem?_push_size

theorem add_getElem?_of_lt (content : NodeContent) {i : NodeId} (hi : i < t.size) :
    (t.add content).2.nodes[i]? = t.nodes[i]? :=
  Array.getElem?_push_lt .. |>.trans (Array.getElem?_eq_getElem hi).symm

theorem Holds.add (h : t.Holds parent F) (content : NodeContent) : (t.add content).2.Holds parent F :=
  h.of_same fun _ hi => add_getElem?_of_lt content (h.exists_node hi)

theorem holds_addLeaf (token : TokenId) : (t.addLeaf token).2.Holds none (.leaf t.size token .nil) :=
  ⟨⟨none, add_getElem?_size _, by simp⟩, trivial⟩

end

/-! ### The way to the top -/

section
variable {t : SyntaxTree} {f : Frame} {c : List Frame} {F : Forest}

/-- What stands at an open place stands below the innermost frame. -/
theorem Holds.focus (h : t.Holds none (Forest.plug c F)) : t.Holds (c.head?.map Frame.id) F := by
  induction c generalizing F with
  | nil => exact h
  | cons f c ih =>
    obtain ⟨-, hinner, -⟩ := ih h
    exact (holds_append.mp (holds_append.mp hinner).1).2

/-- The node of the innermost frame. -/
theorem Holds.frame (h : t.Holds none (Forest.plug (f :: c) F)) :
    ∃ kept, t.nodes[f.id]? =
      some ⟨.branch f.label (f.before ++ F ++ f.after).roots.toArray, c.head?.map Frame.id, kept⟩ := by
  obtain ⟨⟨kept, node, -⟩, -, -⟩ := Holds.focus (c := c) h
  exact ⟨kept, node⟩

theorem Holds.climb (h : t.Holds none (Forest.plug (f :: c) F)) {n : Nat} (hn : c.length ≤ n) :
    t.climb n f.id = c.map Frame.id := by
  induction c generalizing f F n with
  | nil =>
    obtain ⟨kept, node⟩ := h.frame
    cases n with
    | zero => rfl
    | succ n => simp [SyntaxTree.climb, SyntaxTree.parent?, node]
  | cons g c ih =>
    obtain ⟨kept, node⟩ := h.frame
    obtain ⟨n, rfl⟩ := Nat.exists_eq_add_of_le' hn
    simp only [List.length_cons] at hn ⊢
    rw [show n + (c.length + 1) = n + c.length + 1 from rfl, SyntaxTree.climb]
    simp only [SyntaxTree.parent?, node, Option.bind_some, List.head?_cons, Option.map_some, List.map_cons]
    rw [ih h (Nat.le_add_left ..)]

end

end SmithyIdl.SyntaxTree
