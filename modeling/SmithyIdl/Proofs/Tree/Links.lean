import SmithyIdl.Proofs.Tree.Standing

/-! # Links of standing trees

What the links of a standing tree say about parents, children and all nodes below one. Functions that follow links
take a bound for their steps. In a standing tree the number of nodes is always enough, so they satisfy the equations
that have no bound. -/

namespace SmithyIdl.SyntaxTree

open Forest

/-- The tokens of the leaves at and below a node, going at most `n` levels down and asking nothing of what is kept. -/
def leavesWithin (t : SyntaxTree) : Nat → NodeId → List TokenId
  | 0, _ => []
  | n + 1, id =>
    match t.nodes[id]?.map Node.content with
    | none => []
    | some (.leaf token) => [token]
    | some (.branch _ children) => children.toList.flatMap (t.leavesWithin n)

/-- The tokens of the leaves at and below a node, from left to right. -/
def leaves (t : SyntaxTree) (id : NodeId) : List TokenId := t.leavesWithin t.size id

variable {t t' : SyntaxTree} {parent : Option NodeId} {F D : Forest} {way : List Frame} {i p c : NodeId}

theorem childrenOf_of_not_made (out : t.size ≤ p) : t.childrenOf p = [] := by
  rw [childrenOf, Array.getElem?_eq_none out]
  rfl

theorem flatMap_leavesWithin (h : t.Holds parent F) {n : Nat} (hn : F.ids.length ≤ n) :
    F.roots.flatMap (t.leavesWithin n) = F.tokens := by
  induction F generalizing parent n with
  | nil => rfl
  | leaf id token rest ih =>
    obtain ⟨⟨kept, node, -⟩, below⟩ := h
    simp only [ids_leaf, List.length_cons] at hn
    obtain ⟨n, rfl⟩ := Nat.exists_eq_add_of_le' (Nat.le_trans (Nat.le_add_left 1 _) hn)
    rw [roots_leaf, List.flatMap_cons, ih below (by omega), leavesWithin, node]
    rfl
  | branch id label inner rest ihInner ihRest =>
    obtain ⟨⟨kept, node, -⟩, within, below⟩ := h
    simp only [ids_branch, List.length_cons, List.length_append] at hn
    obtain ⟨n, rfl⟩ := Nat.exists_eq_add_of_le' (show 1 ≤ n by omega)
    rw [roots_branch, List.flatMap_cons, ihRest below (by omega), leavesWithin, node, tokens_branch]
    exact congrArg (· ++ rest.tokens) (ihInner within (by omega))

/-! ### One place -/

namespace At

theorem lt_size (h : t.At way D i) : i < t.size :=
  h.inside.exists_node (mem_ids_of_mem_roots (h.one ▸ List.mem_singleton_self i))

theorem length_lt (h : t.At way D i) : way.length < t.size := by
  have some := List.length_pos_of_mem (mem_ids_of_mem_roots (h.one ▸ List.mem_singleton_self i) : i ∈ D.ids)
  have := h.fits
  simp only [List.length_append, List.length_map] at this
  omega

/-- The innermost frame belongs to the parent. -/
theorem above (h : t.At way D i) (up : t.parent? i = some p) :
    ∃ f rest, way = f :: rest ∧ f.id = p ∧ t.nodes[p]?.map Node.isLeaf = some false ∧
      t.childrenOf p = f.before.roots ++ i :: f.after.roots := by
  rw [h.parent?_eq] at up
  cases way with
  | nil => cases up
  | cons f rest =>
    cases up
    obtain ⟨kept, node⟩ := Holds.frame (f := f) (c := rest) h.holds
    refine ⟨f, rest, rfl, rfl, by rw [node]; rfl, ?_⟩
    rw [childrenOf, node]
    simp [Node.children, h.one]

/-- A tree among the children of a node stands in a frame of the node. -/
theorem descend {label : Label} {X E Y : Forest} (h : t.At way (.branch p label (X ++ E ++ Y) .nil) p)
    (one : E.roots = [c]) : t.At (⟨p, label, X, Y⟩ :: way) E c := by
  have names : ((⟨p, label, X, Y⟩ :: way).map Frame.id ++ sideIds (⟨p, label, X, Y⟩ :: way) ++ E.ids).Perm
      (way.map Frame.id ++ sideIds way ++ (branch p label (X ++ E ++ Y) nil).ids) := by
    rw [List.perm_iff_count]
    intro a
    simp only [List.map_cons, sideIds_cons, ids_branch, ids_append, ids_nil, List.count_append, List.count_cons,
      List.count_nil]
    omega
  exact ⟨one, h.holds, names.nodup_iff.mpr h.nodup, names.length_eq ▸ h.fits⟩

/-- A child stands in a frame of the node. -/
theorem child (h : t.At way D p) (among : c ∈ t.childrenOf p) : ∃ f E, f.id = p ∧ t.At (f :: way) E c := by
  have made := h.lt_size
  have found : t.nodes[p]? = some t.nodes[p] := Array.getElem?_eq_getElem made
  rcases h.eq_of_node found with ⟨token, content, rfl⟩ | ⟨label, inner, content, rfl⟩
  · simp [childrenOf, found, Node.children, content] at among
  obtain ⟨X, E, Y, rfl, one⟩ := exists_root (F := inner) (i := c) (by
    simpa [childrenOf, found, Node.children, content] using among)
  exact ⟨_, E, rfl, h.descend one⟩

/-- The children of an inner node. -/
theorem children_eq {label : Label} {inner : Forest} (h : t.At way (.branch i label inner .nil) i) :
    t.childrenOf i = inner.roots := by
  obtain ⟨⟨kept, node, -⟩, -⟩ := h.inside
  simp [childrenOf, node, Node.children]

theorem climb_eq (h : t.At way D i) {n : Nat} (hn : way.length ≤ n) : t.climb n i = way.map Frame.id :=
  h.holds.climb_of_place h.one hn

theorem leavesWithin_eq (h : t.At way D i) {n : Nat} (hn : D.ids.length ≤ n) : t.leavesWithin n i = D.tokens := by
  have := flatMap_leavesWithin h.inside hn
  simpa [h.one] using this

theorem gather_eq (h : t.At way D i) {n : Nat} (hn : D.ids.length ≤ n) (seen : Array TokenId) :
    t.gather n seen i = seen ++ D.tokens.toArray := by
  have := foldl_gather h.inside hn seen
  simpa [h.one] using this

theorem descendantsWithin_eq (h : t.At way D i) {n : Nat} (hn : D.ids.length ≤ n) :
    i :: t.descendantsWithin n i = D.ids := by
  have := flatMap_descendantsWithin h.inside hn
  simpa [h.one] using this

theorem leaves_eq (h : t.At way D i) : t.leaves i = D.tokens := h.leavesWithin_eq h.size_ids

theorem descendants_eq (h : t.At way D i) : i :: t.descendants i = D.ids := h.descendantsWithin_eq h.size_ids

end At

/-! ### Parents and children -/

namespace Stands

variable (h : t.Stands F)
include h

theorem lt_of_parent? (up : t.parent? c = some p) : c < t.size ∧ p < t.size := by
  have made : c < t.size := Nat.lt_of_not_le fun out => by
    rw [parent?, Array.getElem?_eq_none out] at up
    cases up
  obtain ⟨-, way, D, -, -, place⟩ := h.exists_at made
  obtain ⟨f, rest, -, -, inner, -⟩ := place.above up
  obtain ⟨n, found, -⟩ := Option.map_eq_some_iff.mp inner
  exact ⟨made, (Array.getElem?_eq_some_iff.mp found).1⟩

theorem mem_childrenOf : c ∈ t.childrenOf p ↔ t.parent? c = some p := by
  constructor
  · intro among
    have made : p < t.size := Nat.lt_of_not_le fun out => by
      rw [childrenOf_of_not_made out] at among
      cases among
    obtain ⟨-, way, D, -, -, place⟩ := h.exists_at made
    obtain ⟨f, E, rfl, below⟩ := place.child among
    exact below.parent?_eq
  · intro up
    obtain ⟨-, way, D, -, -, place⟩ := h.exists_at (h.lt_of_parent? up).1
    obtain ⟨f, rest, -, -, -, children⟩ := place.above up
    simp [children]

/-- Only inner nodes are parents. -/
theorem isLeaf_of_parent? (up : t.parent? c = some p) : t.nodes[p]?.map Node.isLeaf = some false := by
  obtain ⟨-, way, D, -, -, place⟩ := h.exists_at (h.lt_of_parent? up).1
  obtain ⟨f, rest, -, -, inner, -⟩ := place.above up
  exact inner

/-- A node is a child of its parent, once, and of no other node. -/
theorem count_childrenOf (p c : NodeId) :
    (t.childrenOf p).count c = if t.parent? c = some p then 1 else 0 := by
  split
  · next up =>
    obtain ⟨-, way, D, -, -, place⟩ := h.exists_at (h.lt_of_parent? up).1
    obtain ⟨f, rest, rfl, rfl, -, children⟩ := place.above up
    obtain ⟨-, -, -, aside, -, -⟩ := ne_of_nodup place.one place.nodup
    have before : c ∉ f.before.roots := fun hc => aside (by simp [mem_ids_of_mem_roots hc])
    have after : c ∉ f.after.roots := fun hc => aside (by simp [mem_ids_of_mem_roots hc])
    rw [children, List.count_append, List.count_cons_self, List.count_eq_zero_of_not_mem before,
      List.count_eq_zero_of_not_mem after]
  · next other => exact List.count_eq_zero_of_not_mem fun among => other (h.mem_childrenOf.mp among)

end Stands

/-! ### Ways up -/

theorem ancestors_of_none (up : t.parent? i = none) : t.ancestors i = [] := by
  rw [ancestors]
  cases t.size <;> simp [climb, up]

theorem forget_of_none (up : t.parent? i = none) : t.forget i = t.modify i (Node.withCache none) := by
  rw [forget, ancestors_of_none up]
  rfl

namespace Stands

variable (h : t.Stands F)
include h

theorem climb_eq {n : Nat} (hn : t.size ≤ n) (i : NodeId) : t.climb n i = t.ancestors i := by
  by_cases made : i < t.size
  · obtain ⟨-, way, D, -, -, place⟩ := h.exists_at made
    rw [place.climb_eq (Nat.le_trans place.deep hn), place.ancestors_eq]
  · have none : t.parent? i = none := by rw [parent?, Array.getElem?_eq_none (Nat.le_of_not_lt made)]; rfl
    have stop (n : Nat) : t.climb n i = [] := by cases n <;> simp [climb, none]
    rw [ancestors, stop, stop]

/-- The ways up end before all nodes were met. -/
theorem length_ancestors (made : i < t.size) : (t.ancestors i).length < t.size := by
  obtain ⟨-, way, D, -, -, place⟩ := h.exists_at made
  rw [place.ancestors_eq, List.length_map]
  exact place.length_lt

theorem not_mem_ancestors (i : NodeId) : i ∉ t.ancestors i := by
  by_cases made : i < t.size
  · obtain ⟨-, way, D, -, -, place⟩ := h.exists_at made
    rw [place.ancestors_eq]
    intro above
    have self : i ∈ D.ids := mem_ids_of_mem_roots (place.one ▸ List.mem_singleton_self i)
    exact (List.nodup_append.mp place.nodup).2.2 i (List.mem_append_left _ above) i self rfl
  · rw [← h.climb_eq (Nat.le_succ _), climb, parent?, Array.getElem?_eq_none (Nat.le_of_not_lt made)]
    simp

theorem ancestors_of_some (up : t.parent? i = some p) : t.ancestors i = p :: t.ancestors p := by
  rw [← h.climb_eq (Nat.le_succ _), climb, up]
  rfl

/-- What is kept is forgotten at the node and then at its parent, until there is none. -/
theorem forget_of_some (up : t.parent? i = some p) :
    t.forget i = (t.modify i (Node.withCache none)).forget p := by
  have same : (t.modify i (Node.withCache none)).ancestors p = t.ancestors p := by
    rw [ancestors, ancestors, modify_size]
    exact climb_congr ((Alike.withCache none i).parent?_eq p) fun j _ => (Alike.withCache none i).parent?_eq j
  rw [forget, forget, h.ancestors_of_some up, same, List.foldl_cons]

end Stands

/-! ### Ways down -/

namespace Stands

variable (h : t.Stands F)
include h

theorem gather_eq {n : Nat} (hn : t.size ≤ n) (seen : Array TokenId) (i : NodeId) :
    t.gather n seen i = t.gather t.size seen i := by
  by_cases made : i < t.size
  · obtain ⟨-, way, D, -, -, place⟩ := h.exists_at made
    rw [place.gather_eq (Nat.le_trans place.size_ids hn), place.gather_eq place.size_ids]
  · have stop (n : Nat) : t.gather n seen i = seen := by
      cases n <;> simp [gather, Array.getElem?_eq_none (Nat.le_of_not_lt made)]
    rw [stop, stop]

theorem descendantsWithin_eq {n : Nat} (hn : t.size ≤ n) (i : NodeId) :
    t.descendantsWithin n i = t.descendants i := by
  by_cases made : i < t.size
  · obtain ⟨-, way, D, -, -, place⟩ := h.exists_at made
    have same := (place.descendantsWithin_eq (Nat.le_trans place.size_ids hn)).trans place.descendants_eq.symm
    exact (List.cons.inj same).2
  · have stop (n : Nat) : t.descendantsWithin n i = [] := by
      cases n <;> simp [descendantsWithin, childrenOf_of_not_made (Nat.le_of_not_lt made)]
    rw [descendants, stop, stop]

theorem leavesWithin_eq {n : Nat} (hn : t.size ≤ n) (i : NodeId) : t.leavesWithin n i = t.leaves i := by
  by_cases made : i < t.size
  · obtain ⟨-, way, D, -, -, place⟩ := h.exists_at made
    rw [place.leavesWithin_eq (Nat.le_trans place.size_ids hn), place.leaves_eq]
  · have stop (n : Nat) : t.leavesWithin n i = [] := by
      cases n <;> simp [leavesWithin, Array.getElem?_eq_none (Nat.le_of_not_lt made)]
    rw [leaves, stop, stop]

theorem leaves_of_leaf {token : TokenId} (content : t.nodes[i]?.map Node.content = some (.leaf token)) :
    t.leaves i = [token] := by
  rw [← h.leavesWithin_eq (Nat.le_succ _), leavesWithin, content]

/-- The leaves below an inner node are those of its children, in order. -/
theorem leaves_of_branch {label : Label} {children : Array NodeId}
    (content : t.nodes[i]?.map Node.content = some (.branch label children)) :
    t.leaves i = children.toList.flatMap t.leaves := by
  rw [← h.leavesWithin_eq (Nat.le_succ _), leavesWithin, content]
  rfl

/-- The nodes below a node are its children, each before those below it. -/
theorem descendants_eq (i : NodeId) :
    t.descendants i = (t.childrenOf i).flatMap fun child => child :: t.descendants child := by
  rw [← h.descendantsWithin_eq (Nat.le_succ _), descendantsWithin]
  rfl

theorem nodup_descendants (i : NodeId) : (i :: t.descendants i).Nodup := by
  by_cases made : i < t.size
  · obtain ⟨-, way, D, -, -, place⟩ := h.exists_at made
    exact place.descendants_eq ▸ place.nodup_ids
  · rw [h.descendants_eq, childrenOf_of_not_made (Nat.le_of_not_lt made)]
    simp

/-- The nodes below a node are those with the node above them. -/
theorem mem_descendants : c ∈ t.descendants p ↔ p ∈ t.ancestors c := by
  constructor
  · intro below
    have made : p < t.size := Nat.lt_of_not_le fun out => by
      rw [h.descendants_eq, childrenOf_of_not_made out] at below
      cases below
    obtain ⟨A, way, D, B, parts, place⟩ := h.exists_at made
    have among : c ∈ D.ids := place.descendants_eq ▸ List.mem_cons_of_mem _ below
    obtain ⟨down, E, rfl, one, same | above⟩ := exists_place_of_one place.one among
    · exact absurd (same ▸ below) (List.nodup_cons.mp (h.nodup_descendants p)).1
    · have inner : t.At (down ++ way) E c := h.at_of_eq (by rw [plug_append, parts]) one
      rw [inner.ancestors_eq, List.map_append]
      exact List.mem_append_left _ above
  · intro above
    have made : c < t.size := Nat.lt_of_not_le fun out => by
      rw [ancestors_of_none (by rw [parent?, Array.getElem?_eq_none out]; rfl)] at above
      cases above
    obtain ⟨A, way, E, B, parts, place⟩ := h.exists_at made
    rw [place.ancestors_eq] at above
    obtain ⟨f, hf, rfl⟩ := List.mem_map.mp above
    -- The way is cut at the frame of `p`; what is inside stands below `p`.
    obtain ⟨down, rest, rfl⟩ := List.append_of_mem hf
    have outer : t.At rest (.branch f.id f.label (f.before ++ plug down E ++ f.after) .nil) f.id :=
      h.at_of_eq (by rw [parts, plug_append, plug_cons]) rfl
    have self : c ∈ E.ids := mem_ids_of_mem_roots (place.one ▸ List.mem_singleton_self c)
    have names := outer.descendants_eq
    rw [ids_branch, ids_nil, List.append_nil] at names
    rw [(List.cons.inj names).2]
    simp [(ids_plug down E).mem_iff, self]

end Stands

end SmithyIdl.SyntaxTree
