import Mathlib.Data.List.Basic
import SmithyIdl.Proofs.Tree.Edited

/-! # Where an edit is seen

An edit changes the children of one node, so it is seen at that node and at those above it, and nowhere else. In each
of their subtrees one stretch of nodes is replaced, and with it the tokens of its leaves. -/

namespace SmithyIdl.SyntaxTree

variable {t t' : SyntaxTree} {F F' : Forest} {p c i a b : NodeId} {old new : List NodeId}

/-- A node and all nodes below it, in the order of the text. -/
def subtree (t : SyntaxTree) (i : NodeId) : List NodeId := i :: t.descendants i

/-- The tokens of the leaves among some nodes. -/
def tokensOf (t : SyntaxTree) (ids : List NodeId) : List TokenId :=
  ids.filterMap fun i => t.nodes[i]?.bind Node.token?

/-! ### Subtrees -/

theorem tokensOf_append (ids ids' : List NodeId) : t.tokensOf (ids ++ ids') = t.tokensOf ids ++ t.tokensOf ids' :=
  List.filterMap_append

theorem tokensOf_congr (tags : ∀ i, t'.tag? i = t.tag? i) (ids : List NodeId) : t'.tokensOf ids = t.tokensOf ids := by
  rw [tokensOf, tokensOf]
  congr 1
  funext i
  rw [token?_eq_tag?, token?_eq_tag?, tags]

theorem Holds.tokensOf_ids {parent : Option NodeId} (h : t.Holds parent F) : t.tokensOf F.ids = F.tokens := by
  induction F generalizing parent with
  | nil => rfl
  | leaf id token rest ih =>
    obtain ⟨⟨kept, node, -⟩, below⟩ := h
    rw [Forest.ids_leaf, tokensOf, List.filterMap_cons_some (by rw [node]; rfl), ← tokensOf, ih below, Forest.tokens_leaf]
  | branch id label inner rest ihInner ihRest =>
    obtain ⟨⟨kept, node, -⟩, within, below⟩ := h
    rw [Forest.ids_branch, tokensOf, List.filterMap_cons_none (by rw [node]; rfl), ← tokensOf, tokensOf_append,
      ihInner within, ihRest below, Forest.tokens_branch]

namespace Stands

variable (h : t.Stands F)
include h

theorem leaves_eq_tokensOf (i : NodeId) : t.leaves i = t.tokensOf (t.subtree i) := by
  by_cases made : i < t.size
  · obtain ⟨-, way, D, -, -, place⟩ := h.exists_at made
    rw [subtree, place.descendants_eq, place.inside.tokensOf_ids, place.leaves_eq]
  · have out : t.nodes[i]? = none := Array.getElem?_eq_none (Nat.le_of_not_lt made)
    rw [← h.leavesWithin_eq (Nat.le_succ _), leavesWithin, subtree, h.descendants_eq,
      childrenOf_of_not_made (Nat.le_of_not_lt made), tokensOf, out]
    simp [out]

/-- The tokens of a node are those of the leaves in its subtree. -/
theorem tokenIds_run' (made : i < t.size) :
    (Reading.tokenIds i).run' t = .ok (t.tokensOf (t.subtree i)).toArray := by
  obtain ⟨-, way, D, -, -, place⟩ := h.exists_at made
  rw [← h.leaves_eq_tokensOf, place.leaves_eq]
  exact (reads_tokenIds place.inside place.one place.size_ids place.nodup_ids).run'

theorem subtree_eq (i : NodeId) : t.subtree i = i :: (t.childrenOf i).flatMap t.subtree := by
  rw [subtree, h.descendants_eq]
  rfl

theorem mem_subtree : c ∈ t.subtree i ↔ i ∈ c :: t.ancestors c := by
  rw [subtree, List.mem_cons, List.mem_cons, h.mem_descendants, eq_comm]

/-- What is above a node that is `p` or above `p` is above `p`. -/
theorem mem_ancestors_of_child (among : c ∈ t.childrenOf i) (above : c ∈ p :: t.ancestors p) : i ∈ t.ancestors p := by
  have below : p ∈ t.subtree c := h.mem_subtree.mpr above
  rw [← h.mem_descendants, h.descendants_eq]
  exact List.mem_flatMap.mpr ⟨c, among, below⟩

/-- Only one child of a node can be `p` or above `p`. -/
theorem aside_of_sibling {L M : List NodeId} (children : t.childrenOf a = L ++ b :: M) (above : b ∈ p :: t.ancestors p)
    (among : c ∈ L ∨ c ∈ M) : c ∉ p :: t.ancestors p := by
  intro above'
  have here : p ∈ t.subtree b := h.mem_subtree.mpr above
  have there : p ∈ t.subtree c := h.mem_subtree.mpr above'
  have nodup : (t.subtree a).Nodup := h.nodup_descendants a
  rw [h.subtree_eq, children, List.flatMap_append, List.flatMap_cons, List.nodup_cons, List.nodup_append,
    List.nodup_append] at nodup
  obtain ⟨-, -, ⟨-, -, apart⟩, apart'⟩ := nodup
  rcases among with among | among
  · have inside : p ∈ L.flatMap t.subtree := List.mem_flatMap.mpr ⟨c, among, there⟩
    exact apart' p inside p (List.mem_append_left _ here) rfl
  · have inside : p ∈ M.flatMap t.subtree := List.mem_flatMap.mpr ⟨c, among, there⟩
    exact apart p here p inside rfl

theorem aside_of_child (among : c ∈ t.childrenOf p) : c ∉ p :: t.ancestors p := fun above =>
  h.not_mem_ancestors p (h.mem_ancestors_of_child among above)

/-- What is handed up from node to node reaches all nodes above `p`. -/
theorem above_induction {P : NodeId → Prop} (here : P p)
    (up : ∀ b a, b ∈ p :: t.ancestors p → P b → t.parent? b = some a → P a) (above : a ∈ p :: t.ancestors p) : P a := by
  have climb {n : Nat} {b : NodeId} (holds : P b) (way : b ∈ p :: t.ancestors p) (among : a ∈ t.climb n b) : P a := by
    induction n generalizing b with
    | zero => cases among
    | succ n ih =>
      rw [SyntaxTree.climb] at among
      cases above : t.parent? b with
      | none =>
        rw [above] at among
        cases among
      | some q =>
        rw [above] at among
        have next := up b q way holds above
        rcases List.mem_cons.mp among with rfl | among
        · exact next
        · exact ih next (List.mem_cons_of_mem _ (h.mem_ancestors_of_child (h.mem_childrenOf.mpr above) way)) among
  rcases List.mem_cons.mp above with rfl | above
  · exact here
  · exact climb here List.mem_cons_self above

theorem lt_size_of_above (made : p < t.size) (above : a ∈ p :: t.ancestors p) : a < t.size :=
  h.above_induction (P := (· < t.size)) made (fun _ _ _ _ up => (h.lt_of_parent? up).2) above

/-- What is above a node above `p` is above `p`. -/
theorem above_trans (above : a ∈ b :: t.ancestors b) (above' : b ∈ p :: t.ancestors p) : a ∈ p :: t.ancestors p :=
  h.above_induction above' (fun _ _ _ here up =>
    List.mem_cons_of_mem _ (h.mem_ancestors_of_child (h.mem_childrenOf.mpr up) here)) above

end Stands

/-! ### Edited subtrees -/

/-- In the subtree of `a` the stretch `old` is replaced by `new`. -/
def Splices (t t' : SyntaxTree) (old new : List NodeId) (a : NodeId) : Prop :=
  ∃ before after, t.subtree a = before ++ old ++ after ∧ t'.subtree a = before ++ new ++ after

/-- Both trees stand, with the same nodes, and the children of all nodes but `p` are the same. -/
structure EditedAt (t t' : SyntaxTree) (p : NodeId) : Prop where
  before : ∃ F, t.Stands F
  after : ∃ F, t'.Stands F
  tokens : t'.tokens = t.tokens
  size : t'.size = t.size
  tags : ∀ i, t'.tag? i = t.tag? i
  children : ∀ i, i ≠ p → t'.childrenOf i = t.childrenOf i

namespace EditedAt

variable (e : t.EditedAt t' p)
include e

theorem descendantsWithin_eq {n : Nat} (aside : i ∉ p :: t.ancestors p) :
    t'.descendantsWithin n i = t.descendantsWithin n i := by
  obtain ⟨F, h⟩ := e.before
  induction n generalizing i with
  | zero => rfl
  | succ n ih =>
    simp only [List.mem_cons, not_or] at aside
    rw [descendantsWithin, descendantsWithin, e.children i aside.1]
    refine List.flatMap_congr fun c among => ?_
    rw [ih fun above => aside.2 (h.mem_ancestors_of_child among above)]

/-- A node that is neither `p` nor above `p` has the same subtree. -/
theorem subtree_eq (aside : i ∉ p :: t.ancestors p) : t'.subtree i = t.subtree i := by
  rw [subtree, subtree, descendants, descendants, e.size, e.descendantsWithin_eq aside]

/-- Where a stretch is replaced below a node, it is also below the parent. -/
theorem splices_up (splices : t.Splices t' old new b) (above : b ∈ p :: t.ancestors p) (up : t.parent? b = some a) :
    t.Splices t' old new a := by
  obtain ⟨F, h⟩ := e.before
  obtain ⟨F', h'⟩ := e.after
  obtain ⟨before, after, parts, parts'⟩ := splices
  obtain ⟨L, M, children⟩ := List.append_of_mem (h.mem_childrenOf.mpr up)
  have among : a ∈ t.ancestors p := h.mem_ancestors_of_child (h.mem_childrenOf.mpr up) above
  have ne : a ≠ p := fun same => h.not_mem_ancestors p (same ▸ among)
  have left : L.flatMap t'.subtree = L.flatMap t.subtree :=
    List.flatMap_congr fun c hc => e.subtree_eq (h.aside_of_sibling children above (.inl hc))
  have right : M.flatMap t'.subtree = M.flatMap t.subtree :=
    List.flatMap_congr fun c hc => e.subtree_eq (h.aside_of_sibling children above (.inr hc))
  refine ⟨a :: (L.flatMap t.subtree ++ before), after ++ M.flatMap t.subtree, ?_, ?_⟩
  · rw [h.subtree_eq, children, List.flatMap_append, List.flatMap_cons, parts]
    simp
  · rw [h'.subtree_eq, e.children a ne, children, List.flatMap_append, List.flatMap_cons, parts', left, right]
    simp

/-- What is replaced below `p` is replaced below all nodes above `p`. -/
theorem splices_above (splices : t.Splices t' old new p) (above : a ∈ p :: t.ancestors p) : t.Splices t' old new a := by
  obtain ⟨F, h⟩ := e.before
  exact h.above_induction splices (fun _ _ way here up => e.splices_up here way up) above

end EditedAt

/-! ### The two edits -/

theorem editedAt_append (h : t.Stands F) (run : t.append p c = .ok t') : t.EditedAt t' p where
  before := ⟨F, h⟩
  after := h.append run
  tokens := (Extends.append run).tokens
  size := size_append run
  tags := (Extends.append run).tag?_of_size (size_append run)
  children i ne := by rw [childrenOf_append run, if_neg ne]

theorem lt_size_of_append (run : t.append p c = .ok t') : p < t.size := by
  obtain ⟨inner, -⟩ := append_eq_ok.mp run
  obtain ⟨n, found, -⟩ := Option.map_eq_some_iff.mp inner
  exact (Array.getElem?_eq_some_iff.mp found).1

theorem aside_of_append (run : t.append p c = .ok t') : c ∉ p :: t.ancestors p := by
  obtain ⟨-, -, apart, -⟩ := append_eq_ok.mp run
  simpa [eq_comm] using apart

/-- What is appended comes after all that was below the node. -/
theorem subtree_append (h : t.Stands F) (run : t.append p c = .ok t') : t'.subtree p = t.subtree p ++ t.subtree c := by
  have e := editedAt_append h run
  obtain ⟨F', h'⟩ := e.after
  have left : (t.childrenOf p).flatMap t'.subtree = (t.childrenOf p).flatMap t.subtree :=
    List.flatMap_congr fun i among => e.subtree_eq (h.aside_of_child among)
  rw [h'.subtree_eq, childrenOf_append run, if_pos rfl, List.flatMap_append, left, List.flatMap_singleton,
    e.subtree_eq (aside_of_append run), h.subtree_eq p, List.cons_append]

theorem splices_append (h : t.Stands F) (run : t.append p c = .ok t') :
    t.Splices t' (t.subtree p) (t.subtree p ++ t.subtree c) p :=
  ⟨[], [], by simp, by simp [subtree_append h run]⟩

theorem remove_eq_true : t.remove p c = .ok (true, t') ↔ c ∈ t.childrenOf p ∧ t' = t.unlink p c := by
  rw [remove_eq_ok, childrenOf]
  cases t.nodes[p]? <;> simp

theorem remove_eq_false : t.remove p c = .ok (false, t') ↔ p < t.size ∧ c ∉ t.childrenOf p ∧ t' = t := by
  rw [remove_eq_ok, childrenOf, size]
  cases found : t.nodes[p]? with
  | none => simpa using fun made => absurd (Array.getElem?_eq_none_iff.mp found) (Nat.not_le_of_lt made)
  | some n => simp [(Array.getElem?_eq_some_iff.mp found).1]

theorem editedAt_remove (h : t.Stands F) {found : Bool} (run : t.remove p c = .ok (found, t')) : t.EditedAt t' p where
  before := ⟨F, h⟩
  after := h.remove run
  tokens := (Extends.remove run).tokens
  size := size_remove run
  tags := (Extends.remove run).tag?_of_size (size_remove run)
  children i ne := by rw [childrenOf_remove run, if_neg ne]

/-- A child is taken out with all that is below it. -/
theorem splices_remove (h : t.Stands F) (run : t.remove p c = .ok (true, t')) : t.Splices t' (t.subtree c) [] p := by
  have e := editedAt_remove h run
  obtain ⟨F', h'⟩ := e.after
  obtain ⟨L, M, children⟩ := List.append_of_mem (remove_eq_true.mp run).1
  have once : c ∉ L := fun among => h.aside_of_sibling children List.mem_cons_self (.inl among) List.mem_cons_self
  have left : L.flatMap t'.subtree = L.flatMap t.subtree :=
    List.flatMap_congr fun i among => e.subtree_eq (h.aside_of_child (by simp [children, among]))
  have right : M.flatMap t'.subtree = M.flatMap t.subtree :=
    List.flatMap_congr fun i among => e.subtree_eq (h.aside_of_child (by simp [children, among]))
  refine ⟨p :: L.flatMap t.subtree, M.flatMap t.subtree, ?_, ?_⟩
  · rw [h.subtree_eq, children]
    simp
  · rw [h'.subtree_eq, childrenOf_remove run, if_pos rfl, children, List.erase_append_right _ once,
      List.erase_cons_head, List.flatMap_append, left, right]
    simp

end SmithyIdl.SyntaxTree
