import SmithyIdl.Proofs.Tree.Links

/-! # Where nodes start

A node starts behind the tokens of all that stands before it. From node to node, in the order of the text, the
number of these tokens does not fall. -/

namespace SmithyIdl

namespace Forest

variable {F D A B inner : Forest} {way : List Frame} {label : Label} {i e : NodeId} {n k : Nat}

/-- All names in order, each with the number of tokens before it, if there are `n` before the first. -/
def starts : Nat → Forest → List (NodeId × Nat)
  | _, nil => []
  | n, leaf id _ rest => (id, n) :: rest.starts (n + 1)
  | n, branch id _ inner rest => (id, n) :: (inner.starts n ++ rest.starts (n + inner.tokens.length))

theorem map_fst_starts (n : Nat) (F : Forest) : (F.starts n).map Prod.fst = F.ids := by
  induction F generalizing n with
  | nil => rfl
  | leaf id token rest ih => simp [starts, ih]
  | branch id label inner rest ihInner ihRest => simp [starts, ihInner, ihRest]

theorem starts_bounds {x : NodeId × Nat} (hx : x ∈ F.starts n) : n ≤ x.2 ∧ x.2 ≤ n + F.tokens.length := by
  induction F generalizing n with
  | nil => cases hx
  | leaf id token rest ih =>
    rw [tokens_leaf, List.length_cons]
    rcases List.mem_cons.mp hx with rfl | hx
    · exact ⟨Nat.le_refl _, Nat.le_add_right ..⟩
    · have := ih hx
      omega
  | branch id label inner rest ihInner ihRest =>
    rw [tokens_branch, List.length_append]
    rcases List.mem_cons.mp hx with rfl | hx
    · exact ⟨Nat.le_refl _, Nat.le_add_right ..⟩
    rcases List.mem_append.mp hx with hx | hx
    · have := ihInner hx
      omega
    · have := ihRest hx
      omega

theorem starts_pairwise (n : Nat) (F : Forest) : (F.starts n).Pairwise (·.2 ≤ ·.2) := by
  induction F generalizing n with
  | nil => exact .nil
  | leaf id token rest ih =>
    refine .cons (fun x hx => ?_) (ih _)
    exact Nat.le_trans (Nat.le_succ n) (starts_bounds hx).1
  | branch id label inner rest ihInner ihRest =>
    refine .cons (fun x hx => ?_) (List.pairwise_append.mpr ⟨ihInner n, ihRest _, fun x hx y hy => ?_⟩)
    · rcases List.mem_append.mp hx with hx | hx
      · exact (starts_bounds hx).1
      · exact Nat.le_trans (Nat.le_add_right ..) (starts_bounds hx).1
    · exact Nat.le_trans (starts_bounds hx).2 (starts_bounds hy).1

/-- The items before a place. -/
def itemsUpTo (A : Forest) (way : List Frame) : List Item := A.items ++ itemsBefore way

theorem itemsBefore_append (c d : List Frame) : itemsBefore (c ++ d) = itemsBefore d ++ itemsBefore c := by
  induction c with
  | nil => simp [itemsBefore]
  | cons f c ih => simp [itemsBefore, ih]

theorem items_place (A B D : Forest) (way : List Frame) :
    (A ++ plug way D ++ B).items = itemsUpTo A way ++ D.items ++ (itemsAfter way ++ B.items) := by
  simp [itemsUpTo, items_plug]

/-- The place of a name has as many tokens before it. -/
theorem exists_place_of_starts (h : (i, k) ∈ F.starts n) : ∃ A way D B, F = A ++ plug way D ++ B ∧ D.roots = [i] ∧
    k = n + ((itemsUpTo A way).filterMap Item.token?).length := by
  induction F generalizing n with
  | nil => cases h
  | leaf id token rest ih =>
    rcases List.mem_cons.mp h with same | h
    · cases same
      exact ⟨nil, [], leaf i token nil, rest, rfl, rfl, rfl⟩
    · obtain ⟨A, way, D, B, rfl, one, rfl⟩ := ih h
      refine ⟨leaf id token A, way, D, B, rfl, one, ?_⟩
      simp only [itemsUpTo, items_leaf, List.cons_append, List.filterMap_cons, List.length_cons]
      omega
  | branch id label inner rest ihInner ihRest =>
    have alone : (label.item? id).toList.filterMap Item.token? = [] := by
      have := tokens_eq (branch id label nil nil)
      simpa using this.symm
    rcases List.mem_cons.mp h with same | h
    · cases same
      exact ⟨nil, [], branch i label inner nil, rest, rfl, rfl, rfl⟩
    rcases List.mem_append.mp h with h | h
    · obtain ⟨A, way, D, B, rfl, one, rfl⟩ := ihInner h
      refine ⟨nil, way ++ [⟨id, label, A, B⟩], D, rest, by simp [plug_append], one, ?_⟩
      simp [itemsUpTo, itemsBefore_append, itemsBefore, alone]
    · obtain ⟨A, way, D, B, rfl, one, rfl⟩ := ihRest h
      refine ⟨branch id label inner A, way, D, B, rfl, one, ?_⟩
      simp only [itemsUpTo, items_branch, List.filterMap_append, alone, List.nil_append, List.length_append,
        ← tokens_eq]
      omega

/-- If the tokens are all up to some number, and before an item stand just those before `m`, they are those before it
    in order too. -/
theorem tokens_up_to {P S : List Item} {x : Item} {n m : Nat} (sorted : (P ++ x :: S).Pairwise Item.Before)
    (tokens : (P ++ x :: S).filterMap Item.token? = List.range n) (alone : x.token? = none) (le : m ≤ n)
    (before : ∀ y ∈ P ++ x :: S, ∀ j ∈ y.token?, y.id < x.id ↔ j < m) :
    P.filterMap Item.token? = List.range m := by
  obtain ⟨-, behind, across⟩ := List.pairwise_append.mp sorted
  rw [List.filterMap_append, List.filterMap_cons_none alone] at tokens
  have first {j : TokenId} (hj : j ∈ P.filterMap Item.token?) : j < m := by
    obtain ⟨y, hy, token⟩ := List.mem_filterMap.mp hj
    exact (before y (List.mem_append_left _ hy) j token).mp (across y hy x List.mem_cons_self).id
  have second {j : TokenId} (hj : j ∈ S.filterMap Item.token?) : m ≤ j := by
    obtain ⟨y, hy, token⟩ := List.mem_filterMap.mp hj
    have later := (List.rel_of_pairwise_cons behind hy).id
    refine Nat.le_of_not_lt fun lt => Nat.lt_asymm later ?_
    exact (before y (List.mem_append_right _ (List.mem_cons_of_mem _ hy)) j token).mpr lt
  have kept : (P.filterMap Item.token?).filter (· < m) = P.filterMap Item.token? :=
    List.filter_eq_self.mpr fun j hj => decide_eq_true (first hj)
  have dropped : (S.filterMap Item.token?).filter (· < m) = [] :=
    List.filter_eq_nil_iff.mpr fun j hj lt => Nat.not_lt_of_le (second hj) (of_decide_eq_true lt)
  have all : (List.range n).filter (· < m) = List.range m := by
    obtain ⟨d, rfl⟩ := Nat.exists_eq_add_of_le le
    rw [List.range_add, List.filter_append, List.filter_eq_self.mpr, List.filter_eq_nil_iff.mpr, List.append_nil]
    · simp
    · simp
  rw [← all, ← tokens, List.filter_append, kept, dropped, List.append_nil]

end Forest

namespace SyntaxTree

variable {t : SyntaxTree} {parent : Option NodeId} {F : Forest} {e i : NodeId} {token : TokenId}

theorem Holds.mem_tokens (h : t.Holds parent F) (among : i ∈ F.ids) (leaf : t.tag? i = some (.inl token)) :
    token ∈ F.tokens := by
  induction F generalizing parent with
  | nil => cases among
  | leaf id token' rest ih =>
    obtain ⟨⟨kept, node, -⟩, beside⟩ := h
    rcases List.mem_cons.mp among with rfl | among
    · rw [tag?, node] at leaf
      cases leaf
      exact List.mem_cons_self
    · exact List.mem_cons_of_mem _ (ih beside among)
  | branch id label inner rest ihInner ihRest =>
    obtain ⟨⟨kept, node, -⟩, below, beside⟩ := h
    rcases List.mem_cons.mp among with rfl | among
    · rw [tag?, node] at leaf
      cases leaf
    rcases List.mem_append.mp among with among | among
    · exact List.mem_append_left _ (ihInner below among)
    · exact List.mem_append_right _ (ihRest beside among)

theorem Holds.tag?_of_item (h : t.Holds parent F) {x : Item} (among : x ∈ F.items) (has : token ∈ x.token?) :
    t.tag? x.id = some (.inl token) := by
  induction F generalizing parent with
  | nil => cases among
  | leaf id token' rest ih =>
    obtain ⟨⟨kept, node, -⟩, beside⟩ := h
    rcases List.mem_cons.mp among with rfl | among
    · cases has
      rw [tag?, node]
      rfl
    · exact ih beside among
  | branch id label inner rest ihInner ihRest =>
    obtain ⟨-, below, beside⟩ := h
    rcases List.mem_append.mp among with among | among
    · rcases List.mem_append.mp among with among | among
      · rw [Label.item?_eq_some (Option.mem_toList.mp among)] at has
        cases has
      · exact ihInner below among
    · exact ihRest beside among

/-- A leaf below a node has one of its tokens. -/
theorem Stands.mem_leaves (h : t.Stands F) (above : e ∈ t.ancestors i) (leaf : t.tag? i = some (.inl token)) :
    token ∈ t.leaves e := by
  have below := h.mem_descendants.mpr above
  have made : e < t.size := Nat.lt_of_not_le fun out => by
    rw [h.descendants_eq, childrenOf_of_not_made out] at below
    cases below
  obtain ⟨-, way, D, -, -, place⟩ := h.exists_at made
  rw [place.leaves_eq]
  refine place.inside.mem_tokens ?_ leaf
  rw [← place.descendants_eq]
  exact List.mem_cons_of_mem _ below

end SyntaxTree

end SmithyIdl
