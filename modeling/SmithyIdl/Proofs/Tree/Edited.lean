import SmithyIdl.Proofs.Tree.Ranks

/-! # Links behind an edit

What each edit does to the parents and the children of the nodes. -/

namespace SmithyIdl.SyntaxTree

variable {t t' : SyntaxTree} {p d i : NodeId}

/-! ### Parents -/

theorem parent?_append_of_ne (run : t.append p d = .ok t') (ne : i ≠ d) : t'.parent? i = t.parent? i := by
  obtain ⟨rfl, made, -⟩ := append_ok run
  rw [parent?_link made, if_neg ne.symm]

theorem parent?_remove_of_ne {found : Bool} (run : t.remove p d = .ok (found, t')) (ne : i ≠ d) :
    t'.parent? i = t.parent? i := by
  rcases remove_eq_ok.mp run with ⟨-, -, rfl⟩ | ⟨-, -, rfl⟩
  · rfl
  · rw [unlink, (Alike.forget p).parent?_eq, parent?, modify_getElem?, if_neg ne.symm]
    exact parent?_mapChildren _ p i

theorem parent?_add_of_lt (content : NodeContent) (made : i < t.size) : (t.add content).2.parent? i = t.parent? i := by
  rw [parent?, parent?, add_getElem?_of_lt content made]

theorem parent?_of_not_made (out : t.size ≤ i) : t.parent? i = none := by
  rw [parent?, Array.getElem?_eq_none out]
  rfl

theorem parent?_add_size (content : NodeContent) : (t.add content).2.parent? t.size = none := by
  rw [parent?, add_getElem?_size]
  rfl

/-- A child is taken away from its parent. -/
theorem parent?_remove_of_some {F : Forest} {found : Bool} (stands : t.Stands F) (above : t.parent? d = some p)
    (run : t.remove p d = .ok (found, t')) (i : NodeId) : t'.parent? i = if d = i then none else t.parent? i := by
  rcases remove_eq_ok.mp run with ⟨foreign, -, -⟩ | ⟨-, -, rfl⟩
  · have among := stands.mem_childrenOf.mpr above
    obtain ⟨n, made, none⟩ := Option.map_eq_some_iff.mp foreign
    rw [childrenOf, made] at among
    have : d ∈ n.children := by simpa using among
    simp [this] at none
  · exact parent?_unlink (lt_size_of_parent? above) i

/-! ### Children -/

theorem childrenOf_add (i : NodeId) {content : NodeContent}
    (none : ∀ parent kept, (Node.mk content parent kept).children = #[]) :
    (t.add content).2.childrenOf i = t.childrenOf i := by
  rcases Nat.lt_trichotomy i t.size with old | rfl | out
  · rw [childrenOf, childrenOf, add_getElem?_of_lt content old]
  · rw [childrenOf_of_not_made (Nat.le_refl t.size), childrenOf, add_getElem?_size content, Option.map_some, none]
    rfl
  · rw [childrenOf_of_not_made (Nat.le_of_lt out), childrenOf_of_not_made]
    rw [size_add]
    exact out

theorem childrenOf_withParent (parent : Option NodeId) (i : NodeId) :
    (t.modify d (Node.withParent parent)).childrenOf i = t.childrenOf i := by
  rw [childrenOf, childrenOf, modify_getElem?]
  split
  · rw [Option.map_map]
    rfl
  · rfl

theorem childrenOf_mapChildren_of_ne (g : Array NodeId → Array NodeId) (ne : i ≠ p) :
    (t.modify p (Node.mapChildren g)).childrenOf i = t.childrenOf i := by
  rw [childrenOf, childrenOf, modify_getElem?, if_neg ne.symm]

theorem childrenOf_mapChildren (g : Array NodeId → Array NodeId) (inner : t.nodes[p]?.map Node.isLeaf = some false) :
    ∃ children : Array NodeId, t.childrenOf p = children.toList ∧
      (t.modify p (Node.mapChildren g)).childrenOf p = (g children).toList := by
  obtain ⟨⟨content, parent, kept⟩, found, leaf⟩ := Option.map_eq_some_iff.mp inner
  cases content with
  | leaf => cases leaf
  | branch label children =>
    refine ⟨children, ?_, ?_⟩
    · rw [childrenOf, found]
      rfl
    · rw [childrenOf, modify_getElem?, if_pos rfl, found]
      rfl

/-- A node becomes the last child of the other one. -/
theorem childrenOf_append (run : t.append p d = .ok t') (i : NodeId) :
    t'.childrenOf i = if i = p then t.childrenOf p ++ [d] else t.childrenOf i := by
  obtain ⟨inner, -, -, rfl⟩ := append_eq_ok.mp run
  rw [link, (Alike.forget p).childrenOf_eq]
  split
  · next here =>
    subst here
    have inner' : (t.modify d (Node.withParent (some i))).nodes[i]?.map Node.isLeaf = some false := by
      rw [modify_getElem?, ← inner]
      split
      · rw [Option.map_map]
        rfl
      · rfl
    obtain ⟨children, before, behind⟩ := childrenOf_mapChildren (·.push d) inner'
    rw [behind, Array.toList_push, ← before, childrenOf_withParent]
  · next other => rw [childrenOf_mapChildren_of_ne _ other, childrenOf_withParent]

/-- A node is no child of the other one any more. -/
theorem childrenOf_remove {found : Bool} (run : t.remove p d = .ok (found, t')) (i : NodeId) :
    t'.childrenOf i = if i = p then (t.childrenOf p).erase d else t.childrenOf i := by
  rcases remove_eq_ok.mp run with ⟨foreign, -, rfl⟩ | ⟨child, -, rfl⟩
  · split
    · next here =>
      subst here
      obtain ⟨n, made, none⟩ := Option.map_eq_some_iff.mp foreign
      rw [List.erase_of_not_mem]
      rw [childrenOf, made]
      simpa using none
    · rfl
  · rw [unlink, (Alike.forget p).childrenOf_eq, childrenOf_withParent]
    split
    · next here =>
      subst here
      obtain ⟨⟨content, parent, kept⟩, made, among⟩ := Option.map_eq_some_iff.mp child
      have inner : t.nodes[i]?.map Node.isLeaf = some false := by
        cases content with
        | leaf => simp [Node.children] at among
        | branch =>
          rw [made]
          rfl
      obtain ⟨children, before, behind⟩ := childrenOf_mapChildren (·.erase d) inner
      rw [behind, before]
      exact congrArg Array.toList List.erase_toArray
    · next other => rw [childrenOf_mapChildren_of_ne _ other]

end SmithyIdl.SyntaxTree
