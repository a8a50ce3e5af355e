import SmithyIdl.Proofs.Tree.Extends

/-! # Guarded trees

A tree is guarded when every leaf whose token is an error stands right below an error node, and every error node says
what is wrong. Only a new leaf can break the first, and taking a leaf away from its parent: inner nodes are moved
freely, and a leaf that stands somewhere is not appended again. Only a new node can break the second. -/

namespace SmithyIdl.SyntaxTree

/-- The kind of a token. -/
def tokenKind? (t : SyntaxTree) (token : TokenId) : Option TokenKind := t.tokens[token]?.map Token.kind

/-- A token that is an error may only stand below an error node. -/
def MayHold (t : SyntaxTree) (p : NodeId) (token : TokenId) : Prop :=
  t.tokenKind? token = some .error → ∃ mark, t.tag? p = some (.inr (.error mark))

/-- If the node is a leaf, it stands where its token may. -/
def GuardedAt (t : SyntaxTree) (i : NodeId) : Prop :=
  ∀ token, t.tag? i = some (.inl token) → t.tokenKind? token = some .error →
    ∃ p, t.parent? i = some p ∧ t.MayHold p token

/-- No node is an error node without a problem. -/
def Reasoned (t : SyntaxTree) : Prop := ∀ i, t.tag? i ≠ some (.inr (.plain .error))

/-- Tokens that are errors stand below error nodes only, and every error node has a problem. -/
structure Guarded (t : SyntaxTree) : Prop where
  leaves : ∀ i, t.GuardedAt i
  reasoned : t.Reasoned

variable {t t' : SyntaxTree} {p d i : NodeId} {token : TokenId}

/-! ### Parents -/

theorem parent?_mapChildren (g : Array NodeId → Array NodeId) (p i : NodeId) :
    (t.modify p (Node.mapChildren g)).parent? i = t.parent? i := by
  have nodes := modify_getElem? (t := t) p i (Node.mapChildren g)
  split at nodes
  · exact parent?_of_getElem? nodes (mapChildren_parent g)
  · rw [parent?, nodes, parent?]

theorem parent?_withParent (parent : Option NodeId) (made : d < t.size) (i : NodeId) :
    (t.modify d (Node.withParent parent)).parent? i = if d = i then parent else t.parent? i := by
  rw [parent?, modify_getElem?]
  split
  · next same =>
    subst same
    obtain ⟨node, found⟩ : ∃ node, t.nodes[d]? = some node := ⟨_, Array.getElem?_eq_getElem made⟩
    rw [found]
    rfl
  · rfl

theorem parent?_link (made : d < t.size) (i : NodeId) :
    (t.link p d).parent? i = if d = i then some p else t.parent? i := by
  rw [link, (Alike.forget p).parent?_eq, parent?_mapChildren, parent?_withParent _ made]

theorem parent?_unlink (made : d < t.size) (i : NodeId) :
    (t.unlink p d).parent? i = if d = i then none else t.parent? i := by
  have size : (t.modify p (Node.mapChildren (·.erase d))).size = t.size := modify_size ..
  rw [unlink, (Alike.forget p).parent?_eq, parent?_withParent _ (size ▸ made), parent?_mapChildren]

/-- Only a node that stands nowhere is appended. -/
theorem append_ok (run : t.append p d = .ok t') : t' = t.link p d ∧ d < t.size ∧ t.parent? d = none := by
  obtain ⟨-, alone, -, rfl⟩ := append_eq_ok.mp run
  obtain ⟨node, found, free⟩ := Option.map_eq_some_iff.mp alone
  refine ⟨rfl, (Array.getElem?_eq_some_iff.mp found).1, ?_⟩
  rw [parent?, found, Option.bind_some, free]

/-! ### Guards -/

theorem Extends.tokenKind?_eq (h : t.Extends t') (token : TokenId) : t'.tokenKind? token = t.tokenKind? token := by
  rw [tokenKind?, tokenKind?, h.tokens]

theorem MayHold.extends (h : t.MayHold p token) (ext : t.Extends t') : t'.MayHold p token := fun error => by
  obtain ⟨mark, found⟩ := h (ext.tokenKind?_eq token ▸ error)
  exact ⟨mark, ext.tag?_eq found⟩

/-- A node that stands where it did stays guarded. -/
theorem GuardedAt.extends (h : t.GuardedAt i) (ext : t.Extends t') (tag : t'.tag? i = t.tag? i)
    (parent : t'.parent? i = t.parent? i) : t'.GuardedAt i := fun token found error => by
  obtain ⟨p, above, holds⟩ := h token (tag ▸ found) (ext.tokenKind?_eq token ▸ error)
  exact ⟨p, parent.trans above, holds.extends ext⟩

theorem Reasoned.extends (h : t.Reasoned) (ext : t.Extends t') (size : t'.size = t.size) : t'.Reasoned := fun i found =>
  h i (ext.tag?_of_size size i ▸ found)

theorem Reasoned.add (h : t.Reasoned) {content : NodeContent}
    (new : (t.add content).2.tag? t.size ≠ some (.inr (.plain .error))) : (t.add content).2.Reasoned := fun i found => by
  have bound : i < t.size + 1 := size_add (t := t) content ▸ lt_size_of_tag? found
  by_cases same : i = t.size
  · exact new (same ▸ found)
  · have made : i < t.size := Nat.lt_of_le_of_ne (Nat.le_of_lt_succ bound) same
    exact h i ((Extends.add content).tags i made ▸ found)

/-- Only the leaf that is moved has to be looked at. -/
theorem guarded_link (reasoned : t.Reasoned) (others : ∀ i, i ≠ d → t.GuardedAt i) (made : d < t.size)
    (moved : ∀ token, t.tag? d = some (.inl token) → t.MayHold p token) : (t.link p d).Guarded := by
  have ext := Extends.link (t := t) p d
  have tags := ext.tag?_of_size (link_size p)
  refine ⟨fun i => ?_, reasoned.extends ext (link_size p)⟩
  by_cases same : d = i
  · subst same
    intro token found error
    refine ⟨p, by rw [parent?_link made, if_pos rfl], ?_⟩
    exact (moved token (tags d ▸ found)).extends ext
  · exact (others i (Ne.symm same)).extends ext (tags i) (by rw [parent?_link made, if_neg same])

namespace Guarded

theorem alike (h : t.Guarded) (same : t.Alike t') : t'.Guarded where
  leaves i := (h.leaves i).extends same.to_extends (same.tag?_eq i) (same.parent?_eq i)
  reasoned := h.reasoned.extends same.to_extends same.size_eq

theorem add (h : t.Guarded) {content : NodeContent} (ne : i ≠ t.size) : (t.add content).2.GuardedAt i := by
  have ext := Extends.add (t := t) content
  intro token found
  have bound : i < t.size + 1 := size_add (t := t) content ▸ lt_size_of_tag? found
  have made : i < t.size := Nat.lt_of_le_of_ne (Nat.le_of_lt_succ bound) ne
  refine (h.leaves i).extends ext (ext.tags i made) ?_ token found
  rw [parent?, parent?, add_getElem?_of_lt content made]

theorem addBranch (h : t.Guarded) {label : Label} (sound : label ≠ .plain .error) :
    (t.add (.branch label #[])).2.Guarded := by
  have new : (t.add (.branch label #[])).2.tag? t.size = some (.inr label) := by
    rw [tag?, add_getElem?_size]
    rfl
  refine ⟨fun i => ?_, h.reasoned.add fun error => ?_⟩
  · by_cases same : i = t.size
    · subst same
      intro token found
      rw [new] at found
      cases found
    · exact h.add same
  · rw [new] at error
    cases error
    exact sound rfl

/-- What is appended stands nowhere, so it is no leaf with an error. -/
theorem append (h : t.Guarded) (run : t.append p d = .ok t') : t'.Guarded := by
  obtain ⟨rfl, made, free⟩ := append_ok run
  refine guarded_link h.reasoned (fun i _ => h.leaves i) made fun token leaf error => ?_
  obtain ⟨q, above, -⟩ := h.leaves d token leaf error
  rw [free] at above
  cases above

theorem appendLeaf (h : t.Guarded) (holds : t.MayHold p token) (run : t.appendLeaf p token = .ok t') :
    t'.Guarded := by
  obtain ⟨rfl, made, -⟩ := append_ok run
  have new : (t.add (.leaf token)).2.tag? t.size = some (.inl token) := by
    rw [tag?, add_getElem?_size]
    rfl
  refine guarded_link (h.reasoned.add (by simp [new])) (fun i ne => h.add ne) made fun token' leaf => ?_
  obtain rfl : token = token' := Sum.inl.inj (Option.some.inj (new.symm.trans leaf))
  exact holds.extends (.add _)

/-- An inner node can be taken away from its parent. -/
theorem remove {label : Label} {found : Bool} (h : t.Guarded) (inner : t.tag? d = some (.inr label))
    (run : t.remove p d = .ok (found, t')) : t'.Guarded := by
  rcases remove_eq_ok.mp run with ⟨-, -, rfl⟩ | ⟨-, -, rfl⟩
  · exact h
  · have ext := Extends.unlink (t := t) p d
    have tags := ext.tag?_of_size (unlink_size p)
    refine ⟨fun i => ?_, h.reasoned.extends ext (unlink_size p)⟩
    by_cases same : d = i
    · subst same
      intro token leaf
      rw [tags, inner] at leaf
      cases leaf
    · refine (h.leaves i).extends ext (tags i) ?_
      rw [parent?_unlink (lt_size_of_tag? inner), if_neg same]

end Guarded

end SmithyIdl.SyntaxTree
