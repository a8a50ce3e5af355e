import SmithyIdl.Proofs.Buffer.Edits

/-! # What single steps add

A step adds at most one node, whose content is known, and moves at most the node that it is given. All other nodes are
what they were and stay where they are. -/

namespace SmithyIdl

namespace SyntaxTree

variable {new : TokenId ⊕ Label → Prop} {moved : NodeId → Prop} {t t' t'' : SyntaxTree} {p d i : NodeId}

/-- Nodes of `t'` that are not in `t` are of the kind `new`, and nodes of `t` that are not `moved` stay where they are. -/
structure Adds (new : TokenId ⊕ Label → Prop) (moved : NodeId → Prop) (t t' : SyntaxTree) : Prop where
  size : t.size ≤ t'.size
  tags : ∀ {i tag}, t'.tag? i = some tag → t.tag? i = some tag ∨ t.size ≤ i ∧ new tag
  parents : ∀ {i}, i < t.size → ¬ moved i → t'.parent? i = t.parent? i

namespace Adds

theorem refl (t : SyntaxTree) : Adds new moved t t := ⟨Nat.le_refl _, .inl, fun _ _ => rfl⟩

theorem trans (h : Adds new moved t t') (h' : Adds new moved t' t'') : Adds new moved t t'' where
  size := Nat.le_trans h.size h'.size
  tags found := by
    rcases h'.tags found with before | ⟨fresh, kind⟩
    · exact h.tags before
    · exact .inr ⟨Nat.le_trans h.size fresh, kind⟩
  parents made still := (h'.parents (Nat.lt_of_lt_of_le made h.size) still).trans (h.parents made still)

theorem mono {new' : TokenId ⊕ Label → Prop} (h : Adds new moved t t') (imp : ∀ tag, new tag → new' tag) :
    Adds new' moved t t' :=
  ⟨h.size, fun found => (h.tags found).imp_right fun ⟨fresh, kind⟩ => ⟨fresh, imp _ kind⟩, h.parents⟩

theorem alike (same : t.Alike t') : Adds new moved t t' where
  size := Nat.le_of_eq same.size_eq.symm
  tags found := .inl ((same.tag?_eq _).symm.trans found)
  parents _ _ := same.parent?_eq _

theorem add {content : NodeContent} (h : ∀ parent kept, new (Node.tag ⟨content, parent, kept⟩)) :
    Adds new moved t (t.add content).2 where
  size := by
    rw [size_add]
    exact Nat.le_succ _
  tags {i tag} found := by
    have made := lt_size_of_tag? found
    rw [size_add] at made
    rcases Nat.lt_succ_iff_lt_or_eq.mp made with old | rfl
    · rw [tag?, add_getElem?_of_lt content old] at found
      exact .inl found
    · rw [tag?, add_getElem?_size content] at found
      cases found
      exact .inr ⟨Nat.le_refl _, h _ _⟩
  parents made _ := parent?_add_of_lt content made

theorem append (run : t.append p d = .ok t') (h : moved d) : Adds new moved t t' where
  size := Nat.le_of_eq (size_append run).symm
  tags found := .inl (((Extends.append run).tag?_of_size (size_append run) _).symm.trans found)
  parents _ still := parent?_append_of_ne run fun same => still (same ▸ h)

theorem remove {found : Bool} (run : t.remove p d = .ok (found, t')) (h : moved d) : Adds new moved t t' where
  size := Nat.le_of_eq (size_remove run).symm
  tags tagged := .inl (((Extends.remove run).tag?_of_size (size_remove run) _).symm.trans tagged)
  parents _ still := parent?_remove_of_ne run fun same => still (same ▸ h)

/-- A new node that is put into another one. -/
theorem append_new {content : NodeContent} (run : (t.add content).2.append p t.size = .ok t')
    (h : ∀ parent kept, new (Node.tag ⟨content, parent, kept⟩)) : Adds new moved t t' where
  size := Nat.le_trans (add h : Adds new moved t _).size (Nat.le_of_eq (size_append run).symm)
  tags found := (add h : Adds new moved t _).tags
    (((Extends.append run).tag?_of_size (size_append run) _).symm.trans found)
  parents made _ := (parent?_append_of_ne run (Nat.ne_of_lt made)).trans (parent?_add_of_lt content made)

end Adds

end SyntaxTree

namespace Parser

open SyntaxTree (Adds)

variable {b b' : Buffer} {moved : NodeId → Prop} {new : TokenId ⊕ Label → Prop}

theorem shift_adds (run : shift.run b = .ok () b') : Adds (· = .inl b.cursor) moved b.tree b'.tree := by
  obtain ⟨-, t, edit, rfl⟩ := shift_ok run
  exact .append_new edit fun _ _ => rfl

theorem openNode_adds {kind : TreeKind} {node : NodeId} (run : (openNode kind).run b = .ok node b') :
    Adds (· = .inr (.plain kind)) moved b.tree b'.tree := by
  obtain ⟨-, t, edit, rfl⟩ := openNode_edit run
  exact .append_new edit fun _ _ => rfl

theorem addError_adds {mark : Mark} {node : NodeId} (run : (addError mark).run b = .ok node b') :
    Adds (· = .inr (.error mark)) moved b.tree b'.tree := by
  obtain ⟨-, t, edit, rfl⟩ := addError_edit run
  exact .append_new edit fun _ _ => rfl

theorem attach_adds {d : NodeId} (h : moved d) (run : (attach d).run b = .ok () b') :
    Adds new moved b.tree b'.tree := by
  obtain ⟨t, edit, rfl⟩ := attach_ok run
  exact .append edit h

theorem detach_adds {d : NodeId} (h : moved d) (run : (detach d).run b = .ok () b') :
    Adds new moved b.tree b'.tree := by
  rcases detach_edit run with ⟨-, rfl⟩ | ⟨p, found, t, -, edit, rfl⟩
  · exact .refl _
  · exact .remove edit h

theorem adoptDocs_adds {d : NodeId} (h : moved d) (run : (adoptDocs (some d)).run b = .ok () b') :
    Adds new moved b.tree b'.tree := by
  obtain ⟨b₁, taken, put⟩ := adoptDocs_steps run
  exact (detach_adds h taken).trans (attach_adds h put)

theorem encloseInError_adds {d : NodeId} {problem : Problem} (h : moved d)
    (run : (encloseInError d problem).run b = .ok () b') :
    ∃ mark, mark.problem = problem ∧ Adds (· = .inr (.error mark)) moved b.tree b'.tree := by
  obtain ⟨start, t₁, range, t₂, b₁, t', read, read', added, edit, rfl⟩ := encloseInError_edit run
  have same := (SyntaxTree.Still.keeps (r := Reading.start d) read).trans
    (SyntaxTree.Still.keeps (r := Reading.range d) read')
  exact ⟨_, rfl, (Adds.alike same).trans ((addError_adds added).trans (.append edit h))⟩

end Parser

end SmithyIdl
