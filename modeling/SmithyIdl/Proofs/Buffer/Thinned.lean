import Mathlib.Data.List.Forall2
import SmithyIdl.Proofs.Buffer.Docs
import SmithyIdl.Proofs.Buffer.Unique
import SmithyIdl.Proofs.Tree.Thinned

/-! # Views without some of their whitespace

Whatever a rule of the grammar does, the innermost open node gets further children, and all that was there before stays,
but for documentation comments that were moved (`View.Becomes`). -/

namespace SmithyIdl

/-- The same node without some of its whitespace. -/
structure OpenNode.Thins (m n : OpenNode) : Prop where
  name : m.name = n.name
  children : m.children.Thins n.children

namespace OpenNode.Thins

variable {m n k : OpenNode}

@[refl] theorem refl (n : OpenNode) : n.Thins n := ⟨rfl, .refl _⟩

theorem trans (h : m.Thins n) (h' : n.Thins k) : m.Thins k := ⟨h.name.trans h'.name, h.children.trans h'.children⟩

theorem spine_refl (spine : List OpenNode) : List.Forall₂ OpenNode.Thins spine spine :=
  List.forall₂_same.mpr fun n _ => refl n

theorem spine_trans {spine spine' spine'' : List OpenNode} (h : List.Forall₂ OpenNode.Thins spine spine')
    (h' : List.Forall₂ OpenNode.Thins spine' spine'') : List.Forall₂ OpenNode.Thins spine spine'' := by
  induction h generalizing spine'' with
  | nil => exact h'
  | cons first _ ih =>
    cases h' with
    | cons first' rest => exact .cons (first.trans first') (ih rest)

theorem spine_names {spine spine' : List OpenNode} (h : List.Forall₂ OpenNode.Thins spine spine') :
    spine.map OpenNode.name = spine'.map OpenNode.name := by
  induction h with
  | nil => rfl
  | cons first _ ih => rw [List.map_cons, List.map_cons, first.name, ih]

theorem exists_of_mem {spine spine' : List OpenNode} (h : List.Forall₂ OpenNode.Thins spine spine')
    (among : m ∈ spine) : ∃ n ∈ spine', m.Thins n := by
  induction h with
  | nil => cases among
  | cons first _ ih =>
    rcases List.mem_cons.mp among with rfl | among
    · exact ⟨_, List.mem_cons_self, first⟩
    · obtain ⟨n, among', thin⟩ := ih among
      exact ⟨n, List.mem_cons_of_mem _ among', thin⟩

end OpenNode.Thins

/-- Where documentation comments are out, the open nodes are thinned. -/
theorem DocsOut.thins {place : Option Label → Prop} {d : NodeId} {D : Forest} {spine spine' : List OpenNode}
    (h : DocsOut place d D spine spine') : List.Forall₂ OpenNode.Thins spine' spine := by
  induction h with
  | @here n outer before after inner way children _ _ _ =>
    have out : (before ++ Forest.plug way .nil ++ after).Thins n.children := by
      rw [children]
      exact ((Forest.Thins.refl before).append (.plug (.drop d inner .nil) way)).append (.refl after)
    exact .cons ⟨rfl, out⟩ (OpenNode.Thins.spine_refl outer)
  | deeper _ _ _ ih => exact .cons (.refl _) ih

/-- `w` is `v` without some of its whitespace, and with further children of the innermost node. -/
structure View.Becomes (v : View) (F : Forest) (w : View) : Prop where
  inner : ∃ n : OpenNode, n.Thins v.inner ∧ w.inner = { n with children := n.children ++ F }
  outer : List.Forall₂ OpenNode.Thins w.outer v.outer

namespace View.Becomes

variable {v w u : View} {F G L : Forest} {id : NodeId} {label : Label} {b : Buffer}

theorem refl (v : View) : v.Becomes .nil v := ⟨⟨_, .refl _, by simp⟩, OpenNode.Thins.spine_refl _⟩

theorem grow (v : View) (F : Forest) : v.Becomes F (v.grow F) := ⟨⟨_, .refl _, rfl⟩, OpenNode.Thins.spine_refl _⟩

theorem aside (h : v.Becomes F w) (L : Forest) : v.Becomes F { w with loose := L } := ⟨h.inner, h.outer⟩

theorem names (h : v.Becomes F w) : w.names = v.names := by
  obtain ⟨⟨n, thin, inner⟩, outer⟩ := h
  have first : w.inner.name = v.inner.name := by
    rw [inner]
    exact thin.name
  rw [View.names, View.names, View.spine, View.spine, List.map_cons, List.map_cons, first,
    OpenNode.Thins.spine_names outer]

/-- What was added first may lose whitespace later. -/
theorem trans (h : v.Becomes F w) (h' : w.Becomes G u) : ∃ F', F'.Thins F ∧ v.Becomes (F' ++ G) u := by
  obtain ⟨⟨n, thin, inner⟩, outer⟩ := h
  obtain ⟨⟨m, thin', inner'⟩, outer'⟩ := h'
  have children := thin'.children
  rw [inner] at children
  obtain ⟨before, F', same, left, right⟩ := children.split
  have name : m.name = n.name := thin'.name.trans (inner ▸ rfl)
  refine ⟨F', right, ⟨⟨m.id, m.label, before⟩, ⟨name.trans thin.name, left.trans thin.children⟩, ?_⟩,
    OpenNode.Thins.spine_trans outer' outer⟩
  rw [inner', same, Forest.append_assoc]

theorem trans_grow (h : v.Becomes F w) (G : Forest) : v.Becomes (F ++ G) (w.grow G) := by
  obtain ⟨⟨n, thin, inner⟩, outer⟩ := h
  refine ⟨⟨n, thin, ?_⟩, outer⟩
  rw [View.grow, inner, Forest.append_assoc]

/-- In an empty node all children are those that were added. -/
theorem children_eq (h : v.Becomes F w) (empty : v.inner.children = .nil) : w.inner.children = F := by
  obtain ⟨⟨n, thin, inner⟩, -⟩ := h
  have none := thin.children
  rw [empty] at none
  rw [inner, none.eq_nil]
  rfl

/-- A node that was opened and closed is one further child. -/
theorem leave (h : (v.enter id label).Becomes F w) : v.Becomes (.branch id label F .nil) w.leave := by
  have children := h.children_eq rfl
  obtain ⟨⟨n, thin, inner⟩, outer⟩ := h
  obtain ⟨⟨i, l, C⟩, around, L⟩ := w
  obtain rfl : C = F := children
  have name : (i, l) = (id, label) := by
    have same : (i, l) = n.name := congrArg OpenNode.name inner
    exact same.trans thin.name
  cases name
  cases outer with
  | cons first rest => exact ⟨⟨_, first, rfl⟩, rest⟩

/-- Documentation comments are adopted by an empty node. -/
theorem adopt {place : Option Label → Prop} {d : NodeId} {D : Forest} {outer : List OpenNode}
    (out : DocsOut place d D v.spine (v.inner :: outer)) (L : Forest) :
    v.Becomes D (View.grow ⟨v.inner, outer, L⟩ D) := by
  cases out.thins with
  | cons first rest => exact ⟨⟨_, .refl _, rfl⟩, rest⟩

/-- The children of the open nodes, where something holds of all that were there and of those that were added. -/
theorem forall_children {P : Forest → Prop} (append : ∀ {F G}, P (F ++ G) ↔ P F ∧ P G)
    (thin : ∀ {F G : Forest}, G.Thins F → P F → P G) (h : v.Becomes F w) (before : ∀ n ∈ v.spine, P n.children)
    (added : P F) : ∀ n ∈ w.spine, P n.children := by
  obtain ⟨⟨n, first, inner⟩, outer⟩ := h
  obtain ⟨here, around⟩ := List.forall_mem_cons.mp before
  refine List.forall_mem_cons.mpr ⟨?_, fun m among => ?_⟩
  · rw [inner]
    exact append.mpr ⟨thin first.children here, added⟩
  · obtain ⟨k, among', thin'⟩ := OpenNode.Thins.exists_of_mem outer among
    exact thin thin'.children (around k among')

end View.Becomes

/-! ### One view -/

/-- The names of the open nodes tell what is below each of them. -/
theorem Buffer.Shows.spine_unique {b : Buffer} {v w : View} (h : b.Shows v) (h' : b.Shows w)
    (names : w.names = v.names) : w.spine = v.spine := by
  have whole : w.whole = v.whole := h'.placed.unique h.placed (by rw [View.whole_roots, View.whole_roots, names])
  exact (SmithyIdl.spine_unique names rfl whole).1

theorem View.AwaitsIn.of_spine {place : Option Label → Prop} {v w : View} {docs : Option NodeId}
    (h : v.AwaitsIn place docs) (same : w.spine = v.spine) : w.AwaitsIn place docs := by
  rw [View.AwaitsIn, same]
  exact h

end SmithyIdl
