import SmithyIdl.Proofs.Tree.Guard
import SmithyIdl.Proofs.Tree.Place
import SmithyIdl.Proofs.Tree.Reads

/-! # Standing trees

A tree stands as a forest when each of its nodes has one place there. New nodes are put at the end, `append` and
`remove` move one tree of the forest, and no reader moves any, so a tree stands whatever is done with it. -/

namespace SmithyIdl.SyntaxTree

open Forest

/-- The nodes of `t` are those of the forest, each once. -/
structure Stands (t : SyntaxTree) (F : Forest) : Prop where
  holds : t.Holds none F
  ids : F.ids.Perm (List.range t.size)

/-- The tree `D` with the node `i` at its top is plugged into a way of `t`. -/
structure At (t : SyntaxTree) (way : List Frame) (D : Forest) (i : NodeId) : Prop where
  one : D.roots = [i]
  holds : t.Holds none (plug way D)
  nodup : (way.map Frame.id ++ sideIds way ++ D.ids).Nodup
  fits : (way.map Frame.id ++ sideIds way ++ D.ids).length ≤ t.size

variable {t t' : SyntaxTree} {F G D A B : Forest} {way : List Frame} {p d i : NodeId}

namespace Stands

theorem nodup (h : t.Stands F) : F.ids.Nodup := h.ids.nodup_iff.mpr List.nodup_range

theorem mem_ids (h : t.Stands F) : i ∈ F.ids ↔ i < t.size := by
  rw [h.ids.mem_iff, List.mem_range]

theorem length_ids (h : t.Stands F) : F.ids.length = t.size := by
  rw [h.ids.length_eq, List.length_range]

theorem at_of_eq (h : t.Stands F) (parts : F = A ++ plug way D ++ B) (one : D.roots = [i]) : t.At way D i := by
  have places := parts ▸ ids_place A B D way
  have nodup := places.nodup_iff.mp h.nodup
  have length := places.length_eq.symm.trans h.length_ids
  rw [List.length_append] at length
  exact ⟨one, (holds_append.mp (holds_append.mp (parts ▸ h.holds)).1).2, (List.nodup_append.mp nodup).2.1, by omega⟩

theorem exists_at (h : t.Stands F) (made : i < t.size) :
    ∃ A way D B, F = A ++ plug way D ++ B ∧ t.At way D i := by
  obtain ⟨A, way, D, B, parts, one⟩ := exists_place (h.mem_ids.mpr made)
  exact ⟨A, way, D, B, parts, h.at_of_eq parts one⟩

end Stands

namespace At

variable (h : t.At way D i)
include h

theorem deep : way.length ≤ t.size := by
  have := h.fits
  simp only [List.length_append, List.length_map] at this
  omega

theorem size_ids : D.ids.length ≤ t.size := by
  have := h.fits
  simp only [List.length_append] at this
  omega

theorem nodup_ids : D.ids.Nodup := (List.nodup_append.mp h.nodup).2.1

theorem inside : t.Holds (way.head?.map Frame.id) D := Holds.focus h.holds

theorem parent?_eq : t.parent? i = way.head?.map Frame.id := h.holds.parent?_of_place h.one

theorem ancestors_eq : t.ancestors i = way.map Frame.id := h.holds.climb_of_place h.one h.deep

/-- A node is a leaf or the top of a tree. -/
theorem eq_of_node {n : Node} (found : t.nodes[i]? = some n) :
    (∃ token, n.content = .leaf token ∧ D = .leaf i token .nil) ∨
      ∃ label inner, n.content = .branch label inner.roots.toArray ∧ D = .branch i label inner .nil := by
  have inside := h.inside
  rcases eq_of_roots i h.one with ⟨token, rfl⟩ | ⟨label, inner, rfl⟩
  · obtain ⟨⟨kept, node, -⟩, -⟩ := inside
    obtain rfl := Option.some.inj (found.symm.trans node)
    exact .inl ⟨token, rfl, rfl⟩
  · obtain ⟨⟨kept, node, -⟩, -, -⟩ := inside
    obtain rfl := Option.some.inj (found.symm.trans node)
    exact .inr ⟨label, inner, rfl, rfl⟩

end At

/-! ### New nodes -/

theorem stands_new (root : TreeKind) (tokens : Array Token) :
    (new root tokens).Stands (.branch SyntaxTree.root (.plain root) .nil .nil) :=
  ⟨⟨⟨none, rfl, by simp⟩, trivial, trivial⟩, .refl _⟩

theorem Stands.add (h : t.Stands F) {content : NodeContent} (one : D.ids = [t.size])
    (new : (t.add content).2.Holds none D) : (t.add content).2.Stands (F ++ D) := by
  refine ⟨holds_append.mpr ⟨h.holds.add content, new⟩, ?_⟩
  rw [ids_append, one, size_add, List.range_succ]
  exact h.ids.append_right _

theorem Stands.addLeaf (h : t.Stands F) (token : TokenId) :
    (t.addLeaf token).2.Stands (F ++ .leaf t.size token .nil) :=
  h.add rfl (holds_addLeaf token)

theorem Stands.addBranch (h : t.Stands F) (label : Label) :
    (t.add (.branch label #[])).2.Stands (F ++ .branch t.size label .nil .nil) :=
  h.add rfl ⟨⟨none, add_getElem?_size _, by simp⟩, trivial, trivial⟩

/-! ### Places of nodes -/

/-- Trees next to each other may be put in another order. -/
theorem Stands.swap (h : t.Stands (A ++ D ++ B ++ G)) : t.Stands (A ++ B ++ D ++ G) := by
  obtain ⟨holds, ids⟩ := h
  refine ⟨?_, .trans ?_ ids⟩
  · simp only [holds_append] at holds ⊢
    exact ⟨⟨⟨holds.1.1.1, holds.1.2⟩, holds.1.1.2⟩, holds.2⟩
  · rw [List.perm_iff_count]
    intro a
    simp only [ids_append, List.count_append]
    omega

/-- A node without a parent stands at the top. -/
theorem Stands.exists_top (h : t.Stands F) (made : d < t.size) (free : t.parent? d = none) :
    ∃ R D, t.Stands (R ++ D) ∧ D.roots = [d] := by
  obtain ⟨A, way, D, B, rfl, place⟩ := h.exists_at made
  rw [place.parent?_eq] at free
  obtain rfl : way = [] := by simpa using free
  refine ⟨A ++ B, D, ?_, place.one⟩
  rw [plug_nil, ← append_nil (A ++ D ++ B)] at h
  simpa using h.swap

/-- An inner node stands around its children. -/
theorem Stands.exists_inner (h : t.Stands (F ++ G)) (among : p ∈ F.ids) {n : Node} (found : t.nodes[p]? = some n)
    (leaf : n.isLeaf = false) : ∃ R way label inner, t.Stands (R ++ plug way (.branch p label inner .nil) ++ G) ∧
      n.children = inner.roots.toArray := by
  obtain ⟨A, way, D, B, rfl, one⟩ := exists_place among
  have place : t.At way D p := h.at_of_eq (by rw [append_assoc]) one
  rcases place.eq_of_node found with ⟨token, content, -⟩ | ⟨label, inner, content, rfl⟩
  · rw [Node.isLeaf, content] at leaf
    cases leaf
  · exact ⟨A ++ B, way, label, inner, h.swap, by rw [Node.children, content]⟩

/-! ### Moved trees -/

section
variable {R : Forest} {f : Frame} {c : List Frame}

/-- The names of a frame and the way from it, of a tree in it or beside it, and of all other trees. -/
theorem Stands.nodup_frame (h : t.Stands G) (parts : G.ids.Perm (R.ids ++ ((f :: c).map Frame.id ++
    sideIds (f :: c) ++ D.ids))) (one : D.roots = [d]) :
    ((f :: c).map Frame.id ++ sideIds (f :: c) ++ D.ids).Nodup ∧ c.length ≤ t.size ∧
      ∀ i ∈ R.ids, i ≠ d ∧ i ≠ f.id := by
  have nodup := parts.nodup_iff.mp h.nodup
  have length := parts.length_eq.symm.trans h.length_ids
  obtain ⟨-, inner, apart⟩ := List.nodup_append.mp nodup
  refine ⟨inner, ?_, fun i hi => ⟨apart i hi d ?_, apart i hi f.id (by simp)⟩⟩
  · simp only [List.length_append, List.map_cons, List.length_cons, List.length_map] at length
    omega
  · exact List.mem_append_right _ (mem_ids_of_one one)

theorem ids_beside : (R ++ plug (f :: c) .nil ++ D).ids.Perm
    (R.ids ++ ((f :: c).map Frame.id ++ sideIds (f :: c) ++ D.ids)) := by
  have places := ids_place R D .nil (f :: c)
  rw [List.perm_iff_count] at places ⊢
  intro a
  have here := places a
  simp only [List.count_append, ids_nil, List.count_nil] at here ⊢
  omega

theorem ids_inside : (R ++ plug (f :: c) D).ids.Perm
    (R.ids ++ ((f :: c).map Frame.id ++ sideIds (f :: c) ++ D.ids)) := by
  simpa using ids_place R .nil D (f :: c)

/-- A tree is put into a frame. -/
theorem Stands.link (h : t.Stands (R ++ plug (f :: c) .nil ++ D)) (one : D.roots = [d]) (last : f.after = .nil) :
    (t.link f.id d).Stands (R ++ plug (f :: c) D) := by
  obtain ⟨nodup, deep, apart⟩ := h.nodup_frame ids_beside one
  obtain ⟨⟨rest, frame⟩, alone⟩ := by simpa only [holds_append] using h.holds
  obtain ⟨-, inPlace, others⟩ := append_of_holds one nodup frame alone deep last
  refine ⟨holds_append.mpr ⟨rest.of_forgets fun i hi => others i (apart i hi).1 (apart i hi).2, inPlace⟩, ?_⟩
  rw [link_size]
  exact ids_inside.trans (ids_beside.symm.trans h.ids)

/-- A tree is taken out of a frame. -/
theorem Stands.unlink (h : t.Stands (R ++ plug (f :: c) D)) (one : D.roots = [d]) :
    (t.unlink f.id d).Stands (R ++ plug (f :: c) .nil ++ D) := by
  obtain ⟨nodup, deep, apart⟩ := h.nodup_frame ids_inside one
  obtain ⟨rest, frame⟩ := holds_append.mp h.holds
  obtain ⟨-, inPlace, alone, others⟩ := remove_of_holds one nodup frame deep
  refine ⟨holds_append.mpr ⟨holds_append.mpr ⟨rest.of_forgets fun i hi => ?_, inPlace⟩, alone⟩, ?_⟩
  · exact others i (apart i hi).1 (apart i hi).2
  · rw [unlink_size]
    exact ids_beside.trans (ids_inside.symm.trans h.ids)

end

/-- A tree at the top becomes the last child of a node that is no leaf and not in the tree. -/
theorem Stands.append (h : t.Stands F) (run : t.append p d = .ok t') : ∃ F', t'.Stands F' := by
  obtain ⟨inner, free, notBelow, rfl⟩ := append_eq_ok.mp run
  obtain ⟨n, foundP, leaf⟩ := Option.map_eq_some_iff.mp inner
  obtain ⟨m, foundD, alone⟩ := Option.map_eq_some_iff.mp free
  have madeP : p < t.size := (Array.getElem?_eq_some_iff.mp foundP).1
  have madeD : d < t.size := (Array.getElem?_eq_some_iff.mp foundD).1
  obtain ⟨R, D, h, one⟩ := h.exists_top madeD (by rw [parent?, foundD]; exact alone)
  have outside : p ∉ D.ids := fun among => by
    obtain ⟨way, E, rfl, oneE, below⟩ := exists_place_of_one one among
    refine notBelow (below.imp_right fun above => ?_)
    rwa [(h.at_of_eq (B := .nil) (append_nil _).symm oneE).ancestors_eq]
  have among : p ∈ R.ids := by
    have := h.mem_ids.mpr madeP
    rw [ids_append, List.mem_append] at this
    exact this.resolve_right outside
  obtain ⟨R, way, label, inner, h, -⟩ := h.exists_inner among foundP leaf
  exact ⟨_, Stands.link (f := ⟨p, label, inner, .nil⟩) (by simpa using h) one rfl⟩

/-- A child of a node comes to stand at the top. -/
theorem Stands.remove (h : t.Stands F) {found : Bool} (run : t.remove p d = .ok (found, t')) :
    ∃ F', t'.Stands F' := by
  rcases remove_eq_ok.mp run with ⟨-, -, rfl⟩ | ⟨child, -, rfl⟩
  · exact ⟨F, h⟩
  · obtain ⟨n, foundP, among⟩ := Option.map_eq_some_iff.mp child
    have leaf : n.isLeaf = false := by
      obtain ⟨_ | _, _, _⟩ := n
      · simp [Node.children] at among
      · rfl
    have made : p ∈ F.ids := h.mem_ids.mpr (Array.getElem?_eq_some_iff.mp foundP).1
    obtain ⟨R, way, label, inner, h, children⟩ := Stands.exists_inner (G := .nil) (by simpa using h) made foundP leaf
    have root : d ∈ inner.roots := by simpa [children] using among
    obtain ⟨X, D, Y, rfl, one⟩ := exists_root root
    exact ⟨_, Stands.unlink (f := ⟨p, label, X, Y⟩) (by simpa using h) one⟩

/-! ### Readers -/

/-- The tokens that a reader keeps at a node are those below it. -/
theorem Stands.tokenIds (h : t.Stands F) {ids : Array TokenId} (run : Reading.tokenIds i t = .ok (ids, t')) :
    t'.Stands F := by
  have made : i < t.size := Nat.lt_of_not_le fun out => by
    rw [Reading.tokenIds, Array.getElem?_eq_none out] at run
    cases run
  obtain ⟨A, way, D, B, rfl, place⟩ := h.exists_at made
  obtain ⟨t₁, run₁, keeps⟩ := reads_tokenIds place.inside place.one place.size_ids place.nodup_ids
  obtain ⟨-, rfl⟩ : D.tokens.toArray = ids ∧ t₁ = t' := by simpa using run₁.symm.trans run
  have self : i ∈ D.ids := mem_ids_of_mem_roots (place.one ▸ List.mem_singleton_self i)
  have apart := (List.nodup_append.mp place.nodup).2.2
  have outer := ((ids_place A B D way).nodup_iff.mp h.nodup)
  have beside := (List.nodup_append.mp outer).2.2
  have same (j : NodeId) (hj : j ∈ A.ids ++ B.ids) : t₁.nodes[j]? = t.nodes[j]? :=
    keeps.others j fun eq => beside j hj i (List.mem_append_right _ self) eq
  obtain ⟨⟨before, -⟩, after⟩ := by simpa only [holds_append] using h.holds
  refine ⟨holds_append.mpr ⟨holds_append.mpr ⟨?_, ?_⟩, ?_⟩, by rw [keeps.size]; exact h.ids⟩
  · exact before.of_same fun j hj => same j (List.mem_append_left _ hj)
  · refine place.holds.refocus rfl rfl (fun j hj => ?_) (fun j hj => ?_) keeps.holds
    · exact keeps.others j (apart j (List.mem_append_left _ hj) i self)
    · exact keeps.others j (apart j (List.mem_append_right _ hj) i self)
  · exact after.of_same fun j hj => same j (List.mem_append_right _ hj)

theorem Stands.filled (h : t.Stands F) (fills : t.Filled t') : t'.Stands F := by
  induction fills with
  | refl => exact h
  | keep _ run ih => exact ih.tokenIds run

end SmithyIdl.SyntaxTree
