import SmithyIdl.Proofs.Tree.Shape

/-! # Edits of a syntax tree

`append` puts a tree into the open place of the innermost frame, and `remove` takes it out again. Neither
meets a fault there, and neither touches a node that is not on the way to the top. -/

namespace SmithyIdl.SyntaxTree

variable {t t' : SyntaxTree} {f : Frame} {c : List Frame} {F F' D : Forest} {d : NodeId}

/-! ### What edits ask for -/

theorem refusal?_eq_none {p : NodeId} : t.refusal? p d = none ↔
    t.nodes[p]?.map Node.isLeaf = some false ∧ t.nodes[d]?.map Node.parent = some none ∧
      ¬(p = d ∨ d ∈ t.ancestors p) := by
  unfold refusal?
  cases t.nodes[p]?.map Node.isLeaf with
  | none => simp
  | some leaf =>
    cases leaf with
    | true => simp
    | false =>
      cases t.nodes[d]?.map Node.parent with
      | none => simp
      | some above => cases above <;> simp

/-- What `append` asks for, and what it does then. -/
theorem append_eq_ok {p : NodeId} : t.append p d = .ok t' ↔
    t.nodes[p]?.map Node.isLeaf = some false ∧ t.nodes[d]?.map Node.parent = some none ∧
      ¬(p = d ∨ d ∈ t.ancestors p) ∧ t' = t.link p d := by
  rw [append, ← and_assoc, ← and_assoc, and_assoc (c := ¬(p = d ∨ _)), ← refusal?_eq_none]
  cases t.refusal? p d <;> simp [eq_comm]

theorem remove_eq_ok {p : NodeId} {found : Bool} : t.remove p d = .ok (found, t') ↔
    t.nodes[p]?.map (·.children.contains d) = some false ∧ found = false ∧ t' = t ∨
      t.nodes[p]?.map (·.children.contains d) = some true ∧ found = true ∧ t' = t.unlink p d := by
  rw [remove]
  cases t.nodes[p]?.map (·.children.contains d) with
  | none => simp
  | some child => cases child <;> simp [eq_comm]

/-! ### What is kept -/

theorem foldl_forget_getElem? (l : List NodeId) (j : NodeId) :
    (l.foldl (fun t i => t.modify i (Node.withCache none)) t).nodes[j]? =
      if j ∈ l then t.nodes[j]?.map (Node.withCache none) else t.nodes[j]? := by
  induction l generalizing t with
  | nil => simp
  | cons i l ih =>
    rw [List.foldl_cons, ih, modify_getElem?]
    by_cases hij : i = j
    · subst hij
      by_cases hl : i ∈ l
      · simp only [hl, List.mem_cons_self, if_true, Option.map_map]
        rfl
      · simp [hl]
    · have hji : j ≠ i := fun h => hij h.symm
      simp [hij, hji]

theorem foldl_forget_size (l : List NodeId) :
    (l.foldl (fun t i => t.modify i (Node.withCache none)) t).size = t.size := by
  induction l generalizing t with
  | nil => rfl
  | cons i l ih => rw [List.foldl_cons, ih, modify_size]

theorem foldl_forget_tokens (l : List NodeId) :
    (l.foldl (fun t i => t.modify i (Node.withCache none)) t).tokens = t.tokens := by
  induction l generalizing t with
  | nil => rfl
  | cons i l ih => rw [List.foldl_cons, ih, modify_tokens]

@[simp] theorem link_size (p : NodeId) : (t.link p d).size = t.size := by
  rw [link, forget, foldl_forget_size, modify_size, modify_size]

@[simp] theorem link_tokens (p : NodeId) : (t.link p d).tokens = t.tokens := by
  rw [link, forget, foldl_forget_tokens, modify_tokens, modify_tokens]

@[simp] theorem unlink_size (p : NodeId) : (t.unlink p d).size = t.size := by
  rw [unlink, forget, foldl_forget_size, modify_size, modify_size]

@[simp] theorem unlink_tokens (p : NodeId) : (t.unlink p d).tokens = t.tokens := by
  rw [unlink, forget, foldl_forget_tokens, modify_tokens, modify_tokens]

/-! ### The way to the top is kept -/

/-- Changing the parents of nodes that are not on the way changes no way. -/
theorem climb_congr {n : Nat} {i : NodeId} (top : t'.parent? i = t.parent? i)
    (same : ∀ j ∈ t.climb n i, t'.parent? j = t.parent? j) : t'.climb n i = t.climb n i := by
  induction n generalizing i with
  | zero => rfl
  | succ n ih =>
    rw [climb, climb, top]
    cases hp : t.parent? i with
    | none => rfl
    | some p =>
      rw [climb, hp] at same
      exact congrArg (p :: ·) (ih (same p List.mem_cons_self) fun j hj => same j (List.mem_cons_of_mem _ hj))

theorem parent?_of_getElem? {i : NodeId} {g : Node → Node} (h : t'.nodes[i]? = t.nodes[i]?.map g)
    (keep : ∀ n, (g n).parent = n.parent) : t'.parent? i = t.parent? i := by
  rw [parent?, parent?, h]
  cases t.nodes[i]? with
  | none => rfl
  | some n => exact keep n

theorem mapChildren_parent (g : Array NodeId → Array NodeId) (n : Node) : (n.mapChildren g).parent = n.parent := by
  obtain ⟨_ | _, _, _⟩ := n <;> rfl

/-! ### One open place -/

/-- Outside the innermost frame only what is kept changes, as long as the open place keeps its names. -/
theorem Holds.replug (h : t.Holds none (Forest.plug c F)) (roots : F'.roots = F.roots)
    (path : ∀ g ∈ c, t'.nodes[g.id]? = t.nodes[g.id]?.map (Node.withCache none))
    (sides : ∀ i ∈ Forest.sideIds c, ForgetsAt t t' i) (inside : t'.Holds (c.head?.map Frame.id) F') :
    t'.Holds none (Forest.plug c F') := by
  induction c generalizing F F' with
  | nil => exact inside
  | cons g c ih =>
    obtain ⟨⟨kept, node, -⟩, hinner, -⟩ := Holds.focus (c := c) h
    obtain ⟨hbefore, hafter⟩ := holds_append.mp hinner
    refine ih h rfl (fun g' hg' => path g' (List.mem_cons_of_mem _ hg'))
      (fun i hi => sides i (by simp [hi])) ⟨⟨none, ?_, by simp⟩, ?_, trivial⟩
    · rw [path g List.mem_cons_self, node]
      simp [Node.withCache, roots]
    · refine holds_append.mpr ⟨holds_append.mpr ⟨?_, inside⟩, ?_⟩
      · exact (holds_append.mp hbefore).1.of_forgets fun i hi => sides i (by simp [hi])
      · exact hafter.of_forgets fun i hi => sides i (by simp [hi])

/-- The forest changes in the open place when the innermost frame gets the new children and nothing is kept
    along the way to the top. -/
theorem Holds.edit (h : t.Holds none (Forest.plug (f :: c) F))
    (top : ∀ parent kept, t.nodes[f.id]? =
        some ⟨.branch f.label (f.before ++ F ++ f.after).roots.toArray, parent, kept⟩ →
      t'.nodes[f.id]? = some ⟨.branch f.label (f.before ++ F' ++ f.after).roots.toArray, parent, none⟩)
    (path : ∀ g ∈ c, t'.nodes[g.id]? = t.nodes[g.id]?.map (Node.withCache none))
    (sides : ∀ i ∈ Forest.sideIds (f :: c), ForgetsAt t t' i) (inside : t'.Holds (some f.id) F') :
    t'.Holds none (Forest.plug (f :: c) F') := by
  obtain ⟨⟨kept, node, -⟩, hinner, -⟩ := Holds.focus (c := c) h
  obtain ⟨hbefore, hafter⟩ := holds_append.mp hinner
  refine Holds.replug (c := c) h rfl path (fun i hi => sides i (by simp [hi]))
    ⟨⟨none, top _ _ node, by simp⟩, ?_, trivial⟩
  refine holds_append.mpr ⟨holds_append.mpr ⟨?_, inside⟩, ?_⟩
  · exact (holds_append.mp hbefore).1.of_forgets fun i hi => sides i (by simp [hi])
  · exact hafter.of_forgets fun i hi => sides i (by simp [hi])

/-! ### Links -/

/-- `t'` is `t` with the node `d` moved below `parent`, with new children of `p`, and with nothing kept on the
    way from `p` to the top. -/
structure Rewires (t t' : SyntaxTree) (p d : NodeId) (parent : Option NodeId)
    (g : Array NodeId → Array NodeId) : Prop where
  child : t'.nodes[d]? = t.nodes[d]?.map (Node.withParent parent)
  top : t'.nodes[p]? = t.nodes[p]?.map fun n => (n.mapChildren g).withCache none
  path : ∀ i ∈ t.ancestors p, t'.nodes[i]? = t.nodes[i]?.map (Node.withCache none)
  others : ∀ i, i ≠ d → i ≠ p → ForgetsAt t t' i

theorem rewires_forget {p : NodeId} {parent : Option NodeId} {g : Array NodeId → Array NodeId}
    (child : t'.nodes[d]? = t.nodes[d]?.map (Node.withParent parent))
    (top : t'.nodes[p]? = t.nodes[p]?.map (Node.mapChildren g))
    (others : ∀ i, i ≠ d → i ≠ p → t'.nodes[i]? = t.nodes[i]?) (size : t'.size = t.size) (hpd : p ≠ d)
    (hd : d ∉ t.ancestors p) (hp : p ∉ t.ancestors p) : Rewires t (t'.forget p) p d parent g := by
  have parents : ∀ i, i ≠ d → t'.parent? i = t.parent? i := fun i hi => by
    by_cases hip : i = p
    · exact hip ▸ parent?_of_getElem? top (mapChildren_parent g)
    · exact parent?_of_getElem? (g := id) (by simpa using others i hi hip) fun _ => rfl
  have way : t'.ancestors p = t.ancestors p := by
    rw [ancestors, ancestors, size]
    exact climb_congr (parents p hpd) fun j hj => parents j fun h => hd (h ▸ hj)
  have nodes : ∀ j, (t'.forget p).nodes[j]? =
      if j ∈ p :: t.ancestors p then t'.nodes[j]?.map (Node.withCache none) else t'.nodes[j]? := fun j => by
    rw [forget, foldl_forget_getElem?, way]
  refine ⟨?_, ?_, fun i hi => ?_, fun i hid hip => ?_⟩
  · rw [nodes, if_neg (by simp [hd, hpd.symm]), child]
  · rw [nodes, if_pos List.mem_cons_self, top, Option.map_map]
    rfl
  · rw [nodes, if_pos (List.mem_cons_of_mem _ hi),
      others i (fun h => hd (h ▸ hi)) (fun h => hp (h ▸ hi))]
  · rw [ForgetsAt, nodes, others i hid hip]
    by_cases hi : i ∈ p :: t.ancestors p
    · exact Or.inr (if_pos hi)
    · exact Or.inl (if_neg hi)

theorem link_rewires {p : NodeId} (hpd : p ≠ d) (hd : d ∉ t.ancestors p) (hp : p ∉ t.ancestors p) :
    Rewires t (t.link p d) p d (some p) (·.push d) := by
  refine rewires_forget ?_ ?_ (fun i hid hip => ?_) ?_ hpd hd hp
  · rw [modify_getElem?, modify_getElem?]
    simp [hpd]
  · rw [modify_getElem?, modify_getElem?]
    simp [hpd.symm]
  · rw [modify_getElem?, modify_getElem?]
    simp [Ne.symm hid, Ne.symm hip]
  · rw [modify_size, modify_size]

theorem unlink_rewires {p : NodeId} (hpd : p ≠ d) (hd : d ∉ t.ancestors p) (hp : p ∉ t.ancestors p) :
    Rewires t (t.unlink p d) p d none (·.erase d) := by
  refine rewires_forget ?_ ?_ (fun i hid hip => ?_) ?_ hpd hd hp
  · rw [modify_getElem?, modify_getElem?]
    simp [hpd]
  · rw [modify_getElem?, modify_getElem?]
    simp [hpd.symm]
  · rw [modify_getElem?, modify_getElem?]
    simp [Ne.symm hid, Ne.symm hip]
  · rw [modify_size, modify_size]

/-! ### A tree in the open place -/

section
variable (one : D.roots = [d])
include one

theorem mem_ids_of_one : d ∈ D.ids := Forest.mem_ids_of_mem_roots (one ▸ List.mem_singleton_self d)

variable (nodup : ((f :: c).map Frame.id ++ Forest.sideIds (f :: c) ++ D.ids).Nodup)
include nodup

theorem ne_of_nodup : f.id ≠ d ∧ d ∉ c.map Frame.id ∧ f.id ∉ c.map Frame.id ∧
    d ∉ Forest.sideIds (f :: c) ∧ f.id ∉ Forest.sideIds (f :: c) ∧ f.id ∉ D.ids := by
  have hd := mem_ids_of_one one
  rw [List.nodup_append, List.nodup_append] at nodup
  obtain ⟨⟨path, -, sides⟩, -, below⟩ := nodup
  refine ⟨fun h => ?_, fun h => ?_, (List.nodup_cons.mp path).1, fun h => ?_, fun h => ?_, fun h => ?_⟩
  · exact below f.id (by simp) d hd h
  · exact below d (by simp [h]) d hd rfl
  · exact below d (List.mem_append_right _ h) d hd rfl
  · exact sides f.id (by simp) f.id h rfl
  · exact below f.id (by simp) f.id h rfl

theorem holds_of_rewires_in {g : Array NodeId → Array NodeId}
    (h : t.Holds none (Forest.plug (f :: c) .nil)) (hD : t.Holds none D) (deep : c.length ≤ t.size)
    (r : Rewires t t' f.id d (some f.id) g)
    (new : g (f.before ++ .nil ++ f.after).roots.toArray = (f.before ++ D ++ f.after).roots.toArray) :
    t'.Holds none (Forest.plug (f :: c) D) := by
  obtain ⟨-, -, -, hds, hfs, hfD⟩ := ne_of_nodup one nodup
  have way : t.ancestors f.id = c.map Frame.id := h.climb deep
  refine h.edit (fun parent kept node => ?_) (fun g' hg' => ?_) (fun i hi => ?_) ?_
  · rw [r.top, node, ← new]
    rfl
  · exact r.path _ (way ▸ List.mem_map_of_mem hg')
  · exact r.others i (fun he => hds (he ▸ hi)) (fun he => hfs (he ▸ hi))
  · refine hD.moved one (List.nodup_append.mp nodup).2.1 r.child fun i hi hid => ?_
    exact r.others i hid fun he => hfD (he ▸ hi)

theorem holds_of_rewires_out {g : Array NodeId → Array NodeId}
    (h : t.Holds none (Forest.plug (f :: c) D)) (deep : c.length ≤ t.size) (r : Rewires t t' f.id d none g)
    (new : g (f.before ++ D ++ f.after).roots.toArray = (f.before ++ .nil ++ f.after).roots.toArray) :
    t'.Holds none (Forest.plug (f :: c) .nil) ∧ t'.Holds none D := by
  obtain ⟨-, -, -, hds, hfs, hfD⟩ := ne_of_nodup one nodup
  have way : t.ancestors f.id = c.map Frame.id := h.climb deep
  refine ⟨h.edit (fun parent kept node => ?_) (fun g' hg' => ?_) (fun i hi => ?_) trivial, ?_⟩
  · rw [r.top, node, ← new]
    rfl
  · exact r.path _ (way ▸ List.mem_map_of_mem hg')
  · exact r.others i (fun he => hds (he ▸ hi)) (fun he => hfs (he ▸ hi))
  · refine (Holds.focus h).moved one (List.nodup_append.mp nodup).2.1 r.child fun i hi hid => ?_
    exact r.others i hid fun he => hfD (he ▸ hi)

/-- A tree that stands alone becomes the last child of the innermost frame, and no other tree changes. -/
theorem append_of_holds (h : t.Holds none (Forest.plug (f :: c) .nil)) (hD : t.Holds none D)
    (deep : c.length ≤ t.size) (last : f.after = .nil) :
    t.append f.id d = .ok (t.link f.id d) ∧ (t.link f.id d).Holds none (Forest.plug (f :: c) D) ∧
      ∀ i, i ≠ d → i ≠ f.id → ForgetsAt t (t.link f.id d) i := by
  obtain ⟨hfd, hdc, hfc, -, -, -⟩ := ne_of_nodup one nodup
  have way : t.ancestors f.id = c.map Frame.id := h.climb deep
  have r := link_rewires hfd (way ▸ hdc) (way ▸ hfc)
  refine ⟨?_, holds_of_rewires_in one nodup h hD deep r ?_, r.others⟩
  · obtain ⟨kept, node⟩ := h.frame
    have alone := hD.parent_of_one one
    simp [append_eq_ok, node, alone, Node.isLeaf, hfd, way, hdc]
  · simp [last, one]

/-- A child of the innermost frame stands alone afterwards, and no other tree changes. -/
theorem remove_of_holds (h : t.Holds none (Forest.plug (f :: c) D)) (deep : c.length ≤ t.size) :
    t.remove f.id d = .ok (true, t.unlink f.id d) ∧
      (t.unlink f.id d).Holds none (Forest.plug (f :: c) .nil) ∧ (t.unlink f.id d).Holds none D ∧
      ∀ i, i ≠ d → i ≠ f.id → ForgetsAt t (t.unlink f.id d) i := by
  obtain ⟨hfd, hdc, hfc, hds, -, -⟩ := ne_of_nodup one nodup
  have way : t.ancestors f.id = c.map Frame.id := h.climb deep
  have r := unlink_rewires hfd (way ▸ hdc) (way ▸ hfc)
  have before : d ∉ f.before.roots := fun hd => hds (by simp [Forest.mem_ids_of_mem_roots hd])
  obtain ⟨inPlace, alone⟩ := holds_of_rewires_out one nodup h deep r (by
    simp [one, List.erase_append_right, before])
  refine ⟨?_, inPlace, alone, r.others⟩
  obtain ⟨kept, node⟩ := h.frame
  simp [remove_eq_ok, node, Node.children, one]

end

end SmithyIdl.SyntaxTree
