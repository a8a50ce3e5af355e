import SmithyIdl.Proofs.Buffer.Steady

/-! # What a buffer builds

A view of a buffer lists the open nodes with the children they have so far, and the trees that were taken out
and stand alone. `b.Shows v` is the invariant of a parse: every node that was ever made stands in the view, the
tokens before the cursor are its leaves, and those of them that are not taken out stand in the order of the
text, with the errors that were reported between them. -/

namespace SmithyIdl

/-- An open node with the children it has so far. -/
structure OpenNode where
  id : NodeId
  label : Label
  children : Forest

/-- The open nodes, and the trees that stand alone. -/
structure View where
  inner : OpenNode
  /-- The open nodes around the innermost one, from the inside out. -/
  outer : List OpenNode
  loose : Forest

/-- What stands around the trees that are added to an open node. -/
def OpenNode.frame (n : OpenNode) : Frame := ⟨n.id, n.label, n.children, .nil⟩

theorem itemsAfter_map_frame (spine : List OpenNode) : Forest.itemsAfter (spine.map OpenNode.frame) = [] := by
  induction spine with
  | nil => rfl
  | cons n spine ih => simpa [Forest.itemsAfter, OpenNode.frame] using ih

/-- The name of an open node, and what it is. -/
def OpenNode.name (n : OpenNode) : NodeId × Label := (n.id, n.label)

namespace View

variable (v : View) (F G : Forest) (id : NodeId) (label : Label)

/-- The open nodes, innermost first. -/
def spine : List OpenNode := v.inner :: v.outer

/-- The names of the open nodes, innermost first. -/
def names : List (NodeId × Label) := v.spine.map OpenNode.name

/-- What stands around the trees that are added, from the inside out. -/
def frames : List Frame := v.spine.map OpenNode.frame

/-- The tree that the open nodes make up. -/
def whole : Forest := Forest.plug v.frames .nil

/-- The innermost node gets further children. -/
def grow : View := { v with inner := { v.inner with children := v.inner.children ++ F } }

/-- A node is opened. -/
def enter : View := ⟨⟨id, label, .nil⟩, v.spine, v.loose⟩

/-- The innermost node is closed and becomes the last child of the next one. -/
def leave : View :=
  match v.outer with
  | [] => v
  | g :: outer =>
    ⟨{ g with children := g.children ++ .branch v.inner.id v.inner.label v.inner.children .nil }, outer, v.loose⟩

/-! ### Changes of a view -/

@[simp] theorem grow_loose : (v.grow F).loose = v.loose := rfl

@[simp] theorem enter_loose : (v.enter id label).loose = v.loose := rfl

@[simp] theorem grow_names : (v.grow F).names = v.names := rfl

@[simp] theorem grow_nil : v.grow .nil = v := by simp [grow]

@[simp] theorem grow_grow : (v.grow F).grow G = v.grow (F ++ G) := by simp [grow]

theorem enter_names : (v.enter id label).names = (id, label) :: v.names := rfl

@[simp] theorem enter_grow_leave : ((v.enter id label).grow F).leave = v.grow (.branch id label F .nil) := by
  simp [enter, grow, leave, spine]

theorem enter_grow_aside_leave (L : Forest) :
    ({ (v.enter id label).grow F with loose := L } : View).leave =
      { v.grow (.branch id label F .nil) with loose := L } := by
  simp [enter, grow, leave, spine]

variable {v} in
/-- Where the innermost of several nodes is closed, the others keep their names. -/
theorem leave_names {n : NodeId × Label} {w : View} (h : v.names = n :: w.names) : v.leave.names = w.names := by
  obtain ⟨inner, outer, loose⟩ := v
  cases outer with
  | nil => simp [names, spine] at h
  | cons g outer => exact (List.cons.inj h).2

theorem leave_loose : v.leave.loose = v.loose := by
  obtain ⟨inner, _ | _, loose⟩ := v <;> rfl

theorem whole_grow : (v.grow F).whole = Forest.plug v.frames F := by
  simp [whole, frames, spine, grow, OpenNode.frame]

theorem whole_of_one (n : OpenNode) (L : Forest) :
    (⟨n, [], L⟩ : View).whole = .branch n.id n.label n.children .nil := by
  simp [whole, frames, spine, OpenNode.frame, Forest.plug]

theorem whole_enter : (v.enter id label).whole = (v.grow (.branch id label .nil .nil)).whole := by
  rw [whole_grow]
  simp [whole, frames, spine, enter, OpenNode.frame]

theorem whole_leave : v.leave.whole = v.whole := by
  obtain ⟨inner, _ | ⟨g, outer⟩, loose⟩ := v
  · rfl
  · simp [whole, frames, spine, leave, OpenNode.frame]

@[simp] theorem items_grow : (v.grow F).whole.items = v.whole.items ++ F.items := by
  rw [whole_grow, whole, Forest.items_plug, Forest.items_plug, frames, itemsAfter_map_frame]
  simp

@[simp] theorem tokens_grow : (v.grow F).whole.tokens = v.whole.tokens ++ F.tokens := by
  simp [Forest.tokens_eq]

/-- A node of a rule is no item. -/
theorem items_enter (kind : TreeKind) : (v.enter id (.plain kind)).whole.items = v.whole.items := by
  rw [whole_enter, items_grow]
  simp [Label.item?]

theorem sorted_grow : (v.grow F).whole.Sorted ↔ (v.whole ++ F).Sorted := by
  rw [Forest.Sorted, Forest.Sorted, items_grow, Forest.items_append]

theorem ids_whole : v.whole.ids.Perm (v.frames.map Frame.id ++ Forest.sideIds v.frames) := by
  have := Forest.ids_plug v.frames .nil
  rwa [Forest.ids_nil, List.append_nil] at this

theorem ids_grow : (v.grow F).whole.ids.Perm (v.whole.ids ++ F.ids) := by
  rw [whole_grow]
  exact (Forest.ids_plug ..).trans (v.ids_whole.symm.append_right _)

end View

/-! ### The invariant -/

namespace Buffer

/-- The nodes of a buffer are those of a view, each in its place, and the leaves are the tokens before the cursor. -/
structure Shows (b : Buffer) (v : View) : Prop where
  openNodes : b.openNodes = v.names.map Prod.fst
  placed : b.tree.Holds none v.whole
  aside : b.tree.Holds none v.loose
  /-- Every node was made once and is kept. -/
  ids : (v.whole.ids ++ v.loose.ids).Perm (List.range b.tree.size)
  tokens : (v.whole.tokens ++ v.loose.tokens).Perm (List.range b.cursor)
  sorted : v.whole.Sorted
  ends : b.EndsWithEof
  cursor : b.cursor ≤ b.eof

variable {b : Buffer} {v : View}

namespace Shows

theorem innermost (h : b.Shows v) : b.innermost = v.inner.id := by
  rw [Buffer.innermost, h.openNodes]
  rfl

theorem length_openNodes (h : b.Shows v) : b.openNodes.length = v.names.length := by
  rw [h.openNodes, List.length_map]

theorem nodup (h : b.Shows v) : (v.whole.ids ++ v.loose.ids).Nodup := h.ids.nodup_iff.mpr List.nodup_range

theorem fits (h : b.Shows v) : v.whole.ids.length + v.loose.ids.length = b.tree.size := by
  simpa using h.ids.length_eq

theorem lt_size (h : b.Shows v) {i : NodeId} (hi : i ∈ v.whole.ids ++ v.loose.ids) : i < b.tree.size :=
  List.mem_range.mp (h.ids.mem_iff.mp hi)

theorem lt_cursor (h : b.Shows v) {i : TokenId} (hi : i ∈ v.whole.tokens ++ v.loose.tokens) : i < b.cursor :=
  List.mem_range.mp (h.tokens.mem_iff.mp hi)

/-- Where no tree stands alone, the leaves are the tokens before the cursor, in order. -/
theorem tokens_whole (h : b.Shows v) (loose : v.loose = .nil) : v.whole.tokens = List.range b.cursor := by
  have all : v.whole.tokens.Perm (List.range b.cursor) := by simpa [loose] using h.tokens
  exact all.eq_of_pairwise (fun i j _ _ hij hji => absurd hij (Nat.lt_asymm hji)) h.sorted.tokens List.pairwise_lt_range

/-- Tokens before the cursor exist. -/
theorem exists_token (h : b.Shows v) {i : TokenId} (hi : i < b.cursor) :
    ∃ token, b.tree.tokens[i]? = some token := by
  obtain ⟨_, last, -⟩ := h.ends
  have bound := (Array.getElem?_eq_some_iff.mp last).1
  exact ⟨_, Array.getElem?_eq_getElem (Nat.lt_of_lt_of_le hi (Nat.le_of_lt (Nat.lt_of_le_of_lt h.cursor bound)))⟩

end Shows

end Buffer

end SmithyIdl
