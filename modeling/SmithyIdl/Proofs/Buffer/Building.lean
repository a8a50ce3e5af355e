import SmithyIdl.Proofs.Buffer.View

/-! # Building the tree

What the steps that move the cursor, add nodes, open and close them do to the view of a buffer. None of them
meets a fault where the buffer shows a view. -/

namespace SmithyIdl

open SmithyIdl.Parser

variable {b : Buffer} {v : View} {D L : Forest} {d : NodeId}

/-! ### Edits below the innermost node -/

/-- A tree that stands alone becomes the last child of the innermost node. -/
theorem View.append_inner {t : SyntaxTree} (placed : t.Holds none v.whole) (aside : t.Holds none (D ++ L))
    (one : D.roots = [d]) (nodup : (v.whole.ids ++ (D ++ L).ids).Nodup) (fits : v.whole.ids.length ≤ t.size) :
    ∃ t', t.append v.inner.id d = .ok t' ∧ t'.tokens = t.tokens ∧ t'.size = t.size ∧
      t'.Holds none (v.grow D).whole ∧ t'.Holds none L := by
  obtain ⟨hD, hL⟩ := SyntaxTree.holds_append.mp aside
  have names := v.ids_whole
  rw [Forest.ids_append, ← List.append_assoc] at nodup
  have path : (v.frames.map Frame.id ++ Forest.sideIds v.frames ++ D.ids).Nodup :=
    (names.append_right _).nodup_iff.mp (List.nodup_append.mp nodup).1
  have deep : (v.outer.map OpenNode.frame).length ≤ t.size := by
    have := names.length_eq
    simp only [View.frames, View.spine, List.map_cons, List.length_append, List.length_cons, List.length_map] at this
    rw [List.length_map]
    omega
  obtain ⟨run, holds, others⟩ := SyntaxTree.append_of_holds one path placed hD deep rfl
  refine ⟨_, run, SyntaxTree.link_tokens _, SyntaxTree.link_size _, ?_, hL.of_forgets fun i hi => ?_⟩
  · rw [View.whole_grow]
    exact holds
  · have apart := (List.nodup_append.mp nodup).2.2
    refine others i (fun he => ?_) fun he => ?_
    · exact apart d (List.mem_append_right _ (SyntaxTree.mem_ids_of_one one)) i hi he.symm
    · refine apart v.inner.id (List.mem_append_left _ (names.mem_iff.mpr ?_)) i hi he.symm
      exact List.mem_append_left _ List.mem_cons_self

namespace Buffer.Shows

/-- An edit keeps the invariant if the tree holds the new view and the tokens in it are the same. -/
theorem edited {w : View} {t' : SyntaxTree} (h : b.Shows v) (kept : t'.tokens = b.tree.tokens)
    (placed : t'.Holds none w.whole) (aside : t'.Holds none w.loose)
    (ids : (w.whole.ids ++ w.loose.ids).Perm (List.range t'.size)) (names : w.names = v.names)
    (tokens : (w.whole.tokens ++ w.loose.tokens).Perm (v.whole.tokens ++ v.loose.tokens))
    (sorted : w.whole.Sorted) : { b with tree := t' }.Shows w := by
  have eof : Buffer.eof { b with tree := t' } = b.eof := eof_of_tokens kept
  exact ⟨names ▸ h.openNodes, placed, aside, ids, tokens.trans h.tokens, sorted, h.ends.of_tokens kept, eof ▸ h.cursor⟩

/-- A tree that was taken out goes below the innermost node, where its items follow all others. -/
theorem append_loose (h : b.Shows v) (loose : v.loose = D ++ L) (one : D.roots = [d])
    (sorted : (v.whole ++ D).Sorted) :
    ∃ t', b.tree.append v.inner.id d = .ok t' ∧ { b with tree := t' }.Shows { v.grow D with loose := L } := by
  have fits : v.whole.ids.length ≤ b.tree.size := h.fits ▸ Nat.le_add_right _ _
  obtain ⟨t', run, kept, size, placed, aside⟩ :=
    View.append_inner h.placed (loose ▸ h.aside) one (loose ▸ h.nodup) fits
  have ids : v.whole.ids ++ v.loose.ids = v.whole.ids ++ D.ids ++ L.ids := by simp [loose]
  have tokens : v.whole.tokens ++ v.loose.tokens = (v.grow D).whole.tokens ++ L.tokens := by simp [loose]
  refine ⟨t', run, h.edited kept placed aside ?_ rfl ?_ ?_⟩
  · exact ((v.ids_grow D).append_right _).trans (size ▸ ids ▸ h.ids)
  · exact tokens ▸ .refl _
  · exact (View.sorted_grow v D).mpr sorted

/-- A new node goes below the innermost one. -/
theorem append_new (h : b.Shows v) (content : NodeContent) (ids : D.ids = [b.tree.size])
    (one : D.roots = [b.tree.size]) (hD : (b.tree.add content).2.Holds none D) :
    ∃ t', (b.tree.add content).2.append v.inner.id b.tree.size = .ok t' ∧ t'.tokens = b.tree.tokens ∧
      t'.Holds none (v.grow D).whole ∧ t'.Holds none v.loose ∧
      ((v.grow D).whole.ids ++ v.loose.ids).Perm (List.range t'.size) := by
  have perm : ((v.grow D).whole.ids ++ v.loose.ids).Perm (List.range (b.tree.size + 1)) := by
    have swap : (v.whole.ids ++ D.ids ++ v.loose.ids).Perm (v.whole.ids ++ v.loose.ids ++ D.ids) := by
      rw [List.append_assoc, List.append_assoc]
      exact List.perm_append_comm.append_left _
    rw [List.range_succ, ← ids]
    exact ((v.ids_grow D).append_right _).trans (swap.trans (h.ids.append_right _))
  have nodup : (v.whole.ids ++ (D ++ v.loose).ids).Nodup := by
    rw [Forest.ids_append, ← List.append_assoc]
    exact (((v.ids_grow D).append_right _).symm.trans perm).nodup_iff.mpr List.nodup_range
  have size := SyntaxTree.size_add (t := b.tree) content
  obtain ⟨t', run, tokens, size', placed, aside⟩ :=
    View.append_inner (h.placed.add content) (SyntaxTree.holds_append.mpr ⟨hD, h.aside.add content⟩) one nodup
      (by have := h.fits; omega)
  exact ⟨t', run, tokens, placed, aside, by rwa [size', size]⟩

/-- What was made before comes before an item of a new node that does not have an earlier token. -/
theorem sorted_new (h : b.Shows v) {token? : Option TokenId} (later : ∀ i ∈ token?, b.cursor ≤ i) {x : Item}
    (hx : x ∈ v.whole.items) : x.Before ⟨b.tree.size, token?⟩ where
  id := h.lt_size (List.mem_append_left _ (Forest.mem_ids_of_mem_items hx))
  token i hi j hj := by
    have among : i ∈ v.whole.tokens := by
      rw [Forest.tokens_eq]
      exact List.mem_filterMap.mpr ⟨x, hx, hi⟩
    exact Nat.lt_of_lt_of_le (h.lt_cursor (List.mem_append_left _ among)) (later j hj)

/-- A new inner node has no tokens, so those of the view stay. -/
theorem append_branch (h : b.Shows v) (label : Label) :
    ∃ t', (b.tree.add (.branch label #[])).2.append v.inner.id b.tree.size = .ok t' ∧
      { b with tree := t' }.Shows (v.grow (.branch b.tree.size label .nil .nil)) := by
  obtain ⟨t', run, kept, placed, aside, ids⟩ :=
    h.append_new (.branch label #[]) (D := .branch b.tree.size label .nil .nil) rfl rfl
      ⟨⟨none, SyntaxTree.add_getElem?_size _, by simp⟩, trivial, trivial⟩
  refine ⟨t', run, h.edited kept placed aside ids rfl ?_ ?_⟩
  · simp
  · rw [Forest.Sorted, View.items_grow]
    refine List.pairwise_append.mpr ⟨h.sorted, ?_, fun x hx y hy => ?_⟩
    · cases item : label.item? b.tree.size <;> simp [item]
    · obtain rfl := Label.item?_eq_some (by simpa using hy)
      exact h.sorted_new (by simp) hx

/-- The tokens of the view are before the cursor, so the one at the cursor is the last. -/
theorem append_leaf (h : b.Shows v) (next : b.hasNext = true) :
    ∃ t', b.tree.appendLeaf v.inner.id b.cursor = .ok t' ∧
      { b with tree := t', cursor := b.cursor + 1 }.Shows (v.grow (.leaf b.tree.size b.cursor .nil)) := by
  obtain ⟨t', run, kept, placed, aside, ids⟩ :=
    h.append_new (.leaf b.cursor) rfl rfl (SyntaxTree.holds_addLeaf b.cursor)
  refine ⟨t', run, h.openNodes, placed, aside, ids, ?_, ?_, h.ends.of_tokens kept, ?_⟩
  · have swap : (v.whole.tokens ++ [b.cursor] ++ v.loose.tokens).Perm
        (v.whole.tokens ++ v.loose.tokens ++ [b.cursor]) := by
      rw [List.append_assoc, List.append_assoc]
      exact List.perm_append_comm.append_left _
    rw [View.tokens_grow, List.range_succ]
    exact swap.trans (h.tokens.append_right _)
  · rw [Forest.Sorted, View.items_grow]
    refine List.pairwise_append.mpr ⟨h.sorted, List.pairwise_singleton .., fun x hx y hy => ?_⟩
    obtain rfl := List.mem_singleton.mp hy
    exact h.sorted_new (fun i hi => Nat.le_of_eq (Option.some.inj hi)) hx
  · have eof : Buffer.eof { b with tree := t', cursor := b.cursor + 1 } = b.eof := eof_of_tokens kept
    rw [eof]
    exact Buffer.hasNext_iff.mp next

/-- The last child of the innermost node, while it is empty, can be opened. -/
theorem opened {id : NodeId} {label : Label} (h : b.Shows (v.grow (.branch id label .nil .nil))) :
    { b with openNodes := id :: b.openNodes }.Shows (v.enter id label) := by
  have same := v.whole_enter id label
  exact ⟨congrArg (id :: ·) h.openNodes, same ▸ h.placed, h.aside, same ▸ h.ids, same ▸ h.tokens,
    same ▸ h.sorted, h.ends, h.cursor⟩

theorem closed {w : View} {name : NodeId × Label} (h : b.Shows v) (names : v.names = name :: w.names) :
    { b with openNodes := b.openNodes.tail }.Shows v.leave := by
  have same := v.whole_leave
  refine ⟨?_, same ▸ h.placed, v.leave_loose ▸ h.aside, same ▸ v.leave_loose ▸ h.ids,
    same ▸ v.leave_loose ▸ h.tokens, same ▸ h.sorted, h.ends, h.cursor⟩
  rw [View.leave_names names]
  exact h.openNodes ▸ names ▸ rfl

end Buffer.Shows

/-! ### Steps -/

namespace Parser

theorem run_shift (h : b.Shows v) (next : b.hasNext = true) :
    ∃ b', shift.run b = .ok () b' ∧ b'.Shows (v.grow (.leaf b.tree.size b.cursor .nil)) := by
  obtain ⟨t', run, shows'⟩ := h.append_leaf next
  refine ⟨_, ?_, shows'⟩
  have edit := run_edit (b := b) (g := fun t => t.appendLeaf b.innermost b.cursor) (h.innermost.symm ▸ run)
  simp only [shift, run_bind, run_hasNext, run_ask, Outcome.ok_andThen, next, if_true, edit]
  rfl

theorem run_attach {t' : SyntaxTree} (run : b.tree.append b.innermost d = .ok t') :
    (attach d).run b = .ok () { b with tree := t' } := by
  have edit := run_edit (b := b) (g := fun t => t.append b.innermost d) run
  simp only [attach, run_bind, run_ask, Outcome.ok_andThen, edit]

theorem run_push {id : NodeId} {label : Label} (h : b.Shows (v.grow (.branch id label .nil .nil))) :
    ∃ b', (push id).run b = .ok () b' ∧ b'.Shows (v.enter id label) ∧ b'.hasNext = b.hasNext :=
  ⟨_, rfl, h.opened, rfl⟩

theorem run_pop {w : View} {name : NodeId × Label} (h : b.Shows v) (names : v.names = name :: w.names) :
    ∃ b', pop.run b = .ok () b' ∧ b'.Shows v.leave :=
  ⟨_, rfl, h.closed names⟩

theorem run_openNode (h : b.Shows v) (kind : TreeKind) :
    ∃ b', (openNode kind).run b = .ok b.tree.size b' ∧ b'.Shows (v.enter b.tree.size (.plain kind)) := by
  obtain ⟨t', run, shown⟩ := h.append_branch (.plain kind)
  obtain ⟨b', pushed, shown', -⟩ := run_push shown
  refine ⟨b', ?_, shown'⟩
  have made := run_onTree (b := b) (g := fun t => .ok (t.addNode kind)) rfl
  have attached := run_attach (b := { b with tree := (b.tree.addNode kind).2 }) (h.innermost.symm ▸ run)
  calc (openNode kind).run b
    _ = _ := run_bind_of_ok made
    _ = _ := run_bind_of_ok attached
    _ = _ := run_bind_of_ok pushed

theorem run_closeNode {w : View} {name : NodeId × Label} (h : b.Shows v) (names : v.names = name :: w.names) :
    ∃ b', (closeNode name.1).run b = .ok () b' ∧ b'.Shows v.leave := by
  obtain ⟨b', run, shown⟩ := run_pop h names
  refine ⟨b', ?_, shown⟩
  have first : b.openNodes.head? = some name.1 := by rw [h.openNodes, names]; rfl
  simp only [closeNode, run_bind, run_ask, Outcome.ok_andThen, first, if_true, run]

theorem run_addError (h : b.Shows v) (mark : Mark) :
    ∃ b', (addError mark).run b = .ok b.tree.size b' ∧
      b'.Shows (v.grow (.branch b.tree.size (.error mark) .nil .nil)) := by
  obtain ⟨t', run, shown⟩ := h.append_branch (.error mark)
  refine ⟨{ b with tree := t', errors := b.errors + 1 }, ?_, ?_⟩
  · have made := run_onTree (b := { b with errors := b.errors + 1 }) (g := fun t => .ok (t.addError mark)) rfl
    have attached := run_attach (b := { b with tree := (b.tree.addError mark).2, errors := b.errors + 1 })
      (h.innermost.symm ▸ run)
    have counted : countError.run b = .ok () { b with errors := b.errors + 1 } := rfl
    calc (addError mark).run b
      _ = _ := run_bind_of_ok counted
      _ = _ := run_bind_of_ok made
      _ = _ := run_bind_of_ok attached
  · exact ⟨shown.openNodes, shown.placed, shown.aside, shown.ids, shown.tokens, shown.sorted, shown.ends, shown.cursor⟩

end Parser

end SmithyIdl
