import SmithyIdl.Proofs.Buffer.Growth

/-! # Moving trees

Documentation comments and traits are read before it is known what they belong to, and are moved there later. A
tree can be taken out at any open place and put below the innermost node wherever its items follow all others;
neither meets a fault. -/

namespace SmithyIdl

variable {b : Buffer} {v w : View} {f : Frame} {c : List Frame} {T D L : Forest} {d : NodeId}

/-! ### Taking a tree out -/

/-- A tree at an open place is taken out. -/
theorem Buffer.Shows.taken (h : b.Shows v) (one : D.roots = [d]) (place : v.whole = Forest.plug (f :: c) D)
    (rest : w.whole = Forest.plug (f :: c) .nil) (names : w.names = v.names) (loose : w.loose = D ++ v.loose) :
    b.tree.remove f.id d = .ok (true, b.tree.unlink f.id d) ∧
      { b with tree := b.tree.unlink f.id d }.Shows w := by
  have holds := h.placed
  rw [place] at holds
  have ids : v.whole.ids.Perm ((f :: c).map Frame.id ++ Forest.sideIds (f :: c) ++ D.ids) :=
    place ▸ Forest.ids_plug (f :: c) D
  have ids' : w.whole.ids.Perm ((f :: c).map Frame.id ++ Forest.sideIds (f :: c)) := by
    have := Forest.ids_plug (f :: c) .nil
    rwa [Forest.ids_nil, List.append_nil, ← rest] at this
  have nodup := ids.nodup_iff.mp (List.nodup_append.mp h.nodup).1
  have deep : c.length ≤ b.tree.size := by
    have := h.fits
    have := ids.length_eq
    simp only [List.length_append, List.length_map, List.length_cons] at this
    omega
  obtain ⟨run, placed, alone, others⟩ := SyntaxTree.remove_of_holds one nodup holds deep
  have aside : (b.tree.unlink f.id d).Holds none v.loose := by
    have apart := (List.nodup_append.mp h.nodup).2.2
    refine h.aside.of_forgets fun i hi => others i (fun he => ?_) fun he => ?_
    · have : d ∈ v.whole.ids := ids.mem_iff.mpr (List.mem_append_right _ (SyntaxTree.mem_ids_of_one one))
      exact apart d this i hi he.symm
    · have : f.id ∈ v.whole.ids := ids.mem_iff.mpr (by simp)
      exact apart f.id this i hi he.symm
  refine ⟨run, h.edited (SyntaxTree.unlink_tokens _) (rest ▸ placed) ?_ ?_ names ?_ ?_⟩
  · exact loose ▸ SyntaxTree.holds_append.mpr ⟨alone, aside⟩
  · rw [SyntaxTree.unlink_size, loose, Forest.ids_append, ← List.append_assoc]
    exact ((ids'.append_right _).trans ids.symm |>.append_right _).trans h.ids
  · rw [place, rest, loose, Forest.tokens_plug, Forest.tokens_plug]
    simp only [Forest.tokens_nil, Forest.tokens_append, List.append_nil, List.append_assoc]
    refine List.Perm.append_left _ ?_
    rw [← List.append_assoc, ← List.append_assoc]
    exact List.perm_append_comm.append_right _
  · have sorted := h.sorted
    rw [place, Forest.Sorted, Forest.items_plug] at sorted
    rw [rest, Forest.Sorted, Forest.items_plug, Forest.items_nil, List.append_nil]
    exact sorted.sublist ((List.sublist_append_left ..).append_right _)

namespace Parser

theorem run_detach (h : b.Shows v) (one : D.roots = [d]) (place : v.whole = Forest.plug (f :: c) D)
    (rest : w.whole = Forest.plug (f :: c) .nil) (names : w.names = v.names) (loose : w.loose = D ++ v.loose) :
    ∃ b', (detach d).run b = .ok () b' ∧ b'.Shows w := by
  obtain ⟨run, shown⟩ := h.taken one place rest names loose
  refine ⟨_, ?_, shown⟩
  have holds := h.placed
  rw [place] at holds
  have below : (Reading.parent? d).run b.tree = .ok (some f.id, b.tree) := by
    obtain ⟨node, found, parent⟩ := Option.map_eq_some_iff.mp (holds.focus.parent_of_one one)
    have read : Reading.node d b.tree = .ok (node, b.tree) := by rw [Reading.node, found]
    change (Reading.node d b.tree >>= fun r => Pure.pure (r.1.parent, r.2)) = _
    rw [read]
    exact congrArg (fun p => Except.ok (p, b.tree)) parent
  have asked := run_onTree (b := b) (g := (Reading.parent? d).run) below
  have removed := run_onTree (b := b) (g := fun t => t.remove f.id d) run
  unfold detach
  exact (run_bind_of_ok asked).trans (run_bind_of_ok removed)

/-- The last child of the innermost node is taken out. -/
theorem run_detach_last (h : b.Shows (v.grow T)) (one : T.roots = [d]) :
    ∃ b', (detach d).run b = .ok () b' ∧ b'.Shows { v with loose := T ++ v.loose } :=
  run_detach h one (v.whole_grow T) rfl rfl rfl

end Parser

/-! ### Documentation comments -/

/-- The documentation comments `d`, the tree `D`, stand in one of the open nodes, with no items behind them. Without
    them the open nodes are those of the second list. `place` says in what they may stand: nothing, where they are a
    child of the open node itself, or a node of some label. -/
inductive DocsOut (place : Option Label → Prop) (d : NodeId) : Forest → List OpenNode → List OpenNode → Prop where
  | here {n : OpenNode} {outer : List OpenNode} {before after inner : Forest} {way : List Frame}
      (children : n.children = before ++ Forest.plug way (.branch d (.plain .whitespace) inner .nil) ++ after)
      (placed : place (way.head?.map Frame.label)) (way' : Forest.itemsAfter way = []) (after' : after.items = []) :
      DocsOut place d (.branch d (.plain .whitespace) inner .nil) (n :: outer)
        ({ n with children := before ++ Forest.plug way .nil ++ after } :: outer)
  | deeper {n : OpenNode} {outer outer' : List OpenNode} {D : Forest} {kind : TreeKind} (label : n.label = .plain kind)
      (empty : n.children.items = []) (rest : DocsOut place d D outer outer') : DocsOut place d D (n :: outer) (n :: outer')

/-- The documentation comments, if any, are the last items of the tree, and stand in a place. -/
def View.AwaitsIn (place : Option Label → Prop) (v : View) (docs : Option NodeId) : Prop :=
  ∀ d ∈ docs, ∃ D spine, DocsOut place d D v.spine spine

/-- The documentation comments, if any, are the last items of the tree. -/
abbrev View.Awaits (v : View) (docs : Option NodeId) : Prop := v.AwaitsIn (fun _ => True) docs

/-- The documentation comments stay out when the innermost node is closed. -/
theorem DocsOut.leave {place : Option Label → Prop} {n g : OpenNode} {outer spine' : List OpenNode}
    (h : DocsOut place d D (n :: g :: outer) spine') (closes : place none → place (some n.label)) :
    ∃ n' g' outer', spine' = n' :: g' :: outer' ∧
      DocsOut place d D ({ g with children := g.children ++ .branch n.id n.label n.children .nil } :: outer)
        ({ g' with children := g'.children ++ .branch n'.id n'.label n'.children .nil } :: outer') := by
  cases h with
  | @here _ _ before after inner way children placed way' after' =>
    have inside : g.children ++ .branch n.id n.label n.children .nil = g.children ++
        Forest.plug (way ++ [⟨n.id, n.label, before, after⟩]) (.branch d (.plain .whitespace) inner .nil) ++ .nil := by
      simp [Forest.plug_append, children]
    have without : g.children ++ .branch n.id n.label (before ++ Forest.plug way .nil ++ after) .nil = g.children ++
        Forest.plug (way ++ [⟨n.id, n.label, before, after⟩]) .nil ++ .nil := by
      simp [Forest.plug_append]
    refine ⟨_, _, _, rfl, without ▸ .here inside ?_ ?_ rfl⟩
    · cases way with
      | nil => exact closes placed
      | cons f way => exact placed
    · simp [Forest.itemsAfter_append, Forest.itemsAfter, way', after']
  | deeper label empty rest =>
    have nothing : (Forest.branch n.id n.label n.children .nil).items = [] := by simp [label, empty, Label.item?]
    cases rest with
    | @here _ _ before after inner way children placed way' after' =>
      have inside : g.children ++ .branch n.id n.label n.children .nil = before ++
          Forest.plug way (.branch d (.plain .whitespace) inner .nil) ++
            (after ++ .branch n.id n.label n.children .nil) := by
        simp [children]
      have without : before ++ Forest.plug way .nil ++ after ++ .branch n.id n.label n.children .nil = before ++
          Forest.plug way .nil ++ (after ++ .branch n.id n.label n.children .nil) := by simp
      refine ⟨_, _, _, rfl, without ▸ .here inside placed way' ?_⟩
      rw [Forest.items_append, after', nothing, List.append_nil]
    | deeper label' empty' rest =>
      refine ⟨_, _, _, rfl, .deeper label' ?_ rest⟩
      rw [Forest.items_append, empty', nothing, List.append_nil]

namespace View.AwaitsIn

variable {place : Option Label → Prop} {docs : Option NodeId}

theorem none : v.AwaitsIn place none := fun _ hd => nomatch hd

theorem enter (h : v.AwaitsIn place docs) (id : NodeId) (kind : TreeKind) :
    (v.enter id (.plain kind)).AwaitsIn place docs := by
  intro d hd
  obtain ⟨D, spine, out⟩ := h d hd
  exact ⟨D, _, .deeper rfl rfl out⟩

/-- Documentation comments in a node that is closed, or around it where it has no items. -/
theorem leave (h : v.AwaitsIn place docs) (closes : place Option.none → place (some v.inner.label)) :
    v.leave.AwaitsIn place docs := by
  intro d hd
  obtain ⟨n, _ | ⟨g, outer⟩, loose⟩ := v
  · exact h d hd
  obtain ⟨D, spine, out⟩ := h d hd
  obtain ⟨n', g', outer', -, out⟩ := out.leave closes
  exact ⟨D, _, out⟩

/-- A new last child of the innermost node. -/
theorem last {id : NodeId} {F : Forest} (placed : place Option.none) :
    (v.grow (.branch id (.plain .whitespace) F .nil)).AwaitsIn place (some id) := by
  intro d hd
  cases hd
  have inside : (v.grow (.branch id (.plain .whitespace) F .nil)).inner.children =
      v.inner.children ++ Forest.plug [] (.branch id (.plain .whitespace) F .nil) ++ .nil := by simp [grow]
  exact ⟨_, _, .here inside placed rfl rfl⟩

end View.AwaitsIn

/-- Where the documentation comments stand in the tree that the open nodes make up, and what is left of it. -/
theorem DocsOut.split {place : Option Label → Prop} {spine spine' : List OpenNode} (h : DocsOut place d D spine spine')
    {X : Forest} (hX : X.items = []) :
    ∃ (f : Frame) (c : List Frame), D.roots = [d] ∧
      Forest.plug (spine.map OpenNode.frame) X = Forest.plug (f :: c) D ∧
      Forest.plug (spine'.map OpenNode.frame) X = Forest.plug (f :: c) .nil ∧
      spine'.map OpenNode.name = spine.map OpenNode.name ∧ Forest.itemsAfter (f :: c) = [] := by
  induction h generalizing X with
  | @here n outer before after inner way children placed way' after' =>
    obtain ⟨f, c, split⟩ := List.exists_cons_of_ne_nil
      (List.append_ne_nil_of_right_ne_nil way
        (List.cons_ne_nil ⟨n.id, n.label, before, after ++ X⟩ (outer.map OpenNode.frame)))
    refine ⟨f, c, rfl, ?_, ?_, rfl, ?_⟩
    · simp [← split, Forest.plug_append, OpenNode.frame, children]
    · simp [← split, Forest.plug_append, OpenNode.frame]
    · rw [← split]
      simp [Forest.itemsAfter_append, Forest.itemsAfter, way', after', hX, itemsAfter_map_frame]
  | @deeper n outer outer' D kind label empty rest ih =>
    obtain ⟨f, c, one, place, rest', names, items⟩ :=
      ih (X := .branch n.id n.label (n.children ++ X) .nil) (by simp [label, empty, hX, Label.item?])
    refine ⟨f, c, one, ?_, ?_, by simp [names], items⟩
    · simpa [OpenNode.frame] using place
    · simpa [OpenNode.frame] using rest'

namespace Parser

variable {E : Buffer → Prop}

/-- An innermost node without children takes the documentation comments from where they stand; the items keep
    their order. -/
theorem run_adoptDocs {place : Option Label → Prop} {spine : List OpenNode} (h : b.Shows v)
    (out : DocsOut place d D v.spine spine) (empty : v.inner.children = .nil) :
    ∃ outer b', spine = v.inner :: outer ∧ (adoptDocs (some d)).run b = .ok () b' ∧
      b'.Shows (View.grow ⟨v.inner, outer, v.loose⟩ D) ∧
      (View.grow ⟨v.inner, outer, v.loose⟩ D).names = v.names ∧
      (View.grow ⟨v.inner, outer, v.loose⟩ D).whole.items = v.whole.items := by
  obtain ⟨outer, rfl⟩ : ∃ outer, spine = v.inner :: outer := by
    cases out with
    | @here _ _ before after inner way children =>
      have ids := congrArg Forest.ids (empty.symm.trans children)
      have perm := Forest.ids_plug way (.branch d (.plain .whitespace) inner .nil)
      have : d ∈ (Forest.plug way (.branch d (.plain .whitespace) inner .nil)).ids := perm.mem_iff.mpr (by simp)
      simp only [Forest.ids_nil, Forest.ids_append, List.nil_eq, List.append_eq_nil_iff] at ids
      rw [ids.1.2] at this
      cases this
    | deeper => exact ⟨_, rfl⟩
  obtain ⟨f, c, one, place, rest, names, after⟩ := out.split (X := .nil) rfl
  obtain ⟨b₁, run₁, shown₁⟩ := run_detach (w := ⟨v.inner, outer, D ++ v.loose⟩) h one place rest names rfl
  have all : v.whole.items = (View.whole ⟨v.inner, outer, D ++ v.loose⟩ ++ D).items := by
    rw [View.whole, View.frames, place, View.whole, View.frames, View.spine, rest, Forest.items_append,
      Forest.items_plug, Forest.items_plug, after]
    simp
  have sorted : (View.whole ⟨v.inner, outer, D ++ v.loose⟩ ++ D).Sorted := by
    rw [Forest.Sorted, ← all]
    exact h.sorted
  obtain ⟨t', run₂, shown₂⟩ := shown₁.append_loose rfl one sorted
  have fresh : (b.tree.childrenOf b.innermost).length = 0 := by
    obtain ⟨kept, node⟩ := SyntaxTree.Holds.frame (f := v.inner.frame) (c := v.outer.map OpenNode.frame) h.placed
    have found : b.tree.nodes[v.inner.id]? = _ := node
    rw [h.innermost, SyntaxTree.childrenOf, found]
    simp [Node.children, OpenNode.frame, empty]
  have items : (View.grow ⟨v.inner, outer, v.loose⟩ D).whole.items = v.whole.items := by
    rw [View.items_grow, all, Forest.items_append]
    rfl
  refine ⟨outer, _, rfl, ?_, shown₂, names, items⟩
  unfold adoptDocs
  refine (run_bind_of_ok (run_ask _ b)).trans ?_
  rw [fresh]
  exact (run_bind_of_ok run₁).trans (run_attach (shown₁.innermost ▸ run₂))

theorem adoptDocs_ensures {docs : Option NodeId} (h : b.Shows v) (awaits : v.Awaits docs)
    (empty : v.inner.children = .nil) :
    (adoptDocs docs).Ensures b (fun _ b' => ∃ w, b'.Shows w ∧ w.names = v.names ∧ w.loose = v.loose ∧
      w.whole.items = v.whole.items) E := by
  cases docs with
  | none => exact .pure ⟨v, h, rfl, rfl, rfl⟩
  | some d =>
    obtain ⟨D, spine, out⟩ := awaits d rfl
    obtain ⟨outer, b', -, run, shown, names, items⟩ := run_adoptDocs h out empty
    exact .of_ok run ⟨_, shown, names, rfl, items⟩

end Parser

/-! ### Traits -/

/-- The traits, if any, are the first of the trees that stand alone, and belong behind all items of the tree. -/
def View.Pending (v : View) (traits : Option NodeId) (L : Forest) : Prop :=
  match traits with
  | none => v.loose = L
  | some d => ∃ T, v.loose = T ++ L ∧ T.roots = [d] ∧ T.tokens ≠ [] ∧ (v.whole ++ T).Sorted

theorem View.Pending.of_same {traits : Option NodeId} (h : v.Pending traits L) (loose : w.loose = v.loose)
    (items : w.whole.items = v.whole.items) : w.Pending traits L := by
  cases traits with
  | none => exact loose.trans h
  | some d =>
    obtain ⟨T, hT, one, nonempty, sorted⟩ := h
    exact ⟨T, loose.trans hT, one, nonempty, sorted.of_items T items⟩

/-- An error is located where a token starts. What it covers ends with a token that is not before this one. -/
def Mark.StartsAt (mark : Mark) (ts : Array Token) (first : Token) : Prop :=
  mark.position = first.start ∧ ∃ (i j : TokenId) (last : Token), ts[i]? = some first ∧ ts[j]? = some last ∧ i ≤ j ∧
    mark.offset = (first.range.cover last.range).start

/-- Keeping tokens at the top of a tree that stands alone changes no view. -/
theorem Buffer.Shows.keeps {t' : SyntaxTree} (h : b.Shows v) (loose : v.loose = T ++ L) (one : T.roots = [d])
    (keeps : SyntaxTree.Keeps b.tree t' none T d) : { b with tree := t' }.Shows v := by
  have nodup := h.nodup
  rw [loose, Forest.ids_append] at nodup
  have hd := SyntaxTree.mem_ids_of_one one
  obtain ⟨-, below, apart⟩ := List.nodup_append.mp nodup
  obtain ⟨-, -, apart'⟩ := List.nodup_append.mp below
  have aside := h.aside
  rw [loose] at aside
  have hL := (SyntaxTree.holds_append.mp aside).2
  refine h.edited keeps.tokens (h.placed.of_same fun i hi => keeps.others i fun he => ?_) ?_ ?_ rfl (.refl _) h.sorted
  · exact apart i hi d (List.mem_append_left _ hd) he
  · rw [loose]
    refine SyntaxTree.holds_append.mpr ⟨keeps.holds, hL.of_same fun i hi => keeps.others i fun he => ?_⟩
    exact apart' d hd i hi he.symm
  · rw [keeps.size]
    exact h.ids

namespace Parser

variable {E : Buffer → Prop}

theorem attach_ensures (h : b.Shows v) (pending : v.Pending (some d) L) :
    (attach d).Ensures b (fun _ b' => ∃ w, b'.Shows w ∧ w.names = v.names ∧ w.loose = L) E := by
  obtain ⟨T, loose, one, -, sorted⟩ := pending
  obtain ⟨t', run, shown⟩ := h.append_loose loose one sorted
  exact .of_ok (run_attach (h.innermost.symm ▸ run)) ⟨_, shown, rfl, rfl⟩

/-- A reader of a tree that stands alone and has tokens. -/
theorem reading_ensures {α β : Type} {r : Reading α} {g : α → Parser β} {a : α} {Q : β → Buffer → Prop}
    (h : b.Shows v) (loose : v.loose = T ++ L) (one : T.roots = [d])
    (reads : SyntaxTree.Reads r b.tree none T d a)
    (next : ∀ b', b'.Shows v → b'.tree.tokens = b.tree.tokens → (g a).Ensures b' Q E) :
    (onTree r.run >>= g).Ensures b Q E := by
  obtain ⟨t', run, keeps⟩ := reads
  exact .after (run_onTree run) (next _ (h.keeps loose one keeps) keeps.tokens)

/-- The error node is located by the first and the last token of the traits, and has nothing but them in it. -/
theorem encloseInError_located {problem : Problem} (encloses : problem.encloses = true) (h : b.Shows v)
    (loose : v.loose = T ++ L) (one : T.roots = [d]) (nonempty : T.tokens ≠ []) (sorted : (v.whole ++ T).Sorted) :
    (encloseInError d problem).Ensures b (fun _ b' => ∃ mark i rest first, T.tokens = i :: rest ∧
      b.tree.tokens[i]? = some first ∧ mark.problem = problem ∧ mark.StartsAt b.tree.tokens first ∧
      b'.Shows { v.grow (.branch b.tree.size (.error mark) T .nil) with loose := L }) E := by
  obtain ⟨i, rest, first⟩ := List.exists_cons_of_ne_nil nonempty
  obtain ⟨rest', j, last⟩ : ∃ rest' j, T.tokens = rest' ++ [j] :=
    ⟨_, _, (List.dropLast_concat_getLast nonempty).symm⟩
  have before : ∀ k ∈ T.tokens, k < b.cursor := fun k hk =>
    h.lt_cursor (List.mem_append_right _ (by rw [loose, Forest.tokens_append]; exact List.mem_append_left _ hk))
  obtain ⟨start, hi⟩ := h.exists_token (before i (first ▸ List.mem_cons_self))
  obtain ⟨stop, hj⟩ := h.exists_token (before j (by simp [last]))
  have place : ∀ {b' : Buffer}, b'.Shows v → b'.tree.Holds none T ∧ T.ids.length ≤ b'.tree.size ∧ T.ids.Nodup :=
    fun {b'} h' => by
      have aside := h'.aside
      have nodup := h'.nodup
      have fits := h'.fits
      rw [loose] at aside
      rw [loose, Forest.ids_append] at nodup
      rw [loose, Forest.ids_append, List.length_append] at fits
      refine ⟨(SyntaxTree.holds_append.mp aside).1, by omega, ?_⟩
      exact (List.nodup_append.mp (List.nodup_append.mp nodup).2.1).1
  obtain ⟨holds, fits, nodup⟩ := place h
  refine reading_ensures h loose one (SyntaxTree.reads_start holds one fits nodup first hi) fun b₁ h₁ same => ?_
  obtain ⟨holds₁, fits₁, nodup₁⟩ := place h₁
  refine reading_ensures h₁ loose one (SyntaxTree.reads_range holds₁ one fits₁ nodup₁ first last (same ▸ hi)
    (same ▸ hj)) fun b₂ h₂ _ => ?_
  obtain ⟨b₃, run₃, shown₃⟩ := run_addError h₂ ⟨problem, (start.range.cover stop.range).start, start.start⟩
  have inside := shown₃.opened
  obtain ⟨t', run, shown⟩ := inside.append_loose loose one (by
    rw [View.whole_enter, Forest.Sorted, Forest.items_append, View.items_grow]
    simpa [Forest.Sorted, Label.item?, encloses] using sorted)
  have edit := run_edit (b := b₃) (g := fun t => t.append b₂.tree.size d) run
  have same : b₂.tree.size = b.tree.size := h₂.fits.symm.trans h.fits
  have closed := shown.closed (View.enter_names ..)
  rw [same, View.enter_grow_aside_leave] at closed
  have ordered : i ≤ j := by
    rw [Forest.Sorted, Forest.items_append] at sorted
    have increasing := Forest.Sorted.tokens (List.pairwise_append.mp sorted).2.1
    have among : j ∈ i :: rest := first ▸ last ▸ List.mem_concat_self
    rw [first] at increasing
    rcases List.mem_cons.mp among with rfl | later
    · exact Nat.le_refl _
    · exact Nat.le_of_lt ((List.pairwise_cons.mp increasing).1 j later)
  exact .after run₃ (.of_ok edit ⟨_, i, rest, start, first, hi, rfl, ⟨rfl, i, j, stop, hi, hj, ordered, rfl⟩, closed⟩)

theorem encloseInError_ensures {problem : Problem} (encloses : problem.encloses = true) (h : b.Shows v)
    (pending : v.Pending (some d) L) :
    (encloseInError d problem).Ensures b (fun _ b' => ∃ mark T, v.loose = T ++ L ∧ T.tokens ≠ [] ∧
      b'.Shows { v.grow (.branch b.tree.size (.error mark) T .nil) with loose := L }) E := by
  obtain ⟨T, loose, one, nonempty, sorted⟩ := pending
  exact (encloseInError_located encloses h loose one nonempty sorted).mono
    (fun _ _ _ ⟨mark, _, _, _, _, _, _, _, shown⟩ => ⟨mark, T, loose, nonempty, shown⟩) fun _ hE => hE

end Parser

end SmithyIdl
