import SmithyIdl.Proofs.Token.Replaced
import SmithyIdl.Proofs.Tree.Displaced

/-! # Trees with the same nodes in them

Where nodes of one tree are the same in another one, with all that is below them and the tokens there, what is read of
them is the same, whatever else the two trees are made of. -/

namespace SmithyIdl

namespace SyntaxTree

variable {among : NodeId → Prop} {t t' : SyntaxTree} {F F' : Forest} {i : NodeId}

/-- What stands in one of several trees has its children there. -/
theorem Holds.mem_ids_of_child {parent : Option NodeId} {j : NodeId} (h : t.Holds parent F) (among : i ∈ F.ids)
    (child : j ∈ t.childrenOf i) : j ∈ F.ids := by
  induction F generalizing parent with
  | nil => cases among
  | leaf id token rest ih =>
    obtain ⟨⟨kept, node, -⟩, beside⟩ := h
    rcases List.mem_cons.mp among with rfl | among
    · rw [childrenOf, node] at child
      cases child
    · exact List.mem_cons_of_mem _ (ih beside among)
  | branch id label inner rest ihInner ihRest =>
    obtain ⟨⟨kept, node, -⟩, within, beside⟩ := h
    rcases List.mem_cons.mp among with rfl | among
    · have root : j ∈ inner.roots := by simpa [childrenOf, node, Node.children] using child
      exact List.mem_cons_of_mem _ (List.mem_append_left _ (Forest.mem_ids_of_mem_roots root))
    · rcases List.mem_append.mp among with among | among
      · exact List.mem_cons_of_mem _ (List.mem_append_left _ (ihInner within among))
      · exact List.mem_cons_of_mem _ (List.mem_append_right _ (ihRest beside among))

/-- The nodes `among` are the same in both trees, and so are all nodes and tokens below them. -/
structure Shares (among : NodeId → Prop) (t t' : SyntaxTree) : Prop where
  tag : ∀ {i}, among i → t'.tag? i = t.tag? i
  children : ∀ {i}, among i → t'.childrenOf i = t.childrenOf i
  below : ∀ {i j}, among i → j ∈ t.childrenOf i → among j
  tokens : ∀ {i k}, among i → t.tag? i = some (.inl k) → t'.tokens[k]? = t.tokens[k]?

namespace Shares

variable (h : t.Shares among t') (here : among i)
include h here

theorem leavesWithin (n : Nat) : t'.leavesWithin n i = t.leavesWithin n i := by
  induction n generalizing i with
  | zero => rfl
  | succ n ih =>
    rw [leavesWithin_succ, leavesWithin_succ, h.tag here, h.children here]
    split
    · rfl
    · rfl
    · exact List.flatMap_congr fun j child => ih (h.below here child)

theorem leaves (stands : t.Stands F) (stands' : t'.Stands F') : t'.leaves i = t.leaves i := by
  rw [← stands'.leavesWithin_eq (Nat.le_max_right t.size t'.size), ← stands.leavesWithin_eq (Nat.le_max_left t.size t'.size),
    h.leavesWithin here]

theorem getElem?_token {n k : Nat} (leaf : k ∈ t.leavesWithin n i) : t'.tokens[k]? = t.tokens[k]? := by
  induction n generalizing i with
  | zero => cases leaf
  | succ n ih =>
    rw [leavesWithin_succ] at leaf
    split at leaf
    · cases leaf
    · next tag =>
      obtain rfl := List.mem_singleton.mp leaf
      exact h.tokens here tag
    · obtain ⟨j, child, leaf⟩ := List.mem_flatMap.mp leaf
      exact ih (h.below here child) leaf

/-! ### Readers -/

/-- What the tag of a node tells. -/
theorem read_look {α : Type} {g : Node → α} {a a' : α} (told : ∀ n n', Node.tag n = Node.tag n' → g n = g n')
    (run : Uncached.look g i t = .ok a) (run' : Uncached.look g i t' = .ok a') : a = a' := by
  obtain ⟨n, found, rfl⟩ := Uncached.look_ok run
  obtain ⟨n', found', rfl⟩ := Uncached.look_ok run'
  have tags := h.tag here
  rw [tag?, tag?, found, found'] at tags
  exact told n n' (Option.some.inj tags).symm

theorem read_kind {k k' : TreeKind} (run : Uncached.kind i t = .ok k) (run' : Uncached.kind i t' = .ok k') : k = k' := by
  refine h.read_look here (fun n n' tags => ?_) run run'
  obtain ⟨content, parent, kept⟩ := n
  obtain ⟨content', parent', kept'⟩ := n'
  cases content <;> cases content' <;> cases tags <;> rfl

theorem read_mark {mark mark' : Option Mark} (run : Uncached.look Node.mark? i t = .ok mark)
    (run' : Uncached.look Node.mark? i t' = .ok mark') : mark = mark' := by
  refine h.read_look here (fun n n' tags => ?_) run run'
  obtain ⟨content, parent, kept⟩ := n
  obtain ⟨content', parent', kept'⟩ := n'
  cases content <;> cases content' <;> cases tags <;> rfl

theorem read_emptyPosition {p p' : Position} (run : Uncached.emptyPosition i t = .ok p)
    (run' : Uncached.emptyPosition i t' = .ok p') : p = p' := by
  obtain ⟨mark, look, told⟩ := Uncached.bind_ok.mp run
  obtain ⟨mark', look', told'⟩ := Uncached.bind_ok.mp run'
  obtain rfl := h.read_mark here look look'
  exact Except.ok.inj (told.symm.trans told')

theorem read_leafToken {token token' : Option Token} (run : Uncached.leafToken? i t = .ok token)
    (run' : Uncached.leafToken? i t' = .ok token') : token = token' := by
  obtain ⟨k?, look, read⟩ := Uncached.bind_ok.mp run
  obtain ⟨k?', look', read'⟩ := Uncached.bind_ok.mp run'
  obtain rfl : k? = k?' := by
    refine h.read_look here (fun n n' tags => ?_) look look'
    obtain ⟨content, parent, kept⟩ := n
    obtain ⟨content', parent', kept'⟩ := n'
    cases content <;> cases content' <;> cases tags <;> rfl
  rcases Uncached.mapM_token_ok read with ⟨rfl, rfl⟩ | ⟨k, a, rfl, rfl, found⟩
  · rcases Uncached.mapM_token_ok read' with ⟨-, rfl⟩ | ⟨_, _, some, -⟩
    · rfl
    · cases some
  · rcases Uncached.mapM_token_ok read' with ⟨none, -⟩ | ⟨_, a', some, rfl, found'⟩
    · cases none
    · cases some
      obtain ⟨⟨content, parent, kept⟩, node, leaf⟩ := Uncached.look_ok look
      have tag : t.tag? i = some (.inl k) := by
        rw [tag?, node]
        cases content <;> cases leaf
        rfl
      rw [h.tokens here tag, found] at found'
      exact found'

variable (stands : t.Stands F) (stands' : t'.Stands F')
include stands stands'

/-- One of the tokens below, where both trees have it. -/
theorem read_token {at? : List TokenId → Option TokenId} (within : ∀ {l k}, at? l = some k → k ∈ l) {token token' : Option Token}
    (run : t.leaves i = [] ∧ token = none ∨ ∃ k a, at? (t.leaves i) = some k ∧ token = some a ∧ t.tokens[k]? = some a)
    (run' : t'.leaves i = [] ∧ token' = none ∨
      ∃ k a, at? (t'.leaves i) = some k ∧ token' = some a ∧ t'.tokens[k]? = some a) : token = token' := by
  rw [h.leaves here stands stands'] at run'
  rcases run with ⟨empty, rfl⟩ | ⟨k, a, first, rfl, found⟩
  · rcases run' with ⟨-, rfl⟩ | ⟨k, _, first, -⟩
    · rfl
    · exact absurd (within first) (by simp [empty])
  · rcases run' with ⟨empty, -⟩ | ⟨_, a', first', rfl, found'⟩
    · exact absurd (within first) (by simp [empty])
    · cases first.symm.trans first'
      rw [h.getElem?_token here (within first), found] at found'
      exact found'

theorem read_firstToken {first first' : Option Token} (run : Uncached.firstToken? i t = .ok first)
    (run' : Uncached.firstToken? i t' = .ok first') : first = first' :=
  h.read_token here stands stands' List.mem_of_head? (Uncached.firstToken?_ok run).2 (Uncached.firstToken?_ok run').2

theorem read_lastToken {last last' : Option Token} (run : Uncached.lastToken? i t = .ok last)
    (run' : Uncached.lastToken? i t' = .ok last') : last = last' :=
  h.read_token here stands stands' List.mem_of_getLast? (Uncached.lastToken?_ok run).2 (Uncached.lastToken?_ok run').2

theorem read_start {p p' : Position} (run : Uncached.start i t = .ok p) (run' : Uncached.start i t' = .ok p') : p = p' := by
  obtain ⟨first, read, run⟩ := Uncached.bind_ok.mp run
  obtain ⟨first', read', run'⟩ := Uncached.bind_ok.mp run'
  obtain rfl := h.read_firstToken here stands stands' read read'
  cases first with
  | none => exact h.read_emptyPosition here run run'
  | some token => exact Except.ok.inj (run.symm.trans run')

theorem read_stop {p p' : Position} (run : Uncached.stop i t = .ok p) (run' : Uncached.stop i t' = .ok p') : p = p' := by
  obtain ⟨last, read, run⟩ := Uncached.bind_ok.mp run
  obtain ⟨last', read', run'⟩ := Uncached.bind_ok.mp run'
  obtain rfl := h.read_lastToken here stands stands' read read'
  cases last with
  | none => exact h.read_emptyPosition here run run'
  | some token => exact Except.ok.inj (run.symm.trans run')

theorem read_range {r r' : ByteRange} (run : Uncached.range i t = .ok r) (run' : Uncached.range i t' = .ok r') : r = r' := by
  obtain ⟨first, read, run⟩ := Uncached.bind_ok.mp run
  obtain ⟨first', read', run'⟩ := Uncached.bind_ok.mp run'
  obtain rfl := h.read_firstToken here stands stands' read read'
  obtain ⟨last, read, run⟩ := Uncached.bind_ok.mp run
  obtain ⟨last', read', run'⟩ := Uncached.bind_ok.mp run'
  obtain rfl := h.read_lastToken here stands stands' read read'
  have empty (run : (do return ByteRange.empty (((← Uncached.look Node.mark? i).map Mark.offset).getD 0)) t = .ok r)
      (run' : (do return ByteRange.empty (((← Uncached.look Node.mark? i).map Mark.offset).getD 0)) t' = .ok r') :
      r = r' := by
    obtain ⟨mark, look, told⟩ := Uncached.bind_ok.mp run
    obtain ⟨mark', look', told'⟩ := Uncached.bind_ok.mp run'
    obtain rfl := h.read_mark here look look'
    exact Except.ok.inj (told.symm.trans told')
  cases first with
  | none => cases last <;> exact empty run run'
  | some token =>
    cases last with
    | none => exact empty run run'
    | some token' => exact Except.ok.inj (run.symm.trans run')

end Shares

end SyntaxTree

/-! ### Trees that are not moved -/

namespace Displacement

open SyntaxTree (Both Agrees Shares)

variable {among : NodeId → Prop} {t t' : SyntaxTree} {F F' : Forest} (h : t.Shares among t') (sound : t.Sound F)
  (sound' : t'.Sound F')
include h sound sound'

theorem nodes_of_shares {i : NodeId} (here : among i) (made : i < t.size) : zero.Nodes t t' i i := by
  have stands := sound.stands
  have stands' := sound'.stands
  have made' : i < t'.size := by
    obtain ⟨node, found⟩ : ∃ node, t.nodes[i]? = some node := ⟨_, Array.getElem?_eq_getElem made⟩
    exact SyntaxTree.lt_size_of_tag? ((h.tag here).trans (by rw [SyntaxTree.tag?, found]; rfl))
  have unmoved {p p' : Position} (same : p = p') : zero.Positions p p' := positions_zero.mpr same.symm
  refine ⟨?kind, ?token, ?problem, .inl ⟨?start, ?stop, ?range⟩⟩
  case kind => exact .of_agrees (.kind i) (.kind i) stands stands' (sound.kind made) (sound'.kind made') (h.read_kind here)
  case token =>
    refine .of_agrees (.leafToken? i) (.leafToken? i) stands stands' (sound.leafToken? made) (sound'.leafToken? made')
      fun {token _} run run' => ?_
    obtain rfl := h.read_leafToken here run run'
    cases token with
    | none => exact .none
    | some => exact .some (tokens_zero.mpr rfl)
  case problem =>
    refine .of_agrees (.problem? i) (.problem? i) stands stands' (sound.problem? made) (sound'.problem? made')
      fun {problem _} run run' => ?_
    obtain ⟨mark, look, told⟩ := Uncached.bind_ok.mp run
    obtain ⟨mark', look', told'⟩ := Uncached.bind_ok.mp run'
    obtain rfl := h.read_mark here look look'
    cases told.symm.trans told'
    cases problem with
    | none => exact .none
    | some => exact .some rfl
  case start =>
    exact .of_agrees (.start i) (.start i) stands stands' (sound.start made) (sound'.start made') fun run run' =>
      unmoved (h.read_start here stands stands' run run')
  case stop =>
    exact .of_agrees (.stop i) (.stop i) stands stands' (sound.stop made) (sound'.stop made') fun run run' =>
      unmoved (h.read_stop here stands stands' run run')
  case range =>
    refine .of_agrees (.range i) (.range i) stands stands' (sound.range made) (sound'.range made') fun run run' => ?_
    obtain rfl := h.read_range here stands stands' run run'
    exact ⟨offsets_zero.mpr rfl, offsets_zero.mpr rfl⟩

theorem trees_of_below {i : NodeId} (here : among i) (made : i < t.size)
    (below : ∀ j ∈ t.childrenOf i, zero.Trees t t' j j) : zero.Trees t t' i i := by
  refine .node (nodes_of_shares h sound sound' here made) ?_
  rw [h.children here]
  exact List.forall₂_same.mpr below

/-- By induction on the forest that stands in the first tree. -/
theorem trees_of_shares {parent : Option NodeId} {G : Forest} (holds : t.Holds parent G) :
    ∀ i ∈ G.ids, among i → zero.Trees t t' i i := by
  induction G generalizing parent with
  | nil => exact nofun
  | leaf id token rest ih =>
    obtain ⟨⟨kept, node, -⟩, beside⟩ := holds
    intro i mem here
    rcases List.mem_cons.mp mem with rfl | mem
    · refine trees_of_below h sound sound' here (Array.getElem?_eq_some_iff.mp node).1 fun j child => ?_
      rw [SyntaxTree.childrenOf, node] at child
      cases child
    · exact ih beside i mem here
  | branch id label inner rest ihInner ihRest =>
    obtain ⟨⟨kept, node, -⟩, within, beside⟩ := holds
    intro i mem here
    rcases List.mem_cons.mp mem with rfl | mem
    · refine trees_of_below h sound sound' here (Array.getElem?_eq_some_iff.mp node).1 fun j child => ?_
      refine ihInner within j ?_ (h.below here child)
      exact Forest.mem_ids_of_mem_roots (by simpa [SyntaxTree.childrenOf, node, Node.children] using child)
    · rcases List.mem_append.mp mem with mem | mem
      · exact ihInner within i mem here
      · exact ihRest beside i mem here

end Displacement

end SmithyIdl
