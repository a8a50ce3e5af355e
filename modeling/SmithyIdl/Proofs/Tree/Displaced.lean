import SmithyIdl.Proofs.Enclosed
import SmithyIdl.Proofs.Token.Displaced
import SmithyIdl.Proofs.Tree.Alongside
import SmithyIdl.Proofs.Tree.Starts
import SmithyIdl.Proofs.Tree.Total

/-! # Displaced trees

Trees that have grown alike from tokens that stand elsewhere. All that is read of a new node is read of its twin, as far
away as the tokens are. -/

namespace SmithyIdl

namespace Displacement

variable (d : Displacement)

/-- Tokens that stand elsewhere belong together. -/
def layout : Layout where
  toLikeness := .ofContent d.Tokens Tokens.content Tokens.lexeme fun h => by rw [h.start.column]
  offset := d.Offsets
  position := d.Positions
  offset_min h h' := by
    unfold Offsets at h h' ⊢
    omega
  offset_start h := h.range.start
  position_start := Tokens.start
  position_stop := Tokens.stop

variable {d} {t t' : Token} {r r' s s' : ByteRange} {problem problem' : Problem}

theorem Ranges.cover (h : d.Ranges r r') (h' : d.Ranges s s') : d.Ranges (r.cover s) (r'.cover s') where
  start := d.layout.offset_min h.start h'.start
  stop := by
    have stop := h.stop
    have stop' := h'.stop
    unfold Offsets ByteRange.cover at *
    dsimp only
    omega

theorem Tokens.expectedMessage_eq (h : d.Tokens t t') (kinds : TokenSet) :
    Problem.expectedMessage kinds t' = Problem.expectedMessage kinds t := by
  simp only [Problem.expectedMessage, h.describe_eq]

/-- What is told of tokens is told of them elsewhere. -/
theorem message_eq (h : problem.Like d.layout.toLikeness problem') : problem'.message = problem.message := by
  cases h with
  | plain => rfl
  | lexical token told told' =>
    have same : _ = _ := congrArg TokenContent.error? (Tokens.content token)
    cases told.symm.trans (same.symm.trans told')
    rfl
  | expected kinds token => exact Tokens.expectedMessage_eq token kinds
  | noNamespace token | noStatement token | noLineBreak token | noEndOfFile token | noMemberName token
  | noAbsoluteId token =>
    exact congrArg (_ ++ ·) (Tokens.describe_eq token)
  | unknownShapeType name | duplicateProperty name | unknownProperty name => rw [show d.layout.respell name = name from rfl]

end Displacement

/-! ### Places of nodes -/

namespace SyntaxTree

variable {O : Onset} {t t' : SyntaxTree} {i i' : NodeId} {F : Forest} {n : Nat} {r r' : ByteRange}

/-- Nothing of the text is below the node, and it reports nothing, so there is no place where it stands. -/
structure Unplaced (t : SyntaxTree) (i : NodeId) : Prop where
  tokens : (Reading.tokens i).run' t = .ok []
  problem? : (Reading.problem? i).run' t = .ok none

theorem Stands.unplaced (stands : t.Stands F) (made : i < t.size) (leaves : t.leaves i = [])
    (unmarked : ∀ mark, t.tag? i ≠ some (.inr (.error mark))) : t.Unplaced i where
  tokens := by
    rw [(Agrees.tokens i).reads stands]
    have found : t.nodes[i]? = some t.nodes[i] := Array.getElem?_eq_getElem made
    unfold Uncached.tokens
    rw [Uncached.run_bind_of_ok (Uncached.tokenIds_run found), leaves]
    rfl
  problem? := by
    rw [(Agrees.problem? i).reads stands]
    have found : t.nodes[i]? = some t.nodes[i] := Array.getElem?_eq_getElem made
    have none : t.nodes[i].mark? = none := by
      have unmarked := unmarked
      rw [tag?, found] at unmarked
      generalize t.nodes[i] = node at unmarked
      obtain ⟨_ | ⟨_ | mark, _⟩, _, _⟩ := node
      · rfl
      · rfl
      · exact absurd rfl (unmarked mark)
    unfold Uncached.problem?
    rw [Uncached.run_bind_of_ok (Uncached.look_run found), none]
    rfl

/-- An error around traits has a token in it. -/
theorem Anchored.unmarked (h : t.Anchored n) (stands : t.Stands F) (blank : t.Blank i) (mark : Mark) :
    t.tag? i ≠ some (.inr (.error mark)) := by
  intro tag
  by_cases encloses : mark.problem.encloses = true
  · obtain ⟨j, token, leaf, path⟩ := h.token tag encloses
    have among := stands.mem_leaves (path.mem_ancestors stands) leaf
    rw [blank.leaves] at among
    cases among
  · exact blank.silent ⟨mark, tag, eq_false_of_ne_true encloses⟩

namespace Matched

variable (m : Matched O t t' i i')
include m

theorem unmarked (none : ∀ mark, t.tag? i ≠ some (.inr (.error mark))) (mark : Mark) :
    t'.tag? i' ≠ some (.inr (.error mark)) := by
  intro tag'
  generalize tag : t.tag? i = tag? at none
  have tags := m.tag
  rw [tag, tag'] at tags
  cases tags with
  | some tags =>
    cases tags with
    | error => exact none _ rfl

theorem read_kind {k k' : TreeKind} (run : Uncached.kind i t = .ok k) (run' : Uncached.kind i' t' = .ok k') : k = k' := by
  refine m.read_look (fun n n' tags => ?_) run run'
  obtain ⟨content, parent, kept⟩ := n
  obtain ⟨content', parent', kept'⟩ := n'
  cases content <;> cases content' <;> cases tags <;> rfl

theorem read_tokenId {k k' : Option TokenId} (run : Uncached.look Node.token? i t = .ok k)
    (run' : Uncached.look Node.token? i' t' = .ok k') : Option.Rel O.Taken k k' := by
  refine m.read_look (fun n n' tags => ?_) run run'
  obtain ⟨content, parent, kept⟩ := n
  obtain ⟨content', parent', kept'⟩ := n'
  cases content <;> cases content' <;> cases tags <;> first | exact .none | exact .some ‹_›

end Matched

namespace Alongside

variable (h : Alongside O t t') (m : Matched O t t' i i')
include h m

theorem read_leafToken {token token' : Option Token} (run : Uncached.leafToken? i t = .ok token)
    (run' : Uncached.leafToken? i' t' = .ok token') : Option.Rel O.layout.token token token' := by
  obtain ⟨k, look, read⟩ := Uncached.bind_ok.mp run
  obtain ⟨k', look', read'⟩ := Uncached.bind_ok.mp run'
  have found := Uncached.mapM_token_ok read
  have found' := Uncached.mapM_token_ok read'
  cases m.read_tokenId look look' with
  | none =>
    rcases found with ⟨-, rfl⟩ | ⟨_, _, here, -⟩
    · rcases found' with ⟨-, rfl⟩ | ⟨_, _, here', -⟩
      · exact .none
      · cases here'
    · cases here
  | some taken =>
    have both := h.tokens taken
    rcases found with ⟨none, -⟩ | ⟨_, _, here, rfl, token⟩
    · cases none
    rcases found' with ⟨none, -⟩ | ⟨_, _, here', rfl, token'⟩
    · cases none
    cases here
    cases here'
    rwa [token, token'] at both

/-- A node that is not blank covers what its twin does, elsewhere. -/
theorem read_range {d : Displacement} (same : O.layout = d.layout) (placed : ¬ t.Blank i) (run : Uncached.range i t = .ok r)
    (run' : Uncached.range i' t' = .ok r') : d.Ranges r r' := by
  obtain ⟨first, read, run⟩ := Uncached.bind_ok.mp run
  obtain ⟨last, readLast, run⟩ := Uncached.bind_ok.mp run
  obtain ⟨first', read', run'⟩ := Uncached.bind_ok.mp run'
  obtain ⟨last', readLast', run'⟩ := Uncached.bind_ok.mp run'
  have firsts := h.read_firstToken m read read'
  have lasts := h.read_lastToken m readLast readLast'
  cases firsts with
  | none =>
    have run : (do return ByteRange.empty (((← Uncached.look Node.mark? i).map Mark.offset).getD 0)) t = .ok r := by
      cases last <;> exact run
    have run' : (do return ByteRange.empty (((← Uncached.look Node.mark? i').map Mark.offset).getD 0)) t' = .ok r' := by
      cases last' <;> exact run'
    obtain ⟨mark, look, found⟩ := Uncached.bind_ok.mp run
    obtain ⟨mark', look', found'⟩ := Uncached.bind_ok.mp run'
    have reports : t.Reports i := by_contra fun silent => placed ⟨Uncached.firstToken?_none read, silent⟩
    obtain ⟨place, place', rfl, rfl, offset, -⟩ := m.read_report reports look look'
    cases found
    cases found'
    rw [same] at offset
    exact Displacement.Offsets.empty offset
  | some token =>
    cases lasts with
    | none => cases Uncached.lastToken?_of_first read readLast
    | some token' =>
      cases run
      cases run'
      rw [same] at token token'
      exact Displacement.Ranges.cover (Displacement.Tokens.range token) (Displacement.Tokens.range token')

end Alongside

end SyntaxTree

/-! ### Displaced nodes -/

namespace Displacement

open SyntaxTree (Both Agrees)

variable (d : Displacement) (t t' : SyntaxTree)

/-- Two nodes read the same, as far away as their tokens are. Where one is at no place, so is the other. -/
structure Nodes (i i' : NodeId) : Prop where
  kind : Both t t' (Reading.kind i) (Reading.kind i') Eq
  token : Both t t' (Reading.leafToken? i) (Reading.leafToken? i') (Option.Rel d.Tokens)
  problem : Both t t' (Reading.problem? i) (Reading.problem? i') (Option.Rel fun p p' => p'.message = p.message)
  place : Both t t' (Reading.start i) (Reading.start i') d.Positions ∧
      Both t t' (Reading.stop i) (Reading.stop i') d.Positions ∧
      Both t t' (Reading.range i) (Reading.range i') d.Ranges ∨
    t.Unplaced i ∧ t'.Unplaced i'

/-- The same for all that is below the two nodes, in the same arrangement. -/
inductive Trees : NodeId → NodeId → Prop where
  | node {i i' : NodeId} (here : d.Nodes t t' i i') (below : List.Forall₂ Trees (t.childrenOf i) (t'.childrenOf i')) :
      Trees i i'

variable {d t t'} {O : Onset} {F F' : Forest} {n : Nat} {i i' : NodeId}

section
variable (h : SyntaxTree.Alongside O t t') (same : O.layout = d.layout) (sound : t.Sound F) (sound' : t'.Sound F')
  (anchored : t.Anchored n)
include h same sound sound' anchored

theorem nodes_of_alongside (made : i < t.size) (twin : O.Twin i i') : d.Nodes t t' i i' := by
  have m := h.matched twin
  have made' : i' < t'.size := (twin.lt_iff h.size).mp made
  have stands := sound.stands
  have stands' := sound'.stands
  refine ⟨?kind, ?token, ?problem, ?place⟩
  case kind => exact .of_agrees (.kind i) (.kind i') stands stands' (sound.kind made) (sound'.kind made') m.read_kind
  case token =>
    refine .of_agrees (.leafToken? i) (.leafToken? i') stands stands' (sound.leafToken? made) (sound'.leafToken? made')
      fun run run' => ?_
    have tokens := h.read_leafToken m run run'
    rwa [same] at tokens
  case problem =>
    refine .of_agrees (.problem? i) (.problem? i') stands stands' (sound.problem? made) (sound'.problem? made')
      fun run run' => ?_
    obtain ⟨mark, look, found⟩ := Uncached.bind_ok.mp run
    obtain ⟨mark', look', found'⟩ := Uncached.bind_ok.mp run'
    cases found
    cases found'
    cases m.read_mark look look' with
    | none => exact .none
    | some marks =>
      rcases marks.problem with like | ⟨eq, -⟩
      · rw [same] at like
        exact .some (message_eq like)
      · exact .some (congrArg _ eq)
  case place =>
    by_cases blank : t.Blank i
    · have leaves' : t'.leaves i' = [] := List.forall₂_nil_left_iff.mp (blank.leaves ▸ h.leaves m)
      have unmarked := anchored.unmarked stands blank
      exact .inr ⟨stands.unplaced made blank.leaves unmarked, stands'.unplaced made' leaves' (m.unmarked unmarked)⟩
    · refine .inl ⟨?_, ?_, ?_⟩
      · refine .of_agrees (.start i) (.start i') stands stands' (sound.start made) (sound'.start made') fun run run' => ?_
        have start := (h.read_start m run run').resolve_right (mt And.left blank)
        rwa [same] at start
      · refine .of_agrees (.stop i) (.stop i') stands stands' (sound.stop made) (sound'.stop made') fun run run' => ?_
        have stop := (h.read_stop m run run').resolve_right (mt And.left blank)
        rwa [same] at stop
      · exact .of_agrees (.range i) (.range i') stands stands' (sound.range made) (sound'.range made')
          (h.read_range m same blank)

theorem trees_of_children (made : i < t.size) (twin : O.Twin i i')
    (below : ∀ j ∈ t.childrenOf i, ∀ j', O.Twin j j' → d.Trees t t' j j') : d.Trees t t' i i' := by
  have children := (List.forall₂_and_left _ _).mpr ⟨below, (h.matched twin).children⟩
  exact .node (nodes_of_alongside h same sound sound' anchored made twin) (children.imp fun j j' ⟨all, twin⟩ => all j' twin)

/-- By induction on the forest that stands in the first tree. -/
theorem trees_of_holds {parent : Option NodeId} {G : Forest} (holds : t.Holds parent G) :
    ∀ i ∈ G.ids, ∀ i', O.Twin i i' → d.Trees t t' i i' := by
  induction G generalizing parent with
  | nil => exact nofun
  | leaf id token rest ih =>
    obtain ⟨⟨kept, node, -⟩, beside⟩ := holds
    intro i among i' twin
    rcases List.mem_cons.mp among with rfl | among
    · refine trees_of_children h same sound sound' anchored (Array.getElem?_eq_some_iff.mp node).1 twin fun j child => ?_
      rw [SyntaxTree.childrenOf, node] at child
      cases child
    · exact ih beside i among i' twin
  | branch id label inner rest ihInner ihRest =>
    obtain ⟨⟨kept, node, -⟩, within, beside⟩ := holds
    intro i among i' twin
    rcases List.mem_cons.mp among with rfl | among
    · refine trees_of_children h same sound sound' anchored (Array.getElem?_eq_some_iff.mp node).1 twin fun j child => ?_
      refine ihInner within j ?_
      exact Forest.mem_ids_of_mem_roots (by simpa [SyntaxTree.childrenOf, node, Node.children] using child)
    · rcases List.mem_append.mp among with among | among
      · exact ihInner within i among i' twin
      · exact ihRest beside i among i' twin

/-- Below the two tops stand displaced trees behind what was there before. -/
theorem trees_of_alongside : ∃ new new', t.childrenOf O.top = O.before ++ new ∧
    t'.childrenOf O.top' = O.before' ++ new' ∧ List.Forall₂ (d.Trees t t') new new' := by
  obtain ⟨new, new', children, children', twins⟩ := h.top
  refine ⟨new, new', children, children', ?_⟩
  have all := trees_of_holds h same sound sound' anchored sound.stands.holds
  have made : ∀ i ∈ new, i ∈ F.ids := fun i among => by
    have child : i ∈ t.childrenOf O.top := children ▸ List.mem_append_right _ among
    exact sound.stands.mem_ids.mpr (sound.stands.lt_of_parent? (sound.stands.mem_childrenOf.mp child)).1
  exact ((List.forall₂_and_left _ _).mpr ⟨made, twins⟩).imp fun i i' ⟨among, twin⟩ => all i among i' twin

end

end Displacement

end SmithyIdl
