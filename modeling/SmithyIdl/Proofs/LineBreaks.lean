import SmithyIdl.Proofs.Buffer.Alongside
import SmithyIdl.Proofs.ErrorCount
import SmithyIdl.Proofs.Lockstep.Statements
import SmithyIdl.Proofs.Token.LineBreaks

/-! # Files with line breaks of two characters

A text and the same text with a carriage return before each line feed have tokens that belong together. The grammar
takes the same steps on both, so the two trees have the same nodes in the same places. -/

namespace SmithyIdl

namespace Onset

/-- At the start of both texts there is nothing but the roots. -/
def fresh (L : Layout) : Onset where
  made := 1
  made' := 1
  taken := 0
  taken' := 0
  counted := 0
  counted' := 0
  top := SyntaxTree.root
  top' := SyntaxTree.root
  before := []
  before' := []
  layout := L
  top_root := iff_of_true rfl rfl
  top_lt := Nat.zero_lt_one
  top_lt' := Nat.zero_lt_one
  before_lt := nofun
  before_lt' := nofun

variable {L : Layout} {i i' p p' : NodeId} {l l' : List NodeId}

theorem fresh_twin_iff : (fresh L).Twin i i' ↔ i' = i ∧ 1 ≤ i := Abreast.same_iff

theorem fresh_seat_eq (h : (fresh L).Seat p p') : p' = p := by
  cases h with
  | twin twin => exact (fresh_twin_iff.mp twin).1
  | top => rfl
  | old lt ne => exact absurd (Nat.lt_one_iff.mp lt) ne

theorem fresh_twins_eq (h : List.Forall₂ (fresh L).Twin l l') : l' = l := by
  induction h with
  | nil => rfl
  | cons twin _ ih => rw [(fresh_twin_iff.mp twin).1, ih]

theorem fresh_twin (below : SyntaxTree.root ≠ i) : (fresh L).Twin i i :=
  fresh_twin_iff.mpr ⟨rfl, Nat.one_le_iff_ne_zero.mpr below.symm⟩

end Onset

/-- At the start of texts with tokens that belong together. -/
theorem Buffer.ofText_alongside (L : Layout) (filename : String) {text text' : String} (maxDepth : Nat)
    (same : List.Forall₂ L.token (tokens text) (tokens text')) :
    (Buffer.ofText filename text maxDepth).Alongside (.fresh L) (.ofText filename text' maxDepth) where
  tree := .start (SyntaxTree.stands_new ..) (SyntaxTree.stands_new ..) rfl rfl rfl rfl fun {k k'} taken => by
    obtain ⟨rfl, -⟩ := Abreast.same_iff.mp taken
    have both := rel_getElem? same k'
    rwa [← List.getElem?_toArray, ← List.getElem?_toArray] at both
  openNodes := .cons .top .nil
  maxDepth := rfl
  cursor := .refl
  errors := .refl
  sees := (Splits.ofText filename text maxDepth).sees (.ofText filename text' maxDepth) same

/-! ### The trees -/

/-- The same nodes in the same arrangement: leaves of the tokens with the same numbers, and nodes of the same kinds. -/
structure SyntaxTree.SameShape (t t' : SyntaxTree) : Prop where
  size : t'.size = t.size
  kind : ∀ i, t'.kind? i = t.kind? i
  token : ∀ i : NodeId, t'.nodes[i]?.bind Node.token? = t.nodes[i]?.bind Node.token?
  parent : ∀ i, t'.parent? i = t.parent? i
  children : ∀ i, t'.childrenOf i = t.childrenOf i

namespace SyntaxTree

variable {L : Layout} {t t' : SyntaxTree} {i : NodeId}

theorem Matched.eq (m : Matched (.fresh L) t t' i i) : t'.kind? i = t.kind? i ∧
    t'.nodes[i]?.bind Node.token? = t.nodes[i]?.bind Node.token? ∧ t'.childrenOf i = t.childrenOf i := by
  rw [kind?_eq_tag?, kind?_eq_tag?, token?_eq_tag?, token?_eq_tag?]
  generalize t.tag? i = tag, t'.tag? i = tag', m.tag = tags
  refine ⟨?_, ?_, Onset.fresh_twins_eq m.children⟩
  all_goals
    cases tags with
    | none => rfl
    | some tags =>
      cases tags with
      | leaf taken =>
        obtain ⟨rfl, -⟩ := Abreast.same_iff.mp taken
        rfl
      | plain kind => rfl
      | error marks => rfl

/-- The roots belong together as well. -/
theorem Alongside.matched_all (h : Alongside (.fresh L) t t') (tag : t.tag? root = some (.inr (.plain .idl)))
    (tag' : t'.tag? root = some (.inr (.plain .idl))) (i : NodeId) : Matched (.fresh L) t t' i i := by
  by_cases here : root = i
  · subst here
    obtain ⟨new, new', old, old', twins⟩ := h.top
    refine ⟨?_, ?_⟩
    · rw [tag, tag']
      exact .some (.plain .idl)
    · rw [show t.childrenOf root = new from old, show t'.childrenOf root = new' from old']
      exact twins
  · exact h.matched (Onset.fresh_twin here)

theorem Alongside.sameShape (h : Alongside (.fresh L) t t') (all : ∀ i, Matched (.fresh L) t t' i i)
    (top : t.parent? root = none) (top' : t'.parent? root = none) : SameShape t t' where
  size := (Onset.fresh_twin_iff.mp h.size).1
  kind i := (all i).eq.1
  token i := (all i).eq.2.1
  children i := (all i).eq.2.2
  parent i := by
    by_cases here : root = i
    · rw [← here, top, top']
    · have both := h.parent (Onset.fresh_twin here)
      generalize t.parent? i = p, t'.parent? i = p' at both
      cases both with
      | none => rfl
      | some seat => rw [Onset.fresh_seat_eq seat]

/-- A position that is read in both trees is the same. -/
theorem Both.exists_position {r : Reading Position} (h : Both t t' r r fun p p' => p = p' ∨ p = .nowhere ∧ p' = .nowhere) :
    ∃ p, r.run' t = .ok p ∧ r.run' t' = .ok p := by
  obtain ⟨p, p', run, run', same | ⟨rfl, rfl⟩⟩ := h
  · obtain rfl : p = p' := same
    exact ⟨p, run, run'⟩
  · exact ⟨_, run, run'⟩

theorem SameShape.descendantsWithin (h : SameShape t t') (n : Nat) (i : NodeId) :
    t'.descendantsWithin n i = t.descendantsWithin n i := by
  induction n generalizing i with
  | zero => rfl
  | succ n ih => simp only [SyntaxTree.descendantsWithin, h.children, ih]

theorem SameShape.errorNodes (h : SameShape t t') : t'.errorNodes = t.errorNodes := by
  simp only [SyntaxTree.errorNodes, descendants, h.size, h.descendantsWithin, h.kind]

end SyntaxTree

namespace Grammar.Finished

variable {b : Buffer} {text : String} {F L : Forest}

/-- The root is a file, and nothing holds it. -/
theorem root_parts (h : Finished b text F L) :
    b.tree.tag? SyntaxTree.root = some (.inr (.plain .idl)) ∧ b.tree.parent? SyntaxTree.root = none := by
  obtain ⟨⟨kept, root, -⟩, -, -⟩ := h.stands.holds
  rw [SyntaxTree.tag?, SyntaxTree.parent?, root]
  exact ⟨rfl, rfl⟩

end Grammar.Finished

/-- The two trees of a text have the same nodes in the same places, whatever line breaks the text is written with. -/
theorem parse_crlf (filename text : String) (maxDepth : Nat) (none : '\r' ∉ text.toList) :
    List.Forall₂ (fun t t' => t'.kind = t.kind ∧ t'.start = t.start ∧ t'.stop = t.stop ∧ t'.number? = t.number? ∧
        (t.kind = .textBlock → t'.string? = t.string?))
      (tokens text) (tokens (crlfText text)) ∧
    ∃ m m', parse filename text maxDepth = .ok m ∧ parse filename (crlfText text) maxDepth = .ok m' ∧
      m.tree.SameShape m'.tree ∧ m'.tree.errorNodes = m.tree.errorNodes ∧
      ∀ i < m.tree.size, ∃ start stop, m.read (Reading.start i) = .ok start ∧ m'.read (Reading.start i) = .ok start ∧
        m.read (Reading.stop i) = .ok stop ∧ m'.read (Reading.stop i) = .ok stop := by
  have same := tokens_reflow none
  refine ⟨same.imp fun t t' token => ⟨token.content.kind_eq, token.start, token.stop, token.number?_eq,
    token.string?_eq⟩, ?_⟩
  obtain ⟨b, F, L, run, finished, -⟩ := Grammar.model_run filename text maxDepth
  obtain ⟨b', F', L', run', finished', -⟩ := Grammar.model_run filename (crlfText text) maxDepth
  have start := Buffer.ofText_alongside reflowing filename maxDepth same
  have agree := (Grammar.model_lockstep (M := (Onset.fresh reflowing).matching) trivial trivial).agrees
    (Onset.fresh reflowing).simulation start
  rw [run, run'] at agree
  cases agree with
  | escaped lost => exact lost.elim
  | ok _ alongside =>
    have tree := alongside.tree
    have all := tree.matched_all finished.root_parts.1 finished'.root_parts.1
    have shape := tree.sameShape all finished.root_parts.2 finished'.root_parts.2
    refine ⟨⟨filename, b.tree⟩, ⟨filename, b'.tree⟩, parse_of_run run finished.finish, parse_of_run run' finished'.finish,
      shape, shape.errorNodes, fun i made => ?_⟩
    have made' : i < b'.tree.size := shape.size ▸ made
    have starts := SyntaxTree.Both.of_agrees (.start i) (.start i) finished.stands finished'.stands
      (finished.sound_all.start made) (finished'.sound_all.start made') fun run run' =>
        (tree.read_start (all i) run run').imp_right And.right
    have stops := SyntaxTree.Both.of_agrees (.stop i) (.stop i) finished.stands finished'.stands
      (finished.sound_all.stop made) (finished'.sound_all.stop made') fun run run' =>
        (tree.read_stop (all i) run run').imp_right And.right
    obtain ⟨start, startsAt, startsAt'⟩ := starts.exists_position
    obtain ⟨stop, stopsAt, stopsAt'⟩ := stops.exists_position
    exact ⟨start, stop, startsAt, startsAt', stopsAt, stopsAt'⟩

/-- A string goes on behind an escaped line break, and traits are missing their shape. -/
theorem parse_crlf_continued : '\r' ∉ "$a: \"b\\\nc\"\n@d\n".toList ∧
    List.Forall₂ (fun t t' => t'.kind = t.kind ∧ t'.start = t.start ∧ t'.stop = t.stop ∧ t'.number? = t.number? ∧
        (t.kind = .textBlock → t'.string? = t.string?))
      (tokens "$a: \"b\\\nc\"\n@d\n") (tokens (crlfText "$a: \"b\\\nc\"\n@d\n")) ∧
    ∃ m m', parse "a.smithy" "$a: \"b\\\nc\"\n@d\n" defaultMaxDepth = .ok m ∧
      parse "a.smithy" (crlfText "$a: \"b\\\nc\"\n@d\n") defaultMaxDepth = .ok m' ∧
      m.tree.SameShape m'.tree ∧ m'.tree.errorNodes = m.tree.errorNodes ∧
      ∀ i < m.tree.size, ∃ start stop, m.read (Reading.start i) = .ok start ∧ m'.read (Reading.start i) = .ok start ∧
        m.read (Reading.stop i) = .ok stop ∧ m'.read (Reading.stop i) = .ok stop :=
  ⟨by decide, parse_crlf "a.smithy" "$a: \"b\\\nc\"\n@d\n" defaultMaxDepth (by decide)⟩

end SmithyIdl
