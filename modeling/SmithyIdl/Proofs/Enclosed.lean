import Mathlib.Logic.Relation
import SmithyIdl.Proofs.Buffer.Adds
import SmithyIdl.Proofs.Buffer.Invariant
import SmithyIdl.Proofs.Grammar.Unfailing
import SmithyIdl.Proofs.Lockstep.Statements

/-! # Errors around traits

An error that is put around traits keeps their tokens. For only traits and documentation comments are moved, and each
before the next of them are read, so what is moved later was made later. -/

namespace SmithyIdl

open SyntaxTree (Adds)

namespace SyntaxTree

/-- The node `p` stands above `i`, and the nodes on the way up to it are of the first `n`. -/
def AboveWithin (t : SyntaxTree) (n : Nat) : NodeId → NodeId → Prop :=
  Relation.TransGen fun i p => i < n ∧ t.parent? i = some p

/-- Every error around traits has a token in it, and the nodes on the way to it are of the first `n`. -/
structure Anchored (t : SyntaxTree) (n : Nat) : Prop where
  made : n ≤ t.size
  token : ∀ {e mark}, t.tag? e = some (.inr (.error mark)) → mark.problem.encloses = true →
    ∃ i token, t.tag? i = some (.inl token) ∧ t.AboveWithin n i e

variable {t t' : SyntaxTree} {n : Nat} {e i : NodeId} {F : Forest} {new : TokenId ⊕ Label → Prop}

theorem AboveWithin.step (h : t.AboveWithin n i e) {m : Nat} (made : n ≤ t.size) (le : n ≤ m)
    (adds : Adds new (n ≤ ·) t t') : t'.AboveWithin m i e :=
  Relation.TransGen.mono (fun _ _ ⟨old, above⟩ => ⟨Nat.lt_of_lt_of_le old le,
    (adds.parents (Nat.lt_of_lt_of_le old made) (Nat.not_le_of_lt old)).trans above⟩) _ _ h

theorem AboveWithin.mem_ancestors (h : t.AboveWithin n i e) (stands : t.Stands F) : e ∈ t.ancestors i := by
  induction h using Relation.TransGen.head_induction_on with
  | single step => exact stands.ancestors_of_some step.2 ▸ List.mem_cons_self
  | head step _ ih => exact stands.ancestors_of_some step.2 ▸ List.mem_cons_of_mem _ ih

/-- Where the first `n` nodes stay in place, they stay below what they are below. -/
theorem Anchored.step (h : t.Anchored n) (extends' : t.Extends t') (adds : Adds new (n ≤ ·) t t')
    (harmless : ∀ mark, new (.inr (.error mark)) → mark.problem.encloses = false) : t'.Anchored n where
  made := Nat.le_trans h.made adds.size
  token {e mark} found encloses := by
    rcases adds.tags found with old | ⟨-, fresh⟩
    · obtain ⟨i, token, leaf, path⟩ := h.token old encloses
      exact ⟨i, token, extends'.tag?_eq leaf, path.step h.made (Nat.le_refl n) adds⟩
    · rw [harmless mark fresh] at encloses
      cases encloses

/-- Moving later nodes. -/
theorem Anchored.keep (h : t.Anchored n) (extends' : t.Extends t') (adds : Adds (fun _ => False) (n ≤ ·) t t') :
    t'.Anchored n := h.step extends' adds nofun

/-- A token of a forest stands below what the forest stands below. -/
theorem Holds.exists_below (h : t.Holds (some e) F) (tokens : F.tokens ≠ []) :
    ∃ i token, t.tag? i = some (.inl token) ∧ t.AboveWithin t.size i e := by
  induction F generalizing e with
  | nil => exact absurd rfl tokens
  | leaf id token rest =>
    obtain ⟨⟨kept, node, -⟩, -⟩ := h
    have made : id < t.size := (Array.getElem?_eq_some_iff.mp node).1
    refine ⟨id, token, ?_, .single ⟨made, ?_⟩⟩
    · rw [tag?, node]
      rfl
    · rw [parent?, node]
      rfl
  | branch id label inner rest ihInner ihRest =>
    obtain ⟨⟨kept, node, -⟩, holds, beside⟩ := h
    by_cases none : inner.tokens = []
    · refine ihRest beside fun none' => tokens ?_
      rw [Forest.tokens_branch, none, none']
      rfl
    · obtain ⟨i, token, leaf, path⟩ := ihInner holds none
      have made : id < t.size := (Array.getElem?_eq_some_iff.mp node).1
      refine ⟨i, token, leaf, .tail path ⟨made, ?_⟩⟩
      rw [parent?, node]
      rfl

end SyntaxTree

/-! ### Steps -/

open SmithyIdl.Parser (Steady)

/-- Steps that move later nodes only, and put no error around any, keep the tokens of earlier errors. -/
def Invariant.anchored (n : Nat) : Invariant (n ≤ ·) (n ≤ ·) True False where
  holds b := b.tree.Anchored n
  docs_of_node := id
  around := id
  shift h run := h.step (Steady.ok run).tree (Parser.shift_adds run) fun _ error => nomatch error
  openNode h run := by
    obtain ⟨rfl, -⟩ := Parser.openNode_ok run
    exact ⟨h.made, h.step (Steady.ok run).tree (Parser.openNode_adds run) fun _ error => nomatch error⟩
  addError h reported run := by
    obtain rfl := Parser.addError_new run
    refine ⟨h.made, h.step (Steady.ok run).tree (Parser.addError_adds run) fun _ error => ?_⟩
    obtain rfl := Label.error.inj (Sum.inr.inj error)
    exact reported
  adoptDocs h later run := h.keep (Steady.ok run).tree (Parser.adoptDocs_adds later run)
  detach _ h later run := h.keep (Steady.ok run).tree (Parser.detach_adds later run)
  attach _ h later run := h.keep (Steady.ok run).tree (Parser.attach_adds later run)
  encloseInError encloses := encloses.elim

/-- The errors around traits keep their tokens, whatever becomes of the documentation comments. -/
def Buffer.Anchors (b : Buffer) (docs : Option NodeId) : Prop := ∃ n, b.tree.Anchored n ∧ ∀ d ∈ docs, n ≤ d

namespace Grammar

open SmithyIdl.Parser

variable {b b' : Buffer} {v : View} {L : Forest} {docs docs' : Docs} {traits : Option NodeId} {n : Nat}

/-- Traits that are moved into an error are what its tokens are. -/
theorem misplaced_anchored {problem : Problem} (encloses : problem.encloses = true) (shown : b.Shows v)
    (pending : v.Pending traits L) (anchored : b.tree.Anchored n) (later : ∀ d ∈ traits, n ≤ d)
    (run : (misplaced traits problem).run b = .ok () b') : ∃ n', b'.tree.Anchored n' := by
  cases traits with
  | none =>
    cases run
    exact ⟨n, anchored⟩
  | some d =>
    obtain ⟨mark, T, loose, tokens, shown'⟩ :=
      (encloseInError_ensures (E := fun _ => False) encloses shown pending).holds run
    obtain ⟨_, -, adds⟩ := encloseInError_adds (later d rfl) run
    have size : b'.tree.size = b.tree.size + 1 := by
      have before := shown.fits
      have after := shown'.fits
      have grown := (v.ids_grow (.branch b.tree.size (.error mark) T .nil)).length_eq
      simp only [loose, Forest.ids_append, Forest.ids_branch, Forest.ids_nil, List.length_append, List.length_cons,
        List.append_nil] at before grown
      change (v.grow (.branch b.tree.size (.error mark) T .nil)).whole.ids.length + L.ids.length = _ at after
      omega
    have leads := Steady.ok (p := misplaced (some d) problem) run
    refine ⟨b'.tree.size, Nat.le_refl _, fun {e mark'} found encloses' => ?_⟩
    rcases adds.tags found with old | ⟨fresh, -⟩
    · obtain ⟨i, token, leaf, path⟩ := anchored.token old encloses'
      exact ⟨i, token, leads.tree.tag?_eq leaf, path.step anchored.made (Nat.le_trans anchored.made adds.size) adds⟩
    · have made := SyntaxTree.lt_size_of_tag? found
      obtain rfl : e = b.tree.size := Nat.le_antisymm (Nat.le_of_lt_succ (Nat.lt_of_lt_of_eq made size)) fresh
      have placed : b'.tree.Holds none (v.grow (.branch b.tree.size (.error mark) T .nil)).whole := shown'.placed
      rw [View.whole_grow] at placed
      obtain ⟨-, inside, -⟩ := placed.focus
      exact inside.exists_below tokens

/-- What is read behind an error leaves its tokens in it, and gives later documentation comments. -/
theorem anchors_of_lockstep {p : Parser Docs} (anchored : b.tree.Anchored n)
    (lockstep : Lockstep (.alone (n ≤ ·) (n ≤ ·) True False) (Option.Rel fun i i' => i' = i ∧ n ≤ i) p p)
    (run : p.run b = .ok docs b') : b'.Anchors docs := by
  obtain ⟨later, anchored'⟩ := (Invariant.anchored n).keeps lockstep anchored run
  exact ⟨n, anchored', (Matching.alone_rel.mp later).2⟩

/-- The traits of an error stay in it, whatever is read behind it. -/
theorem shapeOrApplyStatement_anchors (shown : b.Shows v) (anchors : b.Anchors docs)
    (run : (shapeOrApplyStatement docs).run b = .ok docs' b') : b'.Anchors docs' := by
  obtain ⟨n, anchored, later⟩ := anchors
  unfold shapeOrApplyStatement at run
  obtain ⟨token, b₁, hask, run⟩ := bind_eq_ok.mp run
  cases hask
  rw [run_ite] at run
  split at run
  · exact anchors_of_lockstep anchored whitespaceUpToDocs_lockstep run
  obtain ⟨traits, b₁, detached, run⟩ := bind_eq_ok.mp run
  obtain ⟨w, shown₁, -, pending⟩ := (detachedTraits_ensures shown).holds detached
  obtain ⟨both, anchored₁⟩ := (Invariant.anchored n).keeps (detachedTraits_lockstep trivial) anchored detached
  have later₁ := (Matching.alone_rel.mp both).2
  obtain ⟨apply, b₂, hask, run⟩ := bind_eq_ok.mp run
  cases hask
  rw [run_ite] at run
  split at run
  · obtain ⟨_, b₂, misplaced, run⟩ := bind_eq_ok.mp run
    obtain ⟨n', anchored₂⟩ := misplaced_anchored rfl shown₁ pending anchored₁ later₁ misplaced
    refine anchors_of_lockstep anchored₂ ?_ run
    infer_instance
  obtain ⟨shape, b₂, hask, run⟩ := bind_eq_ok.mp run
  cases hask
  rw [run_ite] at run
  split at run
  · refine anchors_of_lockstep anchored₁ (statedShape_lockstep trivial ?_ both) run
    exact Matching.alone_rel.mpr ⟨rfl, later⟩
  rw [run_ite] at run
  split at run
  · obtain ⟨_, b₂, misplaced, done⟩ := bind_eq_ok.mp run
    cases done
    obtain ⟨n', anchored₂⟩ := misplaced_anchored rfl shown₁ pending anchored₁ later₁ misplaced
    exact ⟨n', anchored₂, nofun⟩
  · refine anchors_of_lockstep anchored₁ ?_ run
    exact .bind inferInstance fun _ _ _ => .pure .none

theorem refused_lockstep {M : Matching} (kind : TreeKind) [kind.OfRule] :
    Lockstep M Eq (within kind (fail .tooDeep)) (within kind (fail .tooDeep)) := by
  have : Lockstep M Eq (fail .tooDeep : Parser Unit) (fail .tooDeep) := .fail_plain rfl
  infer_instance

theorem shapeStatements_anchored (shown : b.Shows v) (awaits : v.Awaits docs) (anchors : b.Anchors docs)
    (run : (shapeStatements docs).run b = .ok () b') : ∃ n, b'.tree.Anchored n := by
  unfold shapeStatements at run
  rcases within_cases run with refused | ⟨i, b₁, b₂, opened, inside, rfl⟩
  · obtain ⟨n, anchored, -⟩ := anchors
    exact ⟨n, ((Invariant.anchored n).keeps (refused_lockstep _) anchored refused).2⟩
  obtain ⟨b₁', opened', shown₁⟩ := run_openNode shown .shapeStatements
  cases opened'.symm.trans opened
  obtain ⟨n, anchored, later⟩ := anchors
  have anchors₁ : b₁.Anchors docs := ⟨n, ((Invariant.anchored n).openNode anchored opened).2, later⟩
  obtain ⟨docs', b₃, rounds, done⟩ := bind_eq_ok.mp inside
  cases done
  have kept := foldWhile_ok (I := fun docs b' => (∃ v, b'.Shows v ∧ v.Awaits docs) ∧ b'.Anchors docs)
    (fun docs b s' b' ⟨⟨v, shown, awaits⟩, anchors⟩ _ run => ?_) ⟨⟨_, shown₁, awaits.enter _ _⟩, anchors₁⟩ rounds
  · obtain ⟨⟨-, n, anchored, -⟩, -⟩ := kept
    exact ⟨n, anchored⟩
  · obtain ⟨w, shown', -, -, awaits'⟩ := (shapeOrApplyStatement_ensures shown awaits).holds run
    exact ⟨⟨w, shown', awaits'⟩, shapeOrApplyStatement_anchors shown anchors run⟩

theorem shapeSection_anchored (shown : b.Shows v) (anchored : b.tree.Anchored n)
    (run : shapeSection.run b = .ok () b') : ∃ n, b'.tree.Anchored n := by
  unfold shapeSection at run
  obtain ⟨more, b₁, hask, run⟩ := bind_eq_ok.mp run
  cases hask
  rw [run_ite] at run
  split at run
  · rcases within_cases run with refused | ⟨i, b₁, b₂, opened, inside, rfl⟩
    · exact ⟨n, ((Invariant.anchored n).keeps (refused_lockstep _) anchored refused).2⟩
    obtain ⟨b₁', opened', shown₁⟩ := run_openNode shown .shapeSection
    cases opened'.symm.trans opened
    have anchored₁ : b₁.tree.Anchored n := ((Invariant.anchored n).openNode anchored opened).2
    obtain ⟨docs₃, b₃, named, inside⟩ := bind_eq_ok.mp inside
    obtain ⟨w₃, shown₃, -, -, awaits₃⟩ := (namespaceOrError_hands.hands shown₁).holds named
    obtain ⟨later₃, anchored₃⟩ := (Invariant.anchored n).keeps namespaceOrError_lockstep anchored₁ named
    obtain ⟨docs₄, b₄, used, inside⟩ := bind_eq_ok.mp inside
    obtain ⟨w₄, shown₄, -, -, awaits₄⟩ := (useSection_passes shown₃ awaits₃).holds used
    have anchors₄ := anchors_of_lockstep anchored₃ (useSection_lockstep later₃) used
    have anchored₅ := shapeStatements_anchored shown₄ awaits₄ anchors₄ inside
    exact anchored₅
  · cases run
    exact ⟨n, anchored⟩

/-- At the end of every text, errors around traits have tokens. -/
theorem model_anchored {filename text : String} {maxDepth : Nat}
    (run : model.run (.ofText filename text maxDepth) = .ok () b) : ∃ n, b.tree.Anchored n := by
  have empty : (Buffer.ofText filename text maxDepth).tree.Anchored 0 :=
    ⟨Nat.zero_le _, fun found => nomatch (SyntaxTree.tag?_new found).2⟩
  · have shown := ofText_shows filename text maxDepth
    unfold model at run
    obtain ⟨_, b₁, first, run⟩ := bind_eq_ok.mp run
    obtain ⟨_, b₂, second, run⟩ := bind_eq_ok.mp run
    obtain ⟨_, b₃, third, run⟩ := bind_eq_ok.mp run
    obtain ⟨_, b₄, fourth, last⟩ := bind_eq_ok.mp run
    obtain ⟨_, shown₁⟩ := (whitespace_ensures (E := fun _ => False) shown).holds first
    obtain ⟨_, shown₂⟩ := (controlSection_ensures (E := fun _ => False) shown₁).holds second
    obtain ⟨_, shown₃⟩ := (metadataSection_ensures (E := fun _ => False) shown₂).holds third
    have anchored₁ := ((Invariant.anchored 0).keeps (R := Eq) inferInstance empty first).2
    have anchored₂ := ((Invariant.anchored 0).keeps controlSection_lockstep anchored₁ second).2
    have anchored₃ := ((Invariant.anchored 0).keeps metadataSection_lockstep anchored₂ third).2
    obtain ⟨n, anchored₄⟩ := shapeSection_anchored shown₃ anchored₃ fourth
    exact ⟨n, ((Invariant.anchored n).keeps leftOver_lockstep anchored₄ last).2⟩

end Grammar

end SmithyIdl
