import SmithyIdl.Proofs.Buffer.Located
import SmithyIdl.Proofs.Enclosed
import SmithyIdl.Proofs.ErrorCount
import SmithyIdl.Proofs.Spans
import SmithyIdl.Proofs.Tree.Starts
import SmithyIdl.Proofs.Tree.Uncached

/-! # Where errors are told

An error node with tokens is told at the first of them, and one without tokens where it was reported. Both is the
place where the node starts in the text, so the errors are told in order. -/

namespace SmithyIdl

open SyntaxTree

/-! ### Reading an error -/

namespace Uncached

/-- The token in the way that an error node holds, or the place where something is missing. -/
def errorRange (id : NodeId) : Uncached ByteRange := do
  match ← firstToken? id with
  | some token => return token.range
  | none => range id

/-- What is told of a node. -/
def errorOf (filename : String) (id : NodeId) : Uncached SyntaxError := do
  return ⟨(← problem? id).getD (.note ""), filename, ← start id, ← errorRange id⟩

end Uncached

theorem SyntaxTree.Agrees.errorOf (filename : String) (id : NodeId) :
    Agrees (ParsedModel.errorOf filename id) (Uncached.errorOf filename id) := by
  have range : Agrees (ParsedModel.errorRange id) (Uncached.errorRange id) :=
    (Agrees.firstToken? id).bind fun first => by
      cases first with
      | none => exact .range id
      | some token => exact .pure token.range
  exact (Agrees.problem? id).bind fun _ => (Agrees.start id).bind fun _ => range.bind fun _ => .pure _

namespace ParsedModel

/-- The error of a node that starts with a token, or before it. -/
def errorAt (m : ParsedModel) (id : NodeId) (token : Token) : SyntaxError :=
  ⟨((m.tree.nodes[id]?.bind Node.mark?).map Mark.problem).getD (.note ""), m.filename, token.start,
    if m.tree.leaves id = [] then .empty token.range.start else token.range⟩

variable {m : ParsedModel} {F : Forest} {id : NodeId} {token : Token}

theorem errorAt_range_start (m : ParsedModel) (id : NodeId) (token : Token) :
    (m.errorAt id token).range.start = token.range.start := by
  rw [errorAt]
  split <;> rfl

/-- A node with tokens is told at the first of them. -/
theorem errorOf_first {k : TokenId} {ks : List TokenId} (made : id < m.tree.size) (leaves : m.tree.leaves id = k :: ks)
    (read : m.tree.tokens[k]? = some token) : Uncached.errorOf m.filename id m.tree = .ok (m.errorAt id token) := by
  have found : m.tree.nodes[id]? = some m.tree.nodes[id] := Array.getElem?_eq_getElem made
  have first : Uncached.firstToken? id m.tree = .ok (some token) := by
    rw [Uncached.firstToken?_run found, leaves]
    change (Uncached.token k m.tree >>= fun token => .ok (some token)) = _
    rw [Uncached.token, read]
    rfl
  have problem : Uncached.problem? id m.tree = .ok _ := Uncached.run_bind_of_ok (Uncached.look_run found)
  have start : Uncached.start id m.tree = .ok token.start := Uncached.run_bind_of_ok first
  have range : Uncached.errorRange id m.tree = .ok token.range := Uncached.run_bind_of_ok first
  unfold Uncached.errorOf
  rw [Uncached.run_bind_of_ok problem, Uncached.run_bind_of_ok start, Uncached.run_bind_of_ok range, errorAt, found,
    leaves]
  rfl

/-- A node without tokens is told where it was reported. -/
theorem errorOf_empty {mark : Mark} (tag : m.tree.tag? id = some (.inr (.error mark))) (leaves : m.tree.leaves id = [])
    (offset : mark.offset = token.range.start) (position : mark.position = token.start) :
    Uncached.errorOf m.filename id m.tree = .ok (m.errorAt id token) := by
  obtain ⟨n, found, mark?⟩ : ∃ n, m.tree.nodes[id]? = some n ∧ n.mark? = some mark := by
    obtain ⟨⟨content, parent, kept⟩, found, same⟩ := Option.map_eq_some_iff.mp tag
    cases content with
    | leaf => cases same
    | branch label =>
      cases same
      exact ⟨_, found, rfl⟩
  have first : Uncached.firstToken? id m.tree = .ok none := by
    rw [Uncached.firstToken?_run found, leaves]
    rfl
  have last : Uncached.lastToken? id m.tree = .ok none := by
    unfold Uncached.lastToken?
    rw [Uncached.run_bind_of_ok (Uncached.tokenIds_run found), leaves]
    rfl
  have looked : Uncached.look Node.mark? id m.tree = .ok (some mark) := mark? ▸ Uncached.look_run found
  have problem : Uncached.problem? id m.tree = .ok (some mark.problem) := Uncached.run_bind_of_ok looked
  have start : Uncached.start id m.tree = .ok mark.position :=
    (Uncached.run_bind_of_ok first).trans (Uncached.run_bind_of_ok looked)
  have range : Uncached.errorRange id m.tree = .ok (.empty mark.offset) :=
    calc Uncached.errorRange id m.tree
      _ = Uncached.range id m.tree := Uncached.run_bind_of_ok first
      _ = _ := (Uncached.run_bind_of_ok first).trans (Uncached.run_bind_of_ok last)
      _ = _ := Uncached.run_bind_of_ok looked
  unfold Uncached.errorOf
  rw [Uncached.run_bind_of_ok problem, Uncached.run_bind_of_ok start, Uncached.run_bind_of_ok range, errorAt, found,
    leaves, offset, position]
  change _ = Except.ok (SyntaxError.mk ((n.mark?.map Mark.problem).getD _) _ _ _)
  rw [mark?]
  rfl

end ParsedModel

/-! ### The end of a run -/

namespace Grammar.Finished

variable {b : Buffer} {text : String} {F : Forest} {mark : Mark} {i : NodeId} {k : Nat}

/-- All that is below the root. -/
abbrev all (F : Forest) : Forest := .branch SyntaxTree.root (.plain .idl) F .nil

section
variable (h : Finished b text F .nil)
include h

theorem tokens_all : (all F).tokens = List.range b.eof := by simpa using h.leaves

theorem sorted_all : (all F).Sorted := by
  have sorted := h.shown.sorted
  rwa [View.whole_of_one] at sorted

theorem tokenAt_eq (le : k ≤ b.eof) : b.tree.tokens[k]? = some (b.tokenAt k) := by
  obtain ⟨last, found, -⟩ := h.shown.ends
  have made : k < b.tree.tokens.size := Nat.lt_of_le_of_lt le (Array.getElem?_eq_some_iff.mp found).1
  rw [Buffer.tokenAt, Nat.min_eq_left le, Array.getElem?_eq_getElem made]
  rfl

/-- Where an error node has no tokens, it was reported at the token that comes next there. -/
theorem reported_eq {A B D : Forest} {way : List Frame} (parts : all F = A ++ Forest.plug way D ++ B)
    (place : b.tree.At way D i) (tag : b.tree.tag? i = some (.inr (.error mark))) (reported : mark.problem.encloses = false)
    (stands : b.ReportedAt i mark k) : ((Forest.itemsUpTo A way).filterMap Item.token?).length = k := by
  obtain ⟨node, found, label⟩ := Option.map_eq_some_iff.mp tag
  have items := (congrArg Forest.items parts).trans (Forest.items_place A B D way)
  rcases place.eq_of_node found with ⟨token, content, rfl⟩ | ⟨label', inner, content, rfl⟩
  · rw [Node.tag, content] at label
    cases label
  rw [Node.tag, content] at label
  obtain rfl : label' = .error mark := Sum.inr.inj label
  have item : (Label.error mark).item? i = some ⟨i, none⟩ := by simp [Label.item?, reported]
  have own : (Forest.branch i (.error mark) inner .nil).items = ⟨i, none⟩ :: inner.items := by simp [item]
  rw [own, List.append_assoc, List.cons_append] at items
  have sorted := h.sorted_all
  have tokens := h.tokens_all
  rw [Forest.tokens_eq, items] at tokens
  rw [Forest.Sorted, items] at sorted
  have before := Forest.tokens_up_to sorted tokens rfl (h.cursor ▸ stands.before) fun y hy j token =>
    stands.leaves (h.holds.tag?_of_item (items ▸ hy) token)
  rw [before, List.length_range]

/-- The tokens of a node begin with the one that comes where it starts. -/
theorem leaves_start {A B D : Forest} {way : List Frame} (parts : all F = A ++ Forest.plug way D ++ B)
    (place : b.tree.At way D i) (count : k = ((Forest.itemsUpTo A way).filterMap Item.token?).length) :
    b.tree.leaves i = [] ∨ k < b.eof ∧ ∃ ks, b.tree.leaves i = k :: ks := by
  rw [place.leaves_eq]
  cases tokens : D.tokens with
  | nil => exact .inl rfl
  | cons j js =>
    have all := h.tokens_all
    rw [Forest.tokens_eq, (congrArg Forest.items parts).trans (Forest.items_place A B D way), List.filterMap_append,
      List.filterMap_append, ← Forest.tokens_eq, tokens, List.append_assoc] at all
    have here : (List.range b.eof)[k]? = some j := by
      rw [← all, count, List.getElem?_append_right (Nat.le_refl _), Nat.sub_self]
      rfl
    obtain ⟨lt, same⟩ := List.getElem?_eq_some_iff.mp here
    obtain rfl : k = j := by rwa [List.getElem_range] at same
    rw [List.length_range] at lt
    exact .inr ⟨lt, js, rfl⟩

/-- An error node is told at the token that comes where it starts, which is its first one if it has any. -/
theorem errorOf_run (filename : String) (located : b.Located) {n : Nat} (anchored : b.tree.Anchored n)
    (starts : (i, k) ∈ (all F).starts 0) (tag : b.tree.tag? i = some (.inr (.error mark))) :
    Uncached.errorOf filename i b.tree = .ok (ParsedModel.errorAt ⟨filename, b.tree⟩ i (b.tokenAt k)) ∧
      (Reading.firstToken? i).run' b.tree = .ok (if b.tree.leaves i = [] then none else some (b.tokenAt k)) := by
  obtain ⟨A, way, D, B, parts, one, count⟩ := Forest.exists_place_of_starts starts
  rw [Nat.zero_add] at count
  have place := h.sound.stands.at_of_eq parts one
  obtain ⟨node, found, -⟩ := Option.map_eq_some_iff.mp tag
  have first := ((Agrees.firstToken? i).reads h.sound.stands).trans (Uncached.firstToken?_run found)
  rcases h.leaves_start parts place count with leaves | ⟨lt, ks, leaves⟩
  · have reported : mark.problem.encloses = false := by
      refine eq_false_of_ne_true fun encloses => ?_
      obtain ⟨j, token, leaf, path⟩ := anchored.token tag encloses
      have among := h.sound.stands.mem_leaves (path.mem_ancestors h.sound.stands) leaf
      rw [leaves] at among
      cases among
    obtain ⟨k', stands⟩ := located.reports tag reported
    obtain rfl : k = k' := count.trans (h.reported_eq parts place tag reported stands)
    refine ⟨ParsedModel.errorOf_empty (m := ⟨filename, b.tree⟩) tag leaves stands.offset stands.position, ?_⟩
    rw [first, leaves]
    rfl
  · have read := h.tokenAt_eq (Nat.le_of_lt lt)
    refine ⟨ParsedModel.errorOf_first (m := ⟨filename, b.tree⟩) place.lt_size leaves read, ?_⟩
    rw [first, leaves]
    change (Uncached.token k b.tree >>= fun token => .ok (some token)) = _
    rw [Uncached.token, read]
    rfl

theorem tokenAt_mem (le : k ≤ b.eof) : b.tokenAt k ∈ SmithyIdl.tokens text := by
  have read := h.tokenAt_eq le
  rw [h.tokens, List.getElem?_toArray] at read
  exact List.mem_of_getElem? read

theorem starts_tokenAt_le {j : Nat} (le : j ≤ k) (bound : k ≤ b.eof) :
    (b.tokenAt j).range.start ≤ (b.tokenAt k).range.start := by
  rcases Nat.eq_or_lt_of_le le with rfl | lt
  · exact Nat.le_refl _
  have first := h.tokenAt_eq (Nat.le_trans le bound)
  have second := h.tokenAt_eq bound
  rw [h.tokens, List.getElem?_toArray] at first second
  obtain ⟨made, first⟩ := List.getElem?_eq_some_iff.mp first
  obtain ⟨made', second⟩ := List.getElem?_eq_some_iff.mp second
  exact first ▸ second ▸ List.pairwise_iff_getElem.mp (tokens_follow text).starts_le j k made made' lt

/-- The error nodes in order, each with the number of tokens before it. -/
def errorStarts (t : SyntaxTree) (F : Forest) : List (NodeId × Nat) :=
  ((all F).starts 0).filter fun x => t.kind? x.1 = some .error

theorem errorNodes_eq : b.tree.errorNodes = (errorStarts b.tree F).map Prod.fst := by
  have place : b.tree.At [] (all F) SyntaxTree.root := h.sound.stands.at_of_eq (A := .nil) (B := .nil) (by simp) rfl
  rw [errorNodes, place.descendants_eq, ← Forest.map_fst_starts 0, List.filter_map]
  rfl

theorem start_le {x : NodeId × Nat} (hx : x ∈ errorStarts b.tree F) : x.2 ≤ b.eof := by
  have bound := (Forest.starts_bounds (List.mem_filter.mp hx).1).2
  rwa [h.tokens_all, List.length_range, Nat.zero_add] at bound

end

end Grammar.Finished

/-! ### Parsed files -/

/-- An error lies in the text, has the range of the first token of its node or none if there is no token, and is located
    by the line and the column of its start, which 32 bits hold in a text of up to 2^32 - 2 bytes. -/
structure ParsedModel.Locates (m : ParsedModel) (text : String) (id : NodeId) (e : SyntaxError) : Prop where
  inside : e.range.start ≤ e.range.stop ∧ e.range.stop ≤ byteLength text.toList
  token : ∃ first, m.read (Reading.firstToken? id) = .ok first ∧ match first with
    | some token => token ∈ tokens text ∧ e.range = token.range
    | none => e.range.isEmpty = true
  position : Position.at? text.toList e.range.start = some e.position
  fits : byteLength text.toList + 1 < UInt32.size → e.position.Fits

theorem Uncached.mapM_run {α β γ : Type} {t : SyntaxTree} {g : α → β} {z : β → Uncached γ} {f : α → γ} {l : List α}
    (h : ∀ a ∈ l, z (g a) t = .ok (f a)) : (l.map g).mapM z t = .ok (l.map f) := by
  induction l with
  | nil => rfl
  | cons a l ih =>
    rw [List.map_cons, List.mapM_cons, run_bind_of_ok (h a List.mem_cons_self),
      run_bind_of_ok (ih fun a' among => h a' (List.mem_cons_of_mem a among))]
    rfl

/-- Under every limit from 5 on, the errors of a text are told in its order, each where its node starts. -/
theorem parse_locates (filename text : String) {maxDepth : Nat} (enough : 5 ≤ maxDepth) :
    ∃ m errors, parse filename text maxDepth = .ok m ∧ m.errors = .ok errors ∧
      errors.Pairwise (·.range.start ≤ ·.range.start) ∧ List.Forall₂ (m.Locates text) m.tree.errorNodes errors := by
  obtain ⟨b, F, L, run, finished, below, -⟩ := Grammar.model_run filename text maxDepth
  obtain rfl := below (by omega) (by omega)
  have guarded : b.tree.Guarded := Grammar.model_guards (by rw [run]; rfl)
    (Grammar.ofText_shows filename text maxDepth).ends (Grammar.ofText_guarded filename text maxDepth)
  have located : b.Located := (Invariant.located.keeps (Grammar.model_lockstep trivial trivial)
    (Buffer.ofText_located filename text maxDepth) run).2
  obtain ⟨n, anchored⟩ := Grammar.model_anchored run
  let m : ParsedModel := ⟨filename, b.tree⟩
  have told : ∀ x ∈ Grammar.Finished.errorStarts b.tree F,
      Uncached.errorOf filename x.1 b.tree = .ok (m.errorAt x.1 (b.tokenAt x.2)) ∧
        (Reading.firstToken? x.1).run' b.tree = .ok (if b.tree.leaves x.1 = [] then none else some (b.tokenAt x.2)) := by
    intro x hx
    obtain ⟨starts, error⟩ := List.mem_filter.mp hx
    obtain ⟨mark, tag⟩ := isMarked_iff.mp (guarded.reasoned.kind?_eq_error_iff.mp (of_decide_eq_true error))
    exact finished.errorOf_run filename located anchored starts tag
  refine ⟨m, (Grammar.Finished.errorStarts b.tree F).map fun x => m.errorAt x.1 (b.tokenAt x.2),
    parse_of_run run finished.finish, ?errors, ?sorted, ?located⟩
  case errors =>
    have agrees := (Agrees.errors SyntaxTree.root).bind fun ids => Agrees.mapM (Agrees.errorOf filename) ids
    have root : Uncached.errors SyntaxTree.root b.tree = .ok b.tree.errorNodes :=
      Uncached.run_bind_of_ok (Uncached.look_run finished.holds.1.choose_spec.1)
    calc m.errors
      _ = _ := agrees.reads finished.sound.stands
      _ = _ := Uncached.run_bind_of_ok root
      _ = _ := by rw [finished.errorNodes_eq, Uncached.mapM_run fun x hx => (told x hx).1]
  case sorted =>
    refine List.pairwise_map.mpr (((Forest.starts_pairwise 0 _).filter _).imp_of_mem fun {x y} _ hy le => ?_)
    rw [ParsedModel.errorAt_range_start, ParsedModel.errorAt_range_start]
    exact finished.starts_tokenAt_le le (finished.start_le hy)
  case located =>
    rw [show m.tree.errorNodes = _ from finished.errorNodes_eq, List.forall₂_map_left_iff, List.forall₂_map_right_iff,
      List.forall₂_same]
    intro x hx
    have among := finished.tokenAt_mem (finished.start_le hx)
    obtain ⟨ordered, inside, position⟩ := tokens_located among
    have first := (told x hx).2
    have fits := fun small => Position.fits_of_at? small position
    by_cases none : b.tree.leaves x.1 = []
    · rw [if_pos none] at first
      have range : (m.errorAt x.1 (b.tokenAt x.2)).range = .empty (b.tokenAt x.2).range.start := if_pos none
      refine ⟨?_, ⟨_, first, ?_⟩, ?_, fits⟩
      · rw [range]
        exact ⟨Nat.le_refl _, Nat.le_trans ordered inside⟩
      · simp [range, ByteRange.empty, ByteRange.isEmpty]
      · rw [range]
        exact position
    · rw [if_neg none] at first
      have range : (m.errorAt x.1 (b.tokenAt x.2)).range = (b.tokenAt x.2).range := if_neg none
      refine ⟨?_, ⟨_, first, among, range⟩, ?_, fits⟩
      · rw [range]
        exact ⟨ordered, inside⟩
      · rw [range]
        exact position

theorem parse_locates_default : 5 ≤ defaultMaxDepth ∧
    ∃ m errors, parse "a.smithy" "@a\n@\n\x7d" defaultMaxDepth = .ok m ∧ m.errors = .ok errors ∧
      errors.Pairwise (·.range.start ≤ ·.range.start) ∧
      List.Forall₂ (m.Locates "@a\n@\n\x7d") m.tree.errorNodes errors :=
  ⟨by decide, parse_locates "a.smithy" "@a\n@\n\x7d" (by decide)⟩

end SmithyIdl
