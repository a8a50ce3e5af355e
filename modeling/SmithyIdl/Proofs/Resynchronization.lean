import SmithyIdl.Proofs.Buffer.Quiet
import SmithyIdl.Proofs.Grammar.Strays
import SmithyIdl.Proofs.Isolation
import SmithyIdl.Proofs.Tree.Shared

/-! # One mistake in a body

Where a token in the body of a shape statement is replaced and the body is read up to its closing brace all the same, the
mistake is met at most once, and all other statements are read as before: those in front of it at the same places, those
behind it moved by the same amounts. -/

set_option synthInstance.maxSize 20000

namespace SmithyIdl

/-! ### What was put into an open node -/

/-- The last child of an open node is the next open one. The others are closed, with all that is below them. -/
theorem Buffer.Shows.beside {b : Buffer} {v : View} {inner outer : List OpenNode} {one n : OpenNode} (h : b.Shows v)
    (spine : v.spine = (inner ++ [one]) ++ n :: outer) : b.tree.childrenOf n.id = n.children.roots ++ [one.id] ∧
      b.tree.Holds (some n.id) n.children ∧ ∀ i ∈ n.children.ids, i < b.tree.size ∧ i ∉ b.openNodes ∧
        ∀ k, b.tree.tag? i = some (.inl k) → k < b.cursor := by
  have frames : v.frames = (inner ++ [one]).map OpenNode.frame ++ n.frame :: outer.map OpenNode.frame := by
    simp [View.frames, spine]
  have placed := h.placed
  rw [View.whole, frames, Forest.plug_append] at placed
  obtain ⟨-, children, -⟩ := SyntaxTree.Holds.focus (c := outer.map OpenNode.frame) placed
  refine ⟨?_, (SyntaxTree.holds_append.mp (SyntaxTree.holds_append.mp children).1).1, fun i among => ?_⟩
  · rw [h.childrenOf_open spine, List.map_append, Forest.plug_append, Forest.roots_append]
    rfl
  · have side : i ∈ Forest.sideIds v.frames := by
      rw [frames]
      simp only [Forest.sideIds, List.flatMap_append, List.flatMap_cons, List.mem_append]
      exact .inr (.inl (.inl among))
    have whole : i ∈ v.whole.ids := v.ids_whole.mem_iff.mpr (List.mem_append_right _ side)
    refine ⟨h.lt_size (List.mem_append_left _ whole), fun isOpen => ?_, fun k leaf =>
      h.lt_cursor (List.mem_append_left _ (h.placed.mem_tokens whole leaf))⟩
    have apart := v.ids_whole.nodup_iff.mp (List.nodup_append.mp h.nodup).1
    have frame : i ∈ v.frames.map Frame.id := by
      rw [h.openNodes] at isOpen
      simpa [View.names, View.frames, OpenNode.name, OpenNode.frame] using isOpen
    exact (List.nodup_append.mp apart).2.2 i frame i side rfl

/-- Where the token to come is behind the one that is replaced, and in the same column in both texts, all tokens from it
    on are moved by the same amounts. -/
theorem ReplacesToken.displaced_from {text text' : String} {k : Nat} {b b' : Buffer} (replaced : ReplacesToken text text' k)
    (all : b.tree.tokens = (tokens text).toArray) (all' : b'.tree.tokens = (tokens text').toArray)
    (next : b.hasNext = true) (next' : b'.hasNext = true) (same : b'.cursor = b.cursor) (behind : k < b.cursor)
    (column : b'.current.start.column = b.current.start.column) : b'.current.kind = b.current.kind ∧
      List.Forall₂ (Displacement.between b.current b'.current).Tokens ((tokens text).drop (b.cursor + 1))
        ((tokens text').drop (b.cursor + 1)) := by
  have here : (tokens text)[b.cursor]? = some b.current := by
    rw [← List.getElem?_toArray, ← all]
    exact Buffer.getElem?_cursor next
  have here' : (tokens text')[b.cursor]? = some b'.current := by
    rw [← List.getElem?_toArray, ← all', ← same]
    exact Buffer.getElem?_cursor next'
  have moved := replaced.displaced behind here here' column
  refine ⟨?_, ?_⟩
  · have first := rel_getElem? moved 0
    rw [List.getElem?_drop, List.getElem?_drop, Nat.add_zero, here, here'] at first
    cases first with
    | some first => exact first.kind_eq
  · have others := List.forall₂_drop 1 moved
    rwa [List.drop_drop, List.drop_drop] at others

namespace Grammar

open SmithyIdl.Parser

variable {filename text text' : String} {maxDepth : Nat} {x : Braced} {b b₁ r e : Buffer} {v : View}

/-- What stands in the node of all statements where the body of one of them is about to be read. -/
structure Around (b : Buffer) (one top : NodeId) (before : Forest) : Prop where
  openNodes : ∃ inner outer, b.openNodes = inner ++ one :: top :: outer ∧ inner.length = 4 ∧ outer.length = 2
  innermost : b.innermost ∈ b.openNodes ∧ b.innermost ≠ top
  made : top < b.tree.size
  statement : b.tree.tag? one = some (.inr (.plain .shapeOrApplyStatement))
  children : b.tree.childrenOf top = before.roots ++ [one]
  holds : b.tree.Holds (some top) before
  closed : ∀ i ∈ before.ids, i < b.tree.size ∧ i ∉ b.openNodes ∧ ∀ k, b.tree.tag? i = some (.inl k) → k < b.cursor

theorem Around.length_openNodes {one top : NodeId} {before : Forest} (h : Around b one top before) :
    b.openNodes.length = 8 := by
  obtain ⟨inner, outer, openNodes, four, two⟩ := h.openNodes
  simp [openNodes, four, two]

theorem AtBody.around (h : AtBody filename text maxDepth x b) : ∃ one top before, Around b one top before := by
  obtain ⟨v, inner, one, top, above, shown, four, names⟩ := h.shown
  obtain ⟨spine, outer, parts, rfl, names₁⟩ := List.map_eq_append_iff.mp names
  obtain ⟨⟨one, label, children₁⟩, outer, rfl, name₁, names₂⟩ := List.map_eq_cons_iff.mp names₁
  obtain ⟨⟨top, label', children⟩, outer, rfl, name₂, names₃⟩ := List.map_eq_cons_iff.mp names₂
  cases name₁
  cases name₂
  have openNodes : b.openNodes = (spine.map OpenNode.id) ++ one :: top :: outer.map OpenNode.id := by
    rw [shown.openNodes, View.names, parts]
    simp [Function.comp_def, OpenNode.name]
  have nodup := shown.nodup_open
  rw [← shown.openNodes, openNodes] at nodup
  obtain ⟨childrenOf, holds, closed⟩ := shown.beside (parts.trans (List.append_cons ..))
  have made : top < b.tree.size := shown.open_lt (n := (top, .plain .shapeStatements)) (by simp [names])
  refine ⟨one, top, children, ⟨_, _, openNodes, by simpa using four, ?_⟩, ?_, made, ?_, childrenOf, holds, closed⟩
  · simpa using congrArg List.length names₃
  · cases spine with
    | nil => cases four
    | cons n spine =>
      have innermost : b.innermost = n.id := by
        rw [Buffer.innermost, openNodes]
        rfl
      rw [innermost, openNodes]
      refine ⟨by simp, ?_⟩
      rintro same
      simp [same] at nodup
  · exact shown.tag?_open parts

/-- Eight nodes are open, and none of them was refused. -/
theorem AtBody.deep (h : AtBody filename text maxDepth x b) (room : b.isTooDeep = false) : 8 ≤ maxDepth := by
  obtain ⟨one, top, before, around⟩ := h.around
  rw [Buffer.isTooDeep, around.length_openNodes, h.leads.maxDepth, decide_eq_false_iff_not] at room
  exact Nat.le_of_not_lt room

/-- What is left of a file behind a statement: the end of the line, and the statements to come. -/
def remaining : Parser Docs := do
  let docs ← endStatement
  foldWhile (fun _ b => b.hasNext) shapeOrApplyStatement docs

instance remaining_steady : Steady remaining := by
  unfold remaining
  infer_instance

theorem remaining_lockstep {M : Matching} (moves : M.moves) (encloses : M.encloses) :
    Lockstep M (Option.Rel M.docs) remaining remaining :=
  .bind endStatement_lockstep fun _ _ docs => statements_lockstep moves encloses docs

/-- Up to the end of a file, things are put into the innermost open node and into new ones. -/
theorem ReadsOn.confined (reads : ReadsOn filename text maxDepth remaining r e) :
    r.tree.GrowsAt r.tree.size r.innermost e.tree := by
  obtain ⟨docs, b₁, run, rfl⟩ := reads.run
  exact ((remaining_lockstep trivial trivial).confines (.start r) run).2.tree

/-- Behind the body, the rest of the file is read. -/
structure AtBody.Rest (filename text : String) (maxDepth : Nat) (b b₁ r e : Buffer) : Prop where
  reads : ReadsOn filename text maxDepth remaining r e
  shown : ∃ v, r.Shows v ∧ InStatements v
  openNodes : r.openNodes = b.openNodes.drop 5
  cursor : r.cursor = b₁.cursor + 1
  errors : r.errors = b₁.errors
  leads : b.Leads r
  confined : b.tree.GrowsAt b.tree.size b.innermost r.tree

/-- Where the contents of a body are read up to the closing brace, this is taken, and the statement ends behind it. -/
theorem AtBody.exists_rest (h : AtBody filename text maxDepth x b) (room : b.isTooDeep = false)
    (read : x.contents.run b = .ok true b₁) (closes : b₁.current.kind = .rbrace) :
    ∃ r e, AtBody.Rest filename text maxDepth b b₁ r e := by
  obtain ⟨w, _, _, _, _, shown, -⟩ := h.shown
  have regular := h.regular
  have := regular.contents_reshapes
  have leads₁ := Steady.ok read
  obtain ⟨w₁, shown₁, -⟩ := (Reshapes.reshapes shown).holds read
  have next : b₁.hasNext = true := shown₁.ends.hasNext (by rw [closes]; decide)
  obtain ⟨b₂, taken, -⟩ := run_shift shown₁ next
  have closed : (consume .rbrace).run b₁ = .ok () b₂ := by
    unfold consume Parser.next
    simp only [run_bind, run_expect closes, run_hasNext, Outcome.ok_andThen, next, if_true, Parser.current, run_ask, taken]
    rfl
  have body : x.body.run b = .ok () b₂ := (run_bind_of_ok read).trans closed
  have first := ((regular.contents_lockstep _).confines (.start b) read).2
  have second := shift_confines (first.seated (.start b)) taken
  obtain ⟨docs, s, v, moment, round, shown', inside⟩ := h.exists_round room body (first.trans second).openNodes
  obtain ⟨e, whole, ⟨docs₁, e₁, rounds, rfl⟩, finished⟩ := moment.reads (Nat.le_trans (by decide) (h.deep room))
  have rest := foldWhile_cons moment.more rounds
  rw [run_bind, round, ← run_bind] at rest
  have cursor := shift_cursor taken
  have errors := shift_errors taken
  have leads := leads₁.trans (Steady.ok taken)
  exact ⟨_, _, ⟨whole, ⟨docs₁, e₁, rest, rfl⟩, finished⟩, ⟨v, shown', inside⟩, rfl, cursor, errors,
    ⟨leads.tree, leads.maxDepth, leads.cursor, leads.errors, leads.counted⟩, (first.trans second).tree⟩

theorem Around.withTokens {one top : NodeId} {before : Forest} (h : Around b one top before) (ts : Array Token) :
    Around (b.withTokens ts) one top before :=
  ⟨h.openNodes, h.innermost, h.made, h.statement, h.children, h.holds.of_same fun _ _ => rfl, h.closed⟩

theorem AtBody.Rest.leads_end (h : AtBody.Rest filename text maxDepth b b₁ r e) : b.Leads e := h.leads.trans h.reads.leads

namespace AtBody.Rest

variable {one top : NodeId} {before : Forest} (h : AtBody.Rest filename text maxDepth b b₁ r e)
  (around : Around b one top before)
include h around

theorem innermost : r.innermost = top := by
  obtain ⟨inner, outer, openNodes, four, -⟩ := around.openNodes
  rw [Buffer.innermost, h.openNodes, openNodes, List.append_cons, List.drop_left' (by simp [four])]
  rfl

/-- The statement is the last one that was put into the node of all statements. -/
theorem childrenOf_top : r.tree.childrenOf top = before.roots ++ [one] :=
  (h.confined.children top around.made around.innermost.2.symm).trans around.children

/-- In the statements before, nothing is put. -/
theorem childrenOf_before {i : NodeId} (among : i ∈ before.ids) : e.tree.childrenOf i = b.tree.childrenOf i := by
  obtain ⟨made, closed, -⟩ := around.closed i among
  have inside : i ≠ b.innermost := fun same => closed (same ▸ around.innermost.1)
  have below : i ≠ r.innermost := fun same => closed (by
    obtain ⟨inner, outer, openNodes, -⟩ := around.openNodes
    simp [same, h.innermost around, openNodes])
  exact (h.reads.confined.children i (Nat.lt_of_lt_of_le made h.leads.tree.size) below).trans
    (h.confined.children i made inside)

theorem tag?_before {i : NodeId} (among : i ∈ before.ids) : e.tree.tag? i = b.tree.tag? i :=
  h.leads_end.tree.tags i (around.closed i among).1

end AtBody.Rest

/-- Whatever tokens come behind the brace, the statements before are the same trees. -/
theorem Around.trees {one top : NodeId} {before : Forest} {ts : Array Token} {b₁' r' e' : Buffer}
    (around : Around b one top before) (rest : AtBody.Rest filename text maxDepth b b₁ r e)
    (rest' : AtBody.Rest filename text' maxDepth (b.withTokens ts) b₁' r' e')
    (same : ∀ k < b.cursor, ts[k]? = b.tree.tokens[k]?) :
    List.Forall₂ (Displacement.zero.Trees e.tree e'.tree) before.roots before.roots := by
  have around' := around.withTokens ts
  have shares : e.tree.Shares (· ∈ before.ids) e'.tree :=
    { tag := fun among => (rest'.tag?_before around' among).trans (rest.tag?_before around among).symm
      children := fun among => (rest'.childrenOf_before around' among).trans (rest.childrenOf_before around among).symm
      below := fun among child => around.holds.mem_ids_of_child among (rest.childrenOf_before around among ▸ child)
      tokens := fun {i k} among leaf => by
        have early := (around.closed i among).2.2 k (rest.tag?_before around among ▸ leaf)
        rw [rest'.leads_end.tokens, rest.leads_end.tokens]
        exact same k early }
  obtain ⟨F, L, finished⟩ := rest.reads.finished
  obtain ⟨F', L', finished'⟩ := rest'.reads.finished
  refine List.forall₂_same.mpr fun i root => ?_
  have among := Forest.mem_ids_of_mem_roots root
  have made : i < e.tree.size :=
    Nat.lt_of_lt_of_le (around.closed i among).1 rest.leads_end.tree.size
  have sound := finished.sound_all
  exact Displacement.trees_of_shares shares sound finished'.sound_all sound.stands.holds i (sound.stands.mem_ids.mpr made)
    among

/-- Where a token behind a body's opening brace is replaced, the tokens up to the brace are the same. -/
theorem AtBody.sharesUpTo {k : Nat} (h : AtBody filename text maxDepth x b) (replaced : ReplacesToken text text' k)
    (behind : b.cursor < k) : (Buffer.ofText filename text maxDepth).SharesUpTo b.cursor (tokens text').toArray := by
  have ends := (ofText_shows filename text maxDepth).ends
  refine ⟨fun i before => ?_, .brace ?_, ends, (ofText_shows filename text' maxDepth).ends⟩
  · rw [List.getElem?_toArray, replaced.getElem?_eq (Nat.lt_of_le_of_lt before behind), ← List.getElem?_toArray]
    rfl
  · rw [← h.leads.tokens, ← Nat.add_zero b.cursor, ← (h.leads.endsWithEof ends).kind_peek]
    exact h.brace

/-- Where no token between the braces of a body can begin a statement, at most one problem is met up to the closing
    brace. -/
theorem Braced.Regular.errors_le {all : List Token} {goes : Bool} (regular : x.Regular)
    (tokens : b.tree.tokens = all.toArray) (read : x.contents.run b = .ok goes b₁) (next : b₁.hasNext = true)
    (quiet : ∀ t ∈ (all.take b₁.cursor).drop (b.cursor + 1), startsStatement t = false) : b₁.errors ≤ b.errors + 1 := by
  have := regular.contents_reshapes
  have left : b₁.cursor < b.eof := (Steady.ok read).eof ▸ Buffer.hasNext_iff.mp next
  have between : b.Quiet b.cursor b₁.cursor := by
    refine ⟨fun i behind before => ?_, left⟩
    have made : i < all.length := by
      have within := Nat.lt_of_lt_of_le (Nat.lt_trans before left) (Nat.sub_le ..)
      rwa [tokens] at within
    rw [Buffer.tokenAt, Nat.min_eq_left (Nat.le_of_lt (Nat.lt_trans before left)), tokens, List.getElem?_toArray,
      List.getElem?_eq_getElem made]
    refine quiet _ (List.mem_of_getElem? (i := i - (b.cursor + 1)) ?_)
    rw [List.getElem?_drop, Nat.add_sub_of_le behind, List.getElem?_take_of_lt before, List.getElem?_eq_getElem made]
    rfl
  have settles := regular.contents_near.settles between (Nat.le_refl _) (by rw [read]; rfl) (Nat.le_refl _)
  omega

/-- A token between the braces of a body is another one in the second text. In both texts the body is read up to the
    same closing brace, and no token before it can begin a statement. -/
structure Mistake (filename text text' : String) (maxDepth : Nat) (x : Braced) (b b₁ b₁' : Buffer) : Prop where
  body : AtBody filename text maxDepth x b
  /-- None of the nodes that are open for the statement is refused. -/
  room : b.isTooDeep = false
  read : x.contents.run b = .ok true b₁
  closes : b₁.isAt .rbrace = true
  replaced : ∃ k, b.cursor < k ∧ k < b₁.cursor ∧ ReplacesToken text text' k
  quiet : ∀ t ∈ ((tokens text').take b₁.cursor).drop (b.cursor + 1), startsStatement t = false
  read' : x.contents.run (b.withTokens (tokens text').toArray) = .ok true b₁'
  cursor : b₁'.cursor = b₁.cursor
  column : b₁'.current.start.column = b₁.current.start.column

/-- A token that no member takes is a mistake wherever it stands among the members of a body: behind the opening brace come
    no traits, values and absolute ids up to it, and in both texts the closing brace begins its line. -/
theorem exists_mistake {k : Nat} (body : AtBody filename text maxDepth x b) (clean : b.errors = 0) (deep : 12 ≤ maxDepth)
    (members : x.kind ∈ memberBodies) (read : x.contents.run b = .ok true b₁) (closes : b₁.isAt .rbrace = true)
    (column : b₁.current.start.column = 1) (behind : b.cursor < k) (replaced : ReplacesToken text text' k)
    (stray : Stray (.ofText filename text' maxDepth) b.cursor k b₁.cursor) :
    ∃ b₁', Mistake filename text text' maxDepth x b b₁ b₁' := by
  obtain ⟨one, top, before, around⟩ := body.around
  have eight := around.length_openNodes
  have limit : b.maxDepth = maxDepth := body.leads.maxDepth
  have room : b.isTooDeep = false := by
    rw [Buffer.isTooDeep, eight, limit, decide_eq_false_iff_not]
    exact Nat.not_lt_of_le (Nat.le_trans (by decide) deep)
  have stray : Stray (b.withTokens (tokens text').toArray) b.cursor k b₁.cursor := stray.of_tokens rfl
  have halts : Halts (b.withTokens (tokens text').toArray) Stray.Never b.openNodes.length b.cursor x.contents
      fun goes c => goes = true ∧ c = b₁.cursor := by
    obtain ⟨-, -, -, -, braced, -⟩ := body
    refine stray.contents_halts braced members ?_ behind
    change b.openNodes.length + 3 < b.maxDepth
    omega
  have := body.regular.contents_reshapes
  obtain ⟨v, _, _, _, _, shown, -⟩ := (body.withTokens (body.sharesUpTo replaced behind) clean (Nat.le_refl _)).shown
  have reshapes := Reshapes.reshapes (p := x.contents) shown
  rw [Ensures] at reshapes
  cases run : x.contents.run (b.withTokens (tokens text').toArray) with
  | ok goes b₁' =>
    obtain ⟨stands, rfl, there⟩ := halts.ok (.start _) rfl run
    refine ⟨b₁', body, room, read, closes, ⟨k, behind, stray.before, replaced⟩, fun t among => ?_, run, there, ?_⟩
    · obtain ⟨i, found⟩ := List.mem_iff_getElem?.mp among
      rw [List.getElem?_drop, List.getElem?_take] at found
      split at found
      · next before =>
        exact stray.quiet.startsStatement_eq (Nat.lt_of_lt_of_le (Nat.lt_succ_self _) (Nat.le_add_right ..)) before
          (List.getElem?_toArray.trans found)
      · cases found
    · rw [stands.current, there, stray.column, column]
  | error cause b₁' => exact (halts.error (.start _) rfl run).2.elim
  | fault why =>
    rw [run] at reshapes
    exact reshapes.elim

/-- The body of the statement behind `n` others, and where its contents end, if the token `k` of the second text is a stray
    one in it. -/
def stray? (filename text text' : String) (maxDepth n k : Nat) : Option (Braced × Buffer × Buffer) :=
  (moment? filename text maxDepth n).bind fun (docs, s) => (body? docs s).bind fun (x, b) =>
    match x.contents.run b with
    | .ok true b₁ =>
      if (b.errors = 0 ∧ x.kind ∈ memberBodies ∧ b₁.isAt .rbrace = true ∧ b₁.current.start.column = 1) ∧ b.cursor < k ∧
          ReplacesToken text text' k ∧ Stray (.ofText filename text' maxDepth) b.cursor k b₁.cursor then some (x, b, b₁)
      else none
    | _ => none

theorem exists_mistake_of_stray? {n k : Nat} (deep : 12 ≤ maxDepth)
    (found : stray? filename text text' maxDepth n k = some (x, b, b₁)) :
    ∃ b₁', Mistake filename text text' maxDepth x b b₁ b₁' := by
  obtain ⟨⟨docs, s⟩, moment, found⟩ := Option.bind_eq_some_iff.mp found
  obtain ⟨⟨x', b'⟩, body, found⟩ := Option.bind_eq_some_iff.mp found
  dsimp only at found
  split at found
  · next read =>
    split at found
    · next holds =>
      cases found
      obtain ⟨⟨clean, members, closes, column⟩, behind, replaced, stray⟩ := holds
      have body := atBody_iff.mpr ⟨docs, s, atStatement_iff.mpr ⟨n, moment⟩, body⟩
      exact exists_mistake body clean deep members read closes column behind replaced stray
    · cases found
  · cases found

namespace Mistake

variable {b₁' : Buffer} (h : Mistake filename text text' maxDepth x b b₁ b₁')
include h

theorem leads : (Buffer.ofText filename text maxDepth).Leads b₁ := by
  have := h.body.regular.contents_reshapes
  exact h.body.leads.trans (Steady.ok h.read)

theorem next : b₁.hasNext = true :=
  (h.leads.endsWithEof (ofText_shows filename text maxDepth).ends).hasNext_of_isAt h.closes (by decide)

theorem tokens_other : b₁'.tree.tokens = (tokens text').toArray := by
  have := h.body.regular.contents_reshapes
  exact (Steady.ok h.read').tokens

theorem next_other : b₁'.hasNext = true := by
  obtain ⟨k, -, -, replaced⟩ := h.replaced
  have next := Buffer.hasNext_iff.mp h.next
  have all : b₁.tree.tokens = (tokens text).toArray := h.leads.tokens
  rw [Buffer.hasNext_iff, h.cursor]
  rwa [Buffer.eof, all, List.size_toArray, ← replaced.length_eq, ← List.size_toArray, ← h.tokens_other] at next

/-- The closing brace comes in both texts, and what stands behind it is moved. -/
theorem displaced : b₁'.current.kind = .rbrace ∧ List.Forall₂ (Displacement.between b₁.current b₁'.current).Tokens
    ((tokens text).drop (b₁.cursor + 1)) ((tokens text').drop (b₁.cursor + 1)) := by
  obtain ⟨k, -, before, replaced⟩ := h.replaced
  obtain ⟨kind, moved⟩ :=
    replaced.displaced_from h.leads.tokens h.tokens_other h.next h.next_other h.cursor before h.column
  exact ⟨kind.trans (of_decide_eq_true h.closes), moved⟩

/-- Where no problem was met before, the body is about to be read in the second text too, in the same nodes. -/
theorem body_other (clean : b.errors = 0) :
    AtBody filename text' maxDepth x (b.withTokens (tokens text').toArray) := by
  obtain ⟨k, behind, -, replaced⟩ := h.replaced
  exact h.body.withTokens (h.body.sharesUpTo replaced behind) clean (Nat.le_refl _)

theorem errors_le : b₁'.errors ≤ b.errors + 1 :=
  h.body.regular.errors_le (b := b.withTokens (tokens text').toArray) rfl h.read' h.next_other (h.cursor ▸ h.quiet)

/-- The tokens before the body are the same. -/
theorem getElem?_eq : ∀ i < b.cursor, (tokens text').toArray[i]? = b.tree.tokens[i]? := by
  obtain ⟨k, behind, -, replaced⟩ := h.replaced
  intro i early
  rw [List.getElem?_toArray, replaced.getElem?_eq (Nat.lt_trans early behind), h.body.leads.tokens, ← List.getElem?_toArray]
  rfl

end Mistake

end Grammar

/-- The statement `one` aside, two models have the same statements. Those before it stand at the same places. Those behind
    it have other offsets and lines, all by the same amounts. -/
def ParsedModel.SameBut (one : NodeId) (d : Displacement) (m m' : ParsedModel) : Prop :=
  m.tree.kind? one = some .shapeOrApplyStatement ∧ m'.tree.kind? one = some .shapeOrApplyStatement ∧
    ∃ top earlier later later', m.tree.kind? top = some .shapeStatements ∧ m'.tree.kind? top = some .shapeStatements ∧
      m.tree.childrenOf top = earlier ++ one :: later ∧ m'.tree.childrenOf top = earlier ++ one :: later' ∧
      List.Forall₂ (Displacement.zero.Trees m.tree m'.tree) earlier earlier ∧
      List.Forall₂ (d.Trees m.tree m'.tree) later later'

/-- Where a token in the body of a shape statement of a file without errors is replaced, and the body is read up to its
    closing brace all the same, at most one error is met, and all other statements read as before. -/
theorem parse_confines_mistake {filename text text' : String} {maxDepth : Nat} {m : ParsedModel} {x : Grammar.Braced}
    {b b₁ b₁' : Buffer} (parsed : parse filename text maxDepth = .ok m) (clean : m.tree.errorNodes = [])
    (mistake : Grammar.Mistake filename text text' maxDepth x b b₁ b₁') :
    ∃ m' one, parse filename text' maxDepth = .ok m' ∧ m'.tree.errorNodes.length ≤ 1 ∧ one ∈ b.openNodes ∧
      m.SameBut one (.between b₁.current b₁'.current) m' := by
  obtain ⟨one, top, B, around⟩ := mistake.body.around
  have around' := around.withTokens (tokens text').toArray
  have deep : 5 ≤ maxDepth := Nat.le_trans (by decide) (mistake.body.deep mistake.room)
  obtain ⟨r, e, rest⟩ := mistake.body.exists_rest mistake.room mistake.read (of_decide_eq_true mistake.closes)
  cases parsed.symm.trans rest.reads.parse_eq
  -- Nothing was met up to the body, so the same steps are taken in the other file.
  have none : e.errors = 0 := by rw [← rest.reads.length_errorNodes deep, clean, List.length_nil]
  have start : b.errors = 0 := Nat.le_zero.mp (none ▸ rest.leads_end.errors)
  have body' := mistake.body_other start
  obtain ⟨kind, moved⟩ := mistake.displaced
  obtain ⟨r', e', rest'⟩ := body'.exists_rest mistake.room mistake.read' kind
  -- Behind the closing brace the same tokens come.
  obtain ⟨v, shown, inside⟩ := rest.shown
  obtain ⟨v', shown', inside'⟩ := rest'.shown
  have splits := shown.ends.splits shown.cursor (mistake.body.leads.trans rest.leads).tokens
  have splits' := shown'.ends.splits shown'.cursor (body'.leads.trans rest'.leads).tokens
  rw [rest.cursor] at splits
  rw [rest'.cursor, mistake.cursor] at splits'
  obtain ⟨errors, later, later', children, children', trees⟩ := rest.reads.exists_trees rest'.reads shown shown' inside
    inside' splits splits' moved (rest'.leads.maxDepth.trans rest.leads.maxDepth.symm) Grammar.remaining_lockstep
  rw [rest.innermost around, rest.childrenOf_top around] at children
  rw [rest'.innermost around', rest'.childrenOf_top around'] at children'
  refine ⟨_, one, rest'.reads.parse_eq, ?few, ?isOpen, ?statement, ?statement', top, B.roots, later, later', ?top, ?top', ?_,
    ?_, around.trees rest rest' mistake.getElem?_eq, trees⟩
  case few =>
    -- The first file has no error behind the body, so neither has the second one.
    obtain ⟨n, count, count'⟩ := errors
    have few := mistake.errors_le
    have same := rest'.errors
    rw [rest'.reads.length_errorNodes deep]
    omega
  case isOpen =>
    obtain ⟨inner, outer, openNodes, -⟩ := around.openNodes
    simp [openNodes]
  case statement => exact SyntaxTree.kind?_of_tag? (rest.leads_end.tree.tag?_eq around.statement)
  case statement' => exact SyntaxTree.kind?_of_tag? (rest'.leads_end.tree.tag?_eq around'.statement)
  case top => exact rest.innermost around ▸ rest.reads.kind?_innermost shown inside
  case top' => exact rest'.innermost around' ▸ rest'.reads.kind?_innermost shown' inside'
  · rw [children, List.append_assoc]
    rfl
  · rw [children', List.append_assoc]
    rfl

/-- A sign in place of a member, in an enumeration between other statements. -/
theorem parse_confines_mistake_in_enum : ∃ m x b b₁ b₁',
    parse "a.smithy" "namespace a\nstring R\nenum E \x7b\n  A\n\x7d\nstring T\n" = .ok m ∧
    m.tree.errorNodes = [] ∧
    Grammar.Mistake "a.smithy" "namespace a\nstring R\nenum E \x7b\n  A\n\x7d\nstring T\n"
      "namespace a\nstring R\nenum E \x7b\n  =\n\x7d\nstring T\n" defaultMaxDepth x b b₁ b₁' ∧
    ∃ m' one, parse "a.smithy" "namespace a\nstring R\nenum E \x7b\n  =\n\x7d\nstring T\n" = .ok m' ∧
      m'.tree.errorNodes.length ≤ 1 ∧ one ∈ b.openNodes ∧ m.SameBut one (.between b₁.current b₁'.current) m' := by
  obtain ⟨e, F, run, finished, -⟩ := Grammar.model_counts "a.smithy"
    "namespace a\nstring R\nenum E \x7b\n  A\n\x7d\nstring T\n" (by decide : 5 ≤ defaultMaxDepth)
  have parsed := parse_of_run run finished.finish
  have clean : (parse "a.smithy" "namespace a\nstring R\nenum E \x7b\n  A\n\x7d\nstring T\n").toOption.any
      (·.tree.errorNodes.isEmpty) = true := by
    decide +kernel
  rw [parsed] at clean
  have clean := List.isEmpty_iff.mp clean
  have found : (Grammar.stray? "a.smithy" "namespace a\nstring R\nenum E \x7b\n  A\n\x7d\nstring T\n"
      "namespace a\nstring R\nenum E \x7b\n  =\n\x7d\nstring T\n" defaultMaxDepth 1 15).isSome = true := by
    decide +kernel
  obtain ⟨⟨x, b, b₁⟩, found⟩ := Option.isSome_iff_exists.mp found
  obtain ⟨b₁', mistake⟩ := Grammar.exists_mistake_of_stray? (by decide) found
  exact ⟨_, x, b, b₁, b₁', parsed, clean, mistake, parse_confines_mistake parsed clean mistake⟩

end SmithyIdl
