import SmithyIdl.Proofs.Buffer.Built
import SmithyIdl.Proofs.Buffer.Located
import SmithyIdl.Proofs.ErrorCount

/-! # Failed scopes

A scope whose body fails, or that is refused, ends with an error node that takes the token in the way and those up to
the next one that can begin a statement. A scope whose body succeeds adds nothing to it. -/

namespace SmithyIdl

open SmithyIdl.Parser (Recovery Closed Steady KeepsOpen Upholds)

/-! ### The innermost open node -/

/-- The innermost open node stands at a place of the tree, beside other trees. -/
structure Buffer.Inside (b : Buffer) (R : Forest) (way : List Frame) (n : OpenNode) : Prop where
  stands : b.tree.Stands (R ++ Forest.plug way (.branch n.id n.label n.children .nil))
  innermost : b.innermost = n.id

/-- The node with further trees behind its children. -/
def OpenNode.grow (n : OpenNode) (F : Forest) : OpenNode := { n with children := n.children ++ F }

/-- A new node becomes the last child of a node. -/
theorem SyntaxTree.Stands.append_new {t : SyntaxTree} {R D : Forest} {way : List Frame} {n : OpenNode}
    (h : t.Stands (R ++ Forest.plug way (.branch n.id n.label n.children .nil))) (content : NodeContent)
    (ids : D.ids = [t.size]) (one : D.roots = [t.size]) (new : (t.add content).2.Holds none D) :
    ∃ t', (t.add content).2.append n.id t.size = .ok t' ∧
      t'.Stands (R ++ Forest.plug way (.branch (n.grow D).id (n.grow D).label (n.grow D).children .nil)) := by
  have open' : t.Stands (R ++ Forest.plug (n.frame :: way) .nil) := by simpa [OpenNode.frame] using h
  have beside := open'.add ids new
  have linked := Stands.link (f := n.frame) beside one rfl
  obtain ⟨nodup, deep, -⟩ := beside.nodup_frame ids_beside one
  obtain ⟨⟨-, frame⟩, alone⟩ := by simpa only [holds_append] using beside.holds
  obtain ⟨run, -⟩ := append_of_holds one nodup frame alone deep rfl
  exact ⟨_, run, by simpa [OpenNode.frame, OpenNode.grow] using linked⟩

namespace Buffer

variable {b : Buffer} {R : Forest} {way : List Frame} {n : OpenNode}

theorem Ready.inside (h : b.Ready) : ∃ R way n, b.Inside R way n := by
  obtain ⟨F, stands⟩ := h.tree
  obtain ⟨label, tag⟩ := h.innermost
  obtain ⟨A, way, D, B, rfl, place⟩ := stands.exists_at (SyntaxTree.lt_size_of_tag? tag)
  obtain ⟨node, found, same⟩ := Option.map_eq_some_iff.mp tag
  rcases place.eq_of_node found with ⟨token, content, rfl⟩ | ⟨label, inner, content, rfl⟩
  · rw [Node.tag, content] at same
    cases same
  · refine ⟨A ++ B, way, ⟨b.innermost, label, inner⟩, ⟨?_, rfl⟩⟩
    rw [← Forest.append_nil (A ++ _ ++ B)] at stands
    simpa using stands.swap

namespace Inside

theorem place (h : b.Inside R way n) : b.tree.At way (.branch n.id n.label n.children .nil) n.id :=
  h.stands.at_of_eq (A := R) (B := .nil) (Forest.append_nil _).symm rfl

theorem run_openNode (h : b.Inside R way n) (kind : TreeKind) :
    ∃ b', (Parser.openNode kind).run b = .ok b.tree.size b' := by
  obtain ⟨t', run, -⟩ := h.stands.append_new (.branch (.plain kind) #[])
    (D := .branch b.tree.size (.plain kind) .nil .nil) rfl rfl
    ⟨⟨none, SyntaxTree.add_getElem?_size _, by simp⟩, trivial, trivial⟩
  have made := Parser.run_onTree (b := b) (g := fun t => .ok (t.addNode kind)) rfl
  have attached := Parser.run_attach (b := { b with tree := (b.tree.addNode kind).2 }) (h.innermost.symm ▸ run)
  exact ⟨_, (Parser.run_bind_of_ok made).trans ((Parser.run_bind_of_ok attached).trans rfl)⟩

theorem run_addError (h : b.Inside R way n) (mark : Mark) : ∃ b', (Parser.addError mark).run b = .ok b.tree.size b' ∧
    b'.Inside R way (n.grow (.branch b.tree.size (.error mark) .nil .nil)) := by
  obtain ⟨t', run, stands⟩ := h.stands.append_new (.branch (.error mark) #[])
    (D := .branch b.tree.size (.error mark) .nil .nil) rfl rfl
    ⟨⟨none, SyntaxTree.add_getElem?_size _, by simp⟩, trivial, trivial⟩
  have counted : Parser.countError.run b = .ok () { b with errors := b.errors + 1 } := rfl
  have made := Parser.run_onTree (b := { b with errors := b.errors + 1 }) (g := fun t => .ok (t.addError mark)) rfl
  have attached := Parser.run_attach (b := { b with tree := (b.tree.addError mark).2, errors := b.errors + 1 })
    (h.innermost.symm ▸ run)
  exact ⟨_, (Parser.run_bind_of_ok counted).trans ((Parser.run_bind_of_ok made).trans (Parser.run_bind_of_ok attached)),
    stands, h.innermost⟩

theorem run_shift (h : b.Inside R way n) (next : b.hasNext = true) : ∃ b', Parser.shift.run b = .ok () b' ∧
    b'.Inside R way (n.grow (.leaf b.tree.size b.cursor .nil)) := by
  obtain ⟨t', run, stands⟩ := h.stands.append_new (.leaf b.cursor)
    (D := .leaf b.tree.size b.cursor .nil) rfl rfl (SyntaxTree.holds_addLeaf b.cursor)
  refine ⟨{ b with tree := t', cursor := b.cursor + 1 }, ?_, stands, h.innermost⟩
  have edit := Parser.run_edit (b := b) (g := fun t => t.appendLeaf b.innermost b.cursor) (h.innermost.symm ▸ run)
  simp only [Parser.shift, Parser.run_bind, Parser.run_hasNext, Parser.run_ask, Outcome.ok_andThen, next, if_true, edit]
  rfl

/-- The last child is opened. -/
theorem push {i : NodeId} {label : Label} (h : b.Inside R way (n.grow (.branch i label .nil .nil))) :
    { b with openNodes := i :: b.openNodes }.Inside R (n.frame :: way) ⟨i, label, .nil⟩ :=
  ⟨by simpa [OpenNode.frame, OpenNode.grow] using h.stands, rfl⟩

end Inside

/-! ### Recovery -/

end Buffer

/-- A statement can begin or a block end at the token, which stands at the start of its line. -/
def Token.IsAnchor (t : Token) : Prop := t.start.column = 1 ∧ t.kind ∈ [.identifier, .dollar, .atSign, .rbrace]

theorem Token.isAnchor_iff {t : Token} : t.IsAnchor ↔ Parser.startsStatement t = true := by
  simp [IsAnchor, Parser.startsStatement, Parser.statementStart]

namespace Buffer

variable {b : Buffer} {R : Forest} {way : List Frame} {n : OpenNode}

/-- From `b` to `b'` the tokens were taken into the innermost node, and none of them is an anchor. -/
structure Skims (b b' : Buffer) (R : Forest) (way : List Frame) (n : OpenNode) (F : Forest) : Prop where
  leads : b.Leads b'
  inside : b'.Inside R way (n.grow F)
  tokens : F.tokens = List.range' b.cursor (b'.cursor - b.cursor)
  bound : b'.cursor ≤ b.eof
  errors : b'.errors = b.errors
  skipped : ∀ k, b.cursor ≤ k → k < b'.cursor → ¬ (b.tokenAt k).IsAnchor

namespace Skims

variable {b' : Buffer} {F : Forest}

theorem refl (h : b.Inside R way n) (bound : b.cursor ≤ b.eof) : b.Skims b R way n .nil :=
  ⟨.refl b, by simpa [OpenNode.grow] using h, by simp, bound, rfl,
    fun k behind before => absurd before (Nat.not_lt_of_le behind)⟩

/-- One more token is taken. -/
theorem shift (h : b.Skims b' R way n F) (next : b'.hasNext = true)
    (other : ¬ b'.current.IsAnchor) : ∃ b'' F', Parser.shift.run b' = .ok () b'' ∧ b.Skims b'' R way n F' ∧
      b''.remaining < b'.remaining := by
  obtain ⟨b'', run, inside⟩ := h.inside.run_shift next
  have leads := h.leads.trans (Steady.ok run)
  have fewer := Parser.shift_remaining run
  obtain ⟨-, t, -, rfl⟩ := Parser.shift_ok run
  have cursor := h.leads.cursor
  have before := Buffer.hasNext_iff.mp next
  refine ⟨_, F ++ .leaf b'.tree.size b'.cursor .nil, run, ⟨leads, ?_, ?_, ?_, h.errors, fun k behind upTo => ?_⟩, fewer⟩
  · simpa [OpenNode.grow, Forest.append_assoc] using inside
  · rw [Forest.tokens_append, h.tokens, Nat.sub_add_comm cursor, List.range'_concat, Nat.one_mul,
      Nat.add_sub_cancel' cursor]
    simp
  · exact h.leads.eof ▸ before
  · rcases Nat.lt_or_eq_of_le (Nat.le_of_lt_succ upTo) with upTo | rfl
    · exact h.skipped k behind upTo
    · rwa [Buffer.current_eq, h.leads.tokenAt_eq] at other

end Skims

/-- The recovery takes tokens up to an anchor or up to the end of the text. -/
theorem Inside.run_recover (h : b.Inside R way n) (bound : b.cursor ≤ b.eof) :
    ∃ b' F, (Parser.recover .statement).run b = .ok () b' ∧ b.Skims b' R way n F ∧
      (b'.cursor = b.eof ∨ (b.tokenAt b'.cursor).IsAnchor) := by
  have rounds : (Parser.recover .statement).Ensures b
      (fun _ b' => (∃ F, b.Skims b' R way n F) ∧ (b'.hasNext && !Parser.startsStatement b'.current) = false)
      fun _ => False := by
    refine Parser.foldWhile_ensures (I := fun _ b' => ∃ F, b.Skims b' R way n F) (fun _ b' ⟨F, skims⟩ go => ?_)
      ⟨_, .refl h bound⟩
    obtain ⟨next, other⟩ := Bool.and_eq_true_iff.mp go
    obtain ⟨b'', F', run, skims', fewer⟩ := skims.shift next (by simpa [Token.isAnchor_iff] using other)
    exact .of_ok run ⟨⟨F', skims'⟩, fewer⟩
  obtain ⟨_, b', run, ⟨F, skims⟩, ended⟩ := rounds.exists_ok
  refine ⟨b', F, run, skims, ?_⟩
  rcases Bool.and_eq_false_iff.mp ended with done | start
  · have past : ¬ b'.cursor < b'.eof := fun before => by
      rw [Buffer.hasNext_iff.mpr before] at done
      cases done
    exact .inl (Nat.le_antisymm skims.bound (skims.leads.eof ▸ Nat.not_lt.mp past))
  · rw [Buffer.current_eq, skims.leads.tokenAt_eq] at start
    exact .inr (Token.isAnchor_iff.mpr (by simpa using start))

/-- From `b` to `b'` the token that came and those behind it were passed, up to an anchor or the end of the text. -/
structure Resumes (b b' : Buffer) : Prop where
  onward : b.cursor < b'.cursor
  bound : b'.cursor ≤ b.eof
  skipped : ∀ k, b.cursor < k → k < b'.cursor → ¬ (b.tokenAt k).IsAnchor
  stops : b'.cursor = b.eof ∨ (b.tokenAt b'.cursor).IsAnchor

theorem Resumes.of_leads {b₁ b' : Buffer} (h : b₁.Resumes b') (leads : b.Leads b₁) (same : b₁.cursor = b.cursor) :
    b.Resumes b' where
  onward := same ▸ h.onward
  bound := leads.eof ▸ h.bound
  skipped k behind upTo := leads.tokenAt_eq k ▸ h.skipped k (same ▸ behind) upTo
  stops := leads.eof ▸ leads.tokenAt_eq b'.cursor ▸ h.stops

theorem Inside.run_pass (h : b.Inside R way n) (next : b.hasNext = true) :
    ∃ b₁ b' F, Parser.shift.run b = .ok () b₁ ∧ (Parser.recover .statement).run b₁ = .ok () b' ∧
      b'.Inside R way (n.grow F) ∧ F.tokens = List.range' b.cursor (b'.cursor - b.cursor) ∧ b'.errors = b.errors ∧
      b.Resumes b' := by
  obtain ⟨b₁, taken, inside⟩ := h.run_shift next
  have leads := Steady.ok taken
  have cursor := Parser.shift_cursor taken
  have errors : b₁.errors = b.errors := by
    obtain ⟨-, t, -, rfl⟩ := Parser.shift_ok taken
    rfl
  have before := Buffer.hasNext_iff.mp next
  obtain ⟨b', F, recovered, skims, stops⟩ := inside.run_recover (by rw [leads.eof, cursor]; exact before)
  have onward : b.cursor < b'.cursor := by
    have := skims.leads.cursor
    omega
  refine ⟨b₁, b', .leaf b.tree.size b.cursor F, taken, recovered, ?_, ?_, skims.errors.trans errors, onward, ?_, ?_, ?_⟩
  · simpa [OpenNode.grow, Forest.append_assoc] using skims.inside
  · rw [Forest.tokens_leaf, skims.tokens, cursor, ← List.range'_succ]
    congr 1
    omega
  · exact leads.eof ▸ skims.bound
  · intro k behind upTo
    rw [← leads.tokenAt_eq]
    exact skims.skipped k (cursor ▸ behind) upTo
  · rwa [leads.eof, leads.tokenAt_eq] at stops

/-! ### Reports -/

/-- From `b` to `b'` a problem was put into a new node, which is the last child of the innermost one. -/
structure Records (b b' : Buffer) (R : Forest) (way : List Frame) (n : OpenNode) (mark : Mark) (F : Forest) : Prop where
  stands : b'.tree.Stands (R ++ Forest.plug way
    (.branch n.id n.label (n.children ++ .branch b.tree.size (.error mark) F .nil) .nil))
  tokens : F.tokens = List.range' b.cursor (b'.cursor - b.cursor)
  errors : b'.errors = b.errors + 1
  atEnd : b.cursor = b.eof → b'.cursor = b.cursor ∧ F = .nil
  resumes : b.cursor < b.eof → b.Resumes b'

theorem Inside.run_report (h : b.Inside R way n) (e : SyntaxError) :
    ∃ b' F, (Parser.report e .statement).run b = .ok () b' ∧ b.Records b' R way n (Parser.markOf e) F := by
  obtain ⟨b₁, added, inside₁⟩ := h.run_addError (Parser.markOf e)
  obtain ⟨-, -, cursor, errors⟩ := Parser.addError_ok added
  have leads := Steady.ok added
  have same := leads.hasNext_of_same cursor
  have start : (Parser.report e .statement).run b = _ := Parser.run_bind_of_ok added
  rw [Parser.run_bind_of_ok (Parser.run_hasNext b₁), Parser.run_ite] at start
  cases next : b₁.hasNext with
  | false =>
    rw [if_neg (by simp [next])] at start
    have ended : ¬ b.cursor < b.eof := fun before => by
      rw [← Buffer.hasNext_iff, ← same, next] at before
      cases before
    exact ⟨b₁, .nil, start, inside₁.stands, by simp [cursor], errors, fun _ => ⟨cursor, rfl⟩,
      fun before => absurd before ended⟩
  | true =>
    rw [if_pos (by simp [next])] at start
    have pushed : (Parser.push b.tree.size).run b₁ = .ok () { b₁ with openNodes := b.tree.size :: b₁.openNodes } := rfl
    have before : b.cursor < b.eof := Buffer.hasNext_iff.mp (same ▸ next)
    obtain ⟨b₂, b₃, F, taken, recovered, inside₃, tokens, errors₃, resumes⟩ := inside₁.push.run_pass next
    rw [Parser.run_bind_of_ok pushed, Parser.run_bind_of_ok taken, Parser.run_bind_of_ok recovered] at start
    have resumes := resumes.of_leads (leads.trans (Steady.ok pushed)) cursor
    refine ⟨{ b₃ with openNodes := b₃.openNodes.tail }, F, start, ?_, ?_, errors₃.trans errors,
      fun ended => absurd ended (Nat.ne_of_lt before),
      fun _ => ⟨resumes.onward, resumes.bound, resumes.skipped, resumes.stops⟩⟩
    · simpa [OpenNode.grow, OpenNode.frame] using inside₃.stands
    · exact cursor ▸ tokens

/-! ### What is caught -/

/-- From `b` to `b'` a failure was caught in the node `s`. Its last child is new: the error node `r`, which takes the
    token that came and those behind it, up to an anchor or the end of the text. At the end of the text it is empty. -/
structure Caught (b b' : Buffer) (s r : NodeId) (e : SyntaxError) : Prop where
  new : b.tree.size ≤ r
  last : b'.tree.childrenOf s = b.tree.childrenOf s ++ [r]
  kind : b'.tree.kind? r = some .error
  problem : (Reading.problem? r).run' b'.tree = .ok (some e.problem)
  errors : b'.errors = b.errors + 1
  tokens : (Reading.tokenIds r).run' b'.tree = .ok (List.range' b.cursor (b'.cursor - b.cursor)).toArray
  atEnd : b.hasNext = false → b'.cursor = b.cursor ∧ b'.tree.childrenOf r = []
  onward : b.hasNext = true → b.Resumes b'

/-- Nodes can be closed behind it. -/
theorem Caught.closed {b' : Buffer} {s r : NodeId} {e : SyntaxError} (h : b.Caught b' s r e) (nodes : List NodeId) :
    b.Caught { b' with openNodes := nodes } s r e where
  new := h.new
  last := h.last
  kind := h.kind
  problem := h.problem
  errors := h.errors
  tokens := h.tokens
  atEnd := h.atEnd
  onward next := ⟨(h.onward next).onward, (h.onward next).bound, (h.onward next).skipped, (h.onward next).stops⟩

theorem Records.caught {b' : Buffer} {e : SyntaxError} {F : Forest} (h : b.Records b' R way n (Parser.markOf e) F)
    (inside : b.Inside R way n) (bound : b.cursor ≤ b.eof) : b.Caught b' n.id b.tree.size e := by
  have place : b'.tree.At way (.branch n.id n.label _ .nil) n.id :=
    h.stands.at_of_eq (A := R) (B := .nil) (Forest.append_nil _).symm rfl
  have below : b'.tree.At _ (.branch b.tree.size (.error (Parser.markOf e)) F .nil) b.tree.size :=
    SyntaxTree.At.descend (X := n.children) (Y := .nil) (by simpa using place) rfl
  obtain ⟨⟨kept, node, -⟩, -⟩ := below.inside
  have tag : b'.tree.tag? b.tree.size = some (.inr (.error (Parser.markOf e))) := by
    simp [SyntaxTree.tag?, node, Node.tag]
  have read := SyntaxTree.reads_tokenIds below.inside below.one below.size_ids below.nodup_ids
  refine ⟨Nat.le_refl _, ?_, by simp [SyntaxTree.kind?, node, Node.kind, Label.kind],
    SyntaxTree.problem_run tag, h.errors, ?_, fun ended => ?_, fun next => ?_⟩
  · rw [place.children_eq, inside.place.children_eq]
    simp
  · rw [read.run', ← h.tokens]
    simp
  · have past : ¬ b.cursor < b.eof := fun before => by
      rw [Buffer.hasNext_iff.mpr before] at ended
      cases ended
    obtain ⟨cursor, rfl⟩ := h.atEnd (Nat.le_antisymm bound (Nat.not_lt.mp past))
    exact ⟨cursor, below.children_eq⟩
  · exact h.resumes (Buffer.hasNext_iff.mp next)

end Buffer

/-! ### Scopes -/

namespace Parser

variable {α : Type} {p body : Parser α} {b b₁ b₂ b' : Buffer} {kind : TreeKind}

/-- What a scope does that opens the node `s` and goes on from `b₁` inside it. A failure of the body is caught from
    where it happened, and a refusal where the body would have begun. -/
structure ScopeContract (kind : TreeKind) (body : Parser α) (b : Buffer) (s : NodeId) (b₁ : Buffer) : Prop where
  opened : (openNode kind).run b = .ok s b₁
  kept : b₁.cursor = b.cursor ∧ b₁.errors = b.errors
  refused : b₁.isTooDeep = true → ∃ r b', (scope kind body).run b = .ok ⟨s, none⟩ b' ∧
    b'.openNodes = b.openNodes ∧ b₁.Caught b' s r (b₁.syntaxError .tooDeep)
  failed : b₁.isTooDeep = false → ∀ e b₂, body.run b₁ = .error e b₂ → ∃ r b',
    (scope kind body).run b = .ok ⟨s, none⟩ b' ∧ b'.openNodes = b.openNodes ∧ b₂.Caught b' s r e
  succeeded : b₁.isTooDeep = false → ∀ a b₂, body.run b₁ = .ok a b₂ →
    (scope kind body).run b = .ok ⟨s, some a⟩ { b₂ with openNodes := b.openNodes }

/-- A failure is caught in the innermost node, and this is closed. -/
theorem scope_caught {s : NodeId} {e : SyntaxError} (opened : (openNode kind).run b = .ok s b₁) (ready : b₂.Ready)
    (same : b₂.openNodes = s :: b.openNodes) (run : (limited body).run b₁ = .error e b₂) :
    ∃ r b', (scope kind body).run b = .ok ⟨s, none⟩ b' ∧ b'.openNodes = b.openNodes ∧ b₂.Caught b' s r e := by
  obtain ⟨R, way, n, inside⟩ := ready.inside
  obtain ⟨b₃, F, reported, records⟩ := inside.run_report e
  have name : n.id = s := by
    rw [← inside.innermost, Buffer.innermost, same]
    rfl
  have caught := (name ▸ records.caught inside ready.cursor).closed b.openNodes
  exact ⟨_, _, run_scope opened (run_recovering_error run reported) ((KeepsOpen.ok reported).trans same), rfl, caught⟩

theorem scopeContract_of_ready [Steady body] [KeepsOpen body] [Upholds body] (ready : b.Ready) (kind : TreeKind) :
    ∃ s b₁, ScopeContract kind body b s b₁ := by
  obtain ⟨R, way, n, inside⟩ := ready.inside
  obtain ⟨b₁, opened⟩ := inside.run_openNode kind
  have ready₁ : b₁.Ready := ready.opened opened
  have same : b₁.openNodes = b.tree.size :: b.openNodes := KeepsOpen.openNode_ok opened
  obtain ⟨-, -, cursor, errors⟩ := openNode_ok opened
  refine ⟨b.tree.size, b₁, opened, ⟨cursor, errors⟩, fun deep => scope_caught opened ready₁ same (limited_refused deep),
    fun shallow e b₂ run => ?_, fun shallow a b₂ run => ?_⟩
  -- The body closes what it opened, so its failure is caught in the node of the scope.
  · exact scope_caught opened (ready₁.after (p := body) (by rw [run]; rfl)) ((KeepsOpen.error run).trans same)
      ((limited_allowed shallow).trans run)
  · exact run_scope opened (run_recovering_ok ((limited_allowed shallow).trans run)) ((KeepsOpen.ok run).trans same)

/-- A scope that is opened in whatever state of a buffer, around whatever parser of its steps. -/
theorem scope_keeps_contract (reached : b.Reached) (kind : TreeKind) (built : body.Built) :
    ∃ s b₁, ScopeContract kind body b s b₁ := by
  have := built.steady
  have := built.keepsOpen
  have := built.upholds
  exact scopeContract_of_ready reached.ready kind

theorem scope_keeps_contract_at_start : (Buffer.ofText "main.smithy" "oops\n$version: \"2\"\n" 256).Reached ∧
    (Parser.fail (.note "This is no statement") : Parser Unit).Built ∧
    ∃ s b₁, ScopeContract .shapeStatement (Parser.fail (.note "This is no statement") : Parser Unit)
      (Buffer.ofText "main.smithy" "oops\n$version: \"2\"\n" 256) s b₁ :=
  ⟨.ofText .., .fail _, scope_keeps_contract (.ofText ..) _ (.fail _)⟩

end Parser

end SmithyIdl
