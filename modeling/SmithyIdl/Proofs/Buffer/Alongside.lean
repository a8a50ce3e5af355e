import SmithyIdl.Proofs.Buffer.Edits
import SmithyIdl.Proofs.Buffer.Simulation
import SmithyIdl.Proofs.Token.Displaced
import SmithyIdl.Proofs.Tree.Alongside

/-! # Runs alongside each other

Two runs, from some moment on, on tokens that belong together. They are in lockstep, so the trees that they build grow
alike, whatever was built before. -/

namespace SmithyIdl

/-- What the two runs have in common from the onset on. -/
def Onset.matching (O : Onset) : Matching where
  toLikeness := O.layout.toLikeness
  docs := O.Twin
  node := O.Twin
  errors := Abreast O.counted O.counted'
  lenient := False
  moves := True
  encloses := True
  errors_lt := Abreast.lt_iff

/-! ### Tokens to come -/

/-- The tokens `us` were taken and `ts` are to come, the end token with them. -/
structure Buffer.Splits (b : Buffer) (us ts : List Token) : Prop where
  tokens : b.tree.tokens = (us ++ ts).toArray
  cursor : b.cursor = us.length
  left : ts ≠ []

namespace Buffer.Splits

variable {b b' : Buffer} {us us' ts ts' : List Token}

theorem ofText (filename text : String) (maxDepth : Nat) :
    (Buffer.ofText filename text maxDepth).Splits [] (SmithyIdl.tokens text) where
  tokens := rfl
  cursor := rfl
  left := by
    obtain ⟨init, last, all, -⟩ := (tokens_cuts text).exists_last
    rw [all]
    exact List.append_ne_nil_of_right_ne_nil _ (List.cons_ne_nil _ _)

theorem getElem? (h : b.Splits us ts) (k : Nat) : b.tree.tokens[b.cursor + k]? = ts[k]? := by
  rw [h.tokens, h.cursor, List.getElem?_toArray, List.getElem?_append_right (Nat.le_add_right ..), Nat.add_sub_cancel_left]

theorem eof (h : b.Splits us ts) : b.eof = b.cursor + (ts.length - 1) := by
  have left := List.length_pos_iff.mpr h.left
  rw [Buffer.eof, h.tokens, h.cursor, List.size_toArray, List.length_append]
  omega

theorem remaining (h : b.Splits us ts) : b.remaining = ts.length - 1 := by
  rw [Buffer.remaining, h.eof, Nat.add_sub_cancel_left]

theorem hasNext (h : b.Splits us ts) : b.hasNext = decide (1 < ts.length) := by
  rw [Buffer.hasNext, h.eof, decide_eq_decide]
  omega

theorem peek (h : b.Splits us ts) (k : Nat) : ts[min k (ts.length - 1)]? = some (b.peek k) := by
  have left := List.length_pos_iff.mpr h.left
  have made : min k (ts.length - 1) < ts.length := by omega
  rw [Buffer.peek, h.eof, Nat.add_min_add_left, h.getElem?, List.getElem?_eq_getElem made]
  rfl

theorem peek_of_lt (h : b.Splits us ts) {k : Nat} (some : k < ts.length) : b.peek k = ts[k] := by
  have peek := h.peek k
  rw [Nat.min_eq_left (by omega), List.getElem?_eq_getElem some] at peek
  exact (Option.some.inj peek).symm

/-- What comes is seen, whatever was taken before. -/
theorem sees {M : Matching} (h : b.Splits us ts) (h' : b'.Splits us' ts') (same : List.Forall₂ M.token ts ts') :
    M.Sees b b' where
  remaining := by rw [h.remaining, h'.remaining, same.length_eq]
  peek k := by
    have both := rel_getElem? same (min k (ts.length - 1))
    rw [h.peek, same.length_eq, h'.peek] at both
    cases both with
    | some both => exact both

end Buffer.Splits

/-- What comes from the cursor on is what is left of the tokens. -/
theorem Buffer.EndsWithEof.splits {b : Buffer} (ends : b.EndsWithEof) (bound : b.cursor ≤ b.eof) {all : List Token}
    (tokens : b.tree.tokens = all.toArray) : b.Splits (all.take b.cursor) (all.drop b.cursor) := by
  obtain ⟨last, found, -⟩ := ends
  have made : b.eof < all.length := by
    rw [tokens, List.getElem?_toArray] at found
    exact (List.getElem?_eq_some_iff.mp found).1
  have inside : b.cursor < all.length := Nat.lt_of_le_of_lt bound made
  refine ⟨by rw [List.take_append_drop, tokens], ?_, ?_⟩
  · rw [List.length_take, Nat.min_eq_left (Nat.le_of_lt inside)]
  · exact fun empty => Nat.not_le_of_lt inside (List.drop_eq_nil_iff.mp empty)

namespace Buffer

variable {O : Onset} {b b' b₁ b₁' : Buffer} {d d' : NodeId} {t t' : SyntaxTree}

/-- From the onset on, the runs have done the same. -/
structure Alongside (O : Onset) (b b' : Buffer) : Prop where
  tree : SyntaxTree.Alongside O b.tree b'.tree
  openNodes : List.Forall₂ O.Seat b.openNodes b'.openNodes
  maxDepth : b'.maxDepth = b.maxDepth
  cursor : O.Taken b.cursor b'.cursor
  errors : Abreast O.counted O.counted' b.errors b'.errors
  sees : O.matching.Sees b b'

namespace Alongside

theorem innermost (h : b.Alongside O b') : O.Seat b.innermost b'.innermost := by
  rw [Buffer.innermost, Buffer.innermost]
  generalize b.openNodes = nodes, b'.openNodes = nodes', h.openNodes = both
  cases both with
  | nil => exact .root
  | cons seat => exact seat

/-- An edit of both trees. -/
theorem edit (h : b.Alongside O b') (tokens : t.tokens = b.tree.tokens) (tokens' : t'.tokens = b'.tree.tokens)
    (tree : SyntaxTree.Alongside O t t') : ({ b with tree := t } : Buffer).Alongside O { b' with tree := t' } where
  tree := tree
  openNodes := h.openNodes
  maxDepth := h.maxDepth
  cursor := h.cursor
  errors := h.errors
  sees := by
    refine ⟨?_, fun k => ?_⟩
    · have := h.sees.remaining
      simpa only [remaining, eof, tokens, tokens'] using this
    · have := h.sees.peek k
      simpa only [peek, eof, tokens, tokens'] using this

theorem push (h : b.Alongside O b') (twin : O.Twin d d') :
    ({ b with openNodes := d :: b.openNodes } : Buffer).Alongside O { b' with openNodes := d' :: b'.openNodes } where
  tree := h.tree
  openNodes := .cons (.twin twin) h.openNodes
  maxDepth := h.maxDepth
  cursor := h.cursor
  errors := h.errors
  sees := ⟨h.sees.remaining, h.sees.peek⟩

theorem pop (h : b.Alongside O b') :
    ({ b with openNodes := b.openNodes.tail } : Buffer).Alongside O { b' with openNodes := b'.openNodes.tail } where
  tree := h.tree
  openNodes := by
    generalize b.openNodes = nodes, b'.openNodes = nodes', h.openNodes = both
    cases both with
    | nil => exact .nil
    | cons _ rest => exact rest
  maxDepth := h.maxDepth
  cursor := h.cursor
  errors := h.errors
  sees := ⟨h.sees.remaining, h.sees.peek⟩

theorem count (h : b.Alongside O b') :
    ({ b with errors := b.errors + 1 } : Buffer).Alongside O { b' with errors := b'.errors + 1 } where
  tree := h.tree
  openNodes := h.openNodes
  maxDepth := h.maxDepth
  cursor := h.cursor
  errors := h.errors.succ
  sees := ⟨h.sees.remaining, h.sees.peek⟩

/-! ### Steps -/

theorem shift (h : b.Alongside O b') (run : Parser.shift.run b = .ok () b₁) (run' : Parser.shift.run b' = .ok () b₁') :
    b₁.Alongside O b₁' := by
  have sees := h.sees.shift run run'
  obtain ⟨-, t, edit, rfl⟩ := Parser.shift_ok run
  obtain ⟨-, t', edit', rfl⟩ := Parser.shift_ok run'
  exact ⟨(h.tree.addLeaf h.cursor).append h.innermost h.tree.size edit edit', h.openNodes, h.maxDepth, h.cursor.succ,
    h.errors, sees⟩

theorem openNode (h : b.Alongside O b') {kind : TreeKind} (run : (Parser.openNode kind).run b = .ok d b₁)
    (run' : (Parser.openNode kind).run b' = .ok d' b₁') : O.Twin d d' ∧ b₁.Alongside O b₁' := by
  obtain ⟨rfl, t, edit, rfl⟩ := Parser.openNode_edit run
  obtain ⟨rfl, t', edit', rfl⟩ := Parser.openNode_edit run'
  have tree := (h.tree.addNode kind).append h.innermost h.tree.size edit edit'
  exact ⟨h.tree.size, (h.edit (SyntaxTree.Extends.append edit).tokens (SyntaxTree.Extends.append edit').tokens tree).push
    h.tree.size⟩

theorem addError (h : b.Alongside O b') {mark mark' : Mark} (marks : O.layout.Marks mark mark')
    (run : (Parser.addError mark).run b = .ok d b₁) (run' : (Parser.addError mark').run b' = .ok d' b₁') :
    O.Twin d d' ∧ b₁.Alongside O b₁' := by
  obtain ⟨rfl, t, edit, rfl⟩ := Parser.addError_edit run
  obtain ⟨rfl, t', edit', rfl⟩ := Parser.addError_edit run'
  have tree := (h.tree.addError marks).append h.innermost h.tree.size edit edit'
  exact ⟨h.tree.size, (h.edit (SyntaxTree.Extends.append edit).tokens (SyntaxTree.Extends.append edit').tokens tree).count⟩

theorem attach (h : b.Alongside O b') (twin : O.Twin d d') (run : (Parser.attach d).run b = .ok () b₁)
    (run' : (Parser.attach d').run b' = .ok () b₁') : b₁.Alongside O b₁' := by
  obtain ⟨t, edit, rfl⟩ := Parser.attach_ok run
  obtain ⟨t', edit', rfl⟩ := Parser.attach_ok run'
  exact h.edit (SyntaxTree.Extends.append edit).tokens (SyntaxTree.Extends.append edit').tokens
    (h.tree.append h.innermost twin edit edit')

theorem detach (h : b.Alongside O b') (twin : O.Twin d d') (run : (Parser.detach d).run b = .ok () b₁)
    (run' : (Parser.detach d').run b' = .ok () b₁') : b₁.Alongside O b₁' := by
  have parents := h.tree.parent twin
  rcases Parser.detach_edit run with ⟨free, rfl⟩ | ⟨p, found, t, above, edit, rfl⟩
  · rcases Parser.detach_edit run' with ⟨-, rfl⟩ | ⟨p', found', t', above', -, -⟩
    · exact h
    · rw [free, above'] at parents
      cases parents
  · rcases Parser.detach_edit run' with ⟨free', -⟩ | ⟨p', found', t', above', edit', rfl⟩
    · rw [above, free'] at parents
      cases parents
    · exact h.edit (SyntaxTree.Extends.remove edit).tokens (SyntaxTree.Extends.remove edit').tokens
        (h.tree.remove twin above above' edit edit')

theorem adoptDocs (h : b.Alongside O b') (twin : O.Twin d d') (run : (Parser.adoptDocs (some d)).run b = .ok () b₁)
    (run' : (Parser.adoptDocs (some d')).run b' = .ok () b₁') : b₁.Alongside O b₁' := by
  obtain ⟨b₂, taken, put⟩ := Parser.adoptDocs_steps run
  obtain ⟨b₂', taken', put'⟩ := Parser.adoptDocs_steps run'
  exact (h.detach twin taken taken').attach twin put put'

/-- What is read of the two nodes before the edits belongs together. -/
theorem encloseInError (h : b.Alongside O b') (twin : O.Twin d d') {problem : Problem}
    (encloses : problem.encloses = true) (run : (Parser.encloseInError d problem).run b = .ok () b₁)
    (run' : (Parser.encloseInError d' problem).run b' = .ok () b₁') : b₁.Alongside O b₁' := by
  obtain ⟨q, t₁, r, t₂, b₂, t₃, readStart, readRange, added, edit, rfl⟩ := Parser.encloseInError_edit run
  obtain ⟨q', t₁', r', t₂', b₂', t₃', readStart', readRange', added', edit', rfl⟩ := Parser.encloseInError_edit run'
  obtain ⟨F, stands⟩ := h.tree.stands
  obtain ⟨F', stands'⟩ := h.tree.stands'
  have kept := SyntaxTree.Still.fills (r := Reading.start d) readStart
  have kept' := SyntaxTree.Still.fills (r := Reading.start d') readStart'
  have fills := kept.trans (SyntaxTree.Still.fills (r := Reading.range d) readRange)
  have fills' := kept'.trans (SyntaxTree.Still.fills (r := Reading.range d') readRange')
  have marks := h.tree.read_marks (h.tree.matched twin) encloses ((SyntaxTree.Agrees.start d).of_run stands .refl readStart)
    ((SyntaxTree.Agrees.start d').of_run stands' .refl readStart')
    ((SyntaxTree.Agrees.range d).of_run stands kept readRange)
    ((SyntaxTree.Agrees.range d').of_run stands' kept' readRange')
  have filled := h.edit fills.alike.tokens fills'.alike.tokens (h.tree.filled fills fills')
  obtain ⟨error, counted⟩ := filled.addError marks added added'
  exact counted.edit (SyntaxTree.Extends.append edit).tokens (SyntaxTree.Extends.append edit').tokens
    (counted.tree.append (.twin error) twin edit edit')

end Alongside

end Buffer

/-- Runs alongside each other, step by step. -/
def Onset.simulation (O : Onset) : Simulation O.matching where
  same := Buffer.Alongside O
  lost _ := False
  lost_leads _ lost := lost
  refused lenient := lenient.elim
  docs_of_node := id
  sees h := h.sees
  errors h := h.errors
  room h := .inl (by rw [h.maxDepth, h.openNodes.length_eq])
  deep h := .inl (by rw [Buffer.isTooDeep, Buffer.isTooDeep, h.maxDepth, h.openNodes.length_eq])
  push h := h.push
  pop h := h.pop
  shift h := h.shift
  openNode h := h.openNode
  addError h like := h.addError ⟨.inl like, .inl ⟨O.layout.offset_start h.sees.current,
    O.layout.position_start h.sees.current⟩⟩
  adoptDocs h := h.adoptDocs
  detach _ h := h.detach
  attach _ h := h.attach
  encloseInError _ h twin := h.encloseInError twin

end SmithyIdl
