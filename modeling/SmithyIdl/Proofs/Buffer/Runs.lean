import SmithyIdl.Proofs.Buffer.Growth

/-! # Runs that succeeded

What is known of the buffer behind a step, read off the run alone. -/

namespace SmithyIdl

/-- The kind of a token of the text. -/
def kindAt (ts : Array Token) (i : TokenId) : TokenKind := (ts[i]?.getD .nothing).kind

namespace Buffer

variable {b b' : Buffer}

theorem kind_peek {k : Nat} (inside : b.cursor + k ≤ b.eof) : (b.peek k).kind = kindAt b.tree.tokens (b.cursor + k) := by
  rw [peek, Nat.min_eq_left inside, kindAt]

theorem kindAt_cursor (inside : b.cursor ≤ b.eof) : kindAt b.tree.tokens b.cursor = b.current.kind :=
  (kind_peek (k := 0) inside).symm

/-- Where the cursor stays, the same tokens come. -/
theorem Leads.peek_of_same (h : b.Leads b') (same : b'.cursor = b.cursor) : b'.peek = b.peek := by
  funext k
  rw [peek, peek, same, h.eof, h.tokens]

theorem current_of_peek (same : b'.peek = b.peek) : b'.current = b.current := by rw [current, current, same]

/-- What is looked at past tokens of a class is the first token of another class, or the end token. -/
theorem exists_lookPast (b : Buffer) (k : Nat) (kinds : TokenKind → Bool) :
    ∃ m, k ≤ m ∧ b.lookPast k kinds = b.peek m ∧
      ∀ n, k ≤ n → n < m → b.cursor + n < b.eof ∧ kinds (b.peek n).kind = true := by
  induction k using lookPast.induct b kinds with
  | case1 k more ih =>
    obtain ⟨m, le, same, all⟩ := ih
    rw [lookPast, if_pos more]
    refine ⟨m, Nat.le_of_succ_le le, same, fun n lower upper => ?_⟩
    rcases Nat.eq_or_lt_of_le lower with rfl | lt
    · exact more
    · exact all n lt upper
  | case2 k stop =>
    rw [lookPast, if_neg stop]
    exact ⟨k, Nat.le_refl k, rfl, fun n lower upper => absurd upper (Nat.not_lt.mpr lower)⟩

end Buffer

namespace Parser

variable {α β σ : Type} {p q : Parser α} {f : α → Parser β} {b b' : Buffer}

theorem onTree_ok {g : SyntaxTree → Except Fault (α × SyntaxTree)} {a : α} (h : (onTree g).run b = .ok a b') :
    ∃ t, g b.tree = .ok (a, t) ∧ b' = { b with tree := t } := by
  rw [run, onTree] at h
  cases hg : g b.tree with
  | error why =>
    rw [hg] at h
    cases h
  | ok r =>
    rw [hg] at h
    cases h
    exact ⟨_, rfl, rfl⟩

theorem attach_ok {d : NodeId} (h : (attach d).run b = .ok () b') :
    ∃ t, b.tree.append b.innermost d = .ok t ∧ b' = { b with tree := t } := by
  unfold attach at h
  obtain ⟨parent, b₁, hask, h⟩ := bind_eq_ok.mp h
  cases hask
  obtain ⟨t, edit, rfl⟩ := onTree_ok h
  cases hrun : b.tree.append b.innermost d with
  | error why =>
    rw [hrun] at edit
    cases edit
  | ok t' =>
    rw [hrun] at edit
    cases edit
    exact ⟨_, rfl, rfl⟩

theorem openNode_ok {kind : TreeKind} {d : NodeId} (h : (openNode kind).run b = .ok d b') :
    d = b.tree.size ∧ b'.tree.tag? d = some (.inr (.plain kind)) ∧ b'.cursor = b.cursor ∧ b'.errors = b.errors := by
  unfold openNode at h
  obtain ⟨node, b₁, made, h⟩ := bind_eq_ok.mp h
  obtain ⟨t, edit, rfl⟩ := onTree_ok made
  cases edit
  obtain ⟨_, b₂, attached, h⟩ := bind_eq_ok.mp h
  obtain ⟨t, run, rfl⟩ := attach_ok attached
  cases h
  refine ⟨rfl, (SyntaxTree.Extends.append run).tag?_eq ?_, rfl, rfl⟩
  change (b.tree.add (.branch (.plain kind) #[])).2.tag? b.tree.size = _
  rw [SyntaxTree.tag?, SyntaxTree.add_getElem?_size]
  rfl

theorem addError_ok {mark : Mark} {d : NodeId} (h : (addError mark).run b = .ok d b') :
    b'.tree.tag? d = some (.inr (.error mark)) ∧ b'.openNodes = b.openNodes ∧ b'.cursor = b.cursor ∧
      b'.errors = b.errors + 1 := by
  unfold addError at h
  obtain ⟨_, b₁, counted, h⟩ := bind_eq_ok.mp h
  cases counted
  obtain ⟨node, b₂, made, h⟩ := bind_eq_ok.mp h
  cases made
  obtain ⟨_, b₃, attached, h⟩ := bind_eq_ok.mp h
  obtain ⟨t, run, rfl⟩ := attach_ok attached
  cases h
  refine ⟨(SyntaxTree.Extends.append run).tag?_eq ?_, rfl, rfl, rfl⟩
  change (b.tree.add (.branch (.error mark) #[])).2.tag? b.tree.size = _
  rw [SyntaxTree.tag?, SyntaxTree.add_getElem?_size]
  rfl

/-- The node of an error is new. -/
theorem addError_new {mark : Mark} {d : NodeId} (h : (addError mark).run b = .ok d b') : d = b.tree.size := by
  unfold addError at h
  obtain ⟨_, b₁, counted, h⟩ := bind_eq_ok.mp h
  cases counted
  obtain ⟨node, b₂, made, h⟩ := bind_eq_ok.mp h
  cases made
  obtain ⟨_, b₃, attached, h⟩ := bind_eq_ok.mp h
  cases h
  rfl

/-- What is reported stands in a new node. -/
theorem report_ok {e : SyntaxError} {recovery : Recovery} (h : (report e recovery).run b = .ok () b') :
    ∃ i, b.tree.size ≤ i ∧ b'.tree.tag? i = some (.inr (.error (markOf e))) := by
  unfold report at h
  obtain ⟨i, b₁, added, rest⟩ := bind_eq_ok.mp h
  exact ⟨i, Nat.le_of_eq (addError_new added).symm, (Steady.ok rest).tree.tag?_eq (addError_ok added).1⟩

theorem shift_ok (h : shift.run b = .ok () b') :
    b.hasNext = true ∧ ∃ t, b.tree.appendLeaf b.innermost b.cursor = .ok t ∧
      b' = { b with tree := t, cursor := b.cursor + 1 } := by
  unfold shift at h
  obtain ⟨next, b₁, hask, h⟩ := bind_eq_ok.mp h
  cases hask
  by_cases next : b.hasNext = true
  · rw [run_ite, if_pos next] at h
    obtain ⟨parent, b₁, hask, h⟩ := bind_eq_ok.mp h
    cases hask
    obtain ⟨token, b₁, hask, h⟩ := bind_eq_ok.mp h
    cases hask
    obtain ⟨_, b₁, edited, h⟩ := bind_eq_ok.mp h
    obtain ⟨t, edit, rfl⟩ := onTree_ok edited
    cases h
    refine ⟨next, t, ?_, rfl⟩
    cases hrun : b.tree.appendLeaf b.innermost b.cursor with
    | error why =>
      rw [hrun] at edit
      cases edit
    | ok t' =>
      rw [hrun] at edit
      cases edit
      rfl
  · rw [run_ite, if_neg next] at h
    cases h

theorem closeNode_ok {d : NodeId} (h : (closeNode d).run b = .ok () b') :
    b' = { b with openNodes := b.openNodes.tail } := by
  unfold closeNode at h
  obtain ⟨first, b₁, hask, h⟩ := bind_eq_ok.mp h
  cases hask
  rw [run_ite] at h
  split at h <;> cases h
  rfl

/-- A problem is counted, and the cursor stays. -/
theorem encloseInError_ok {d : NodeId} {problem : Problem} (h : (encloseInError d problem).run b = .ok () b') :
    b'.cursor = b.cursor ∧ b.errors < b'.errors := by
  unfold encloseInError at h
  obtain ⟨start, b₁, read, h⟩ := bind_eq_ok.mp h
  obtain ⟨range, b₂, read', h⟩ := bind_eq_ok.mp h
  obtain ⟨error, b₃, added, placed⟩ := bind_eq_ok.mp h
  obtain ⟨t₁, -, rfl⟩ := onTree_ok read
  obtain ⟨t₂, -, rfl⟩ := onTree_ok read'
  obtain ⟨t₃, -, rfl⟩ := onTree_ok placed
  obtain ⟨-, -, cursor, errors⟩ := addError_ok added
  exact ⟨cursor, Nat.lt_of_succ_le (Nat.le_of_eq errors.symm)⟩

theorem limited_refused (deep : b.isTooDeep = true) : (limited p).run b = .error (b.syntaxError .tooDeep) b := by
  unfold limited
  rw [run_bind_of_ok (run_ask _ b), run_ite, if_pos deep]
  rfl

theorem limited_ok {a : α} (h : (limited p).run b = .ok a b') : p.run b = .ok a b' := by
  unfold limited at h
  obtain ⟨deep, b₁, hask, h⟩ := bind_eq_ok.mp h
  cases hask
  rw [run_ite] at h
  split at h
  · cases h
  · exact h

/-- Where too many nodes are open nothing runs. -/
theorem shallow_of_limited {a : α} (h : (limited p).run b = .ok a b') : b.isTooDeep = false := by
  refine eq_false_of_ne_true fun deep => ?_
  rw [limited_refused deep] at h
  cases h

/-- Either the parser succeeded, or it failed and this was reported. -/
theorem recovering_ok {recovery : Recovery} {r : Option α} (h : (recovering recovery p).run b = .ok r b') :
    (∃ a, r = some a ∧ p.run b = .ok a b') ∨
      r = none ∧ ∃ e b₁, p.run b = .error e b₁ ∧ (report e recovery).run b₁ = .ok () b' := by
  unfold recovering at h
  obtain ⟨caught, b₁, attempted, h⟩ := bind_eq_ok.mp h
  rw [run_attempt] at attempted
  cases hp : p.run b with
  | ok a b₂ =>
    rw [hp] at attempted
    cases attempted
    cases h
    exact .inl ⟨a, rfl, rfl⟩
  | error e b₂ =>
    rw [hp] at attempted
    cases attempted
    obtain ⟨_, b₃, reported, done⟩ := bind_eq_ok.mp h
    cases done
    exact .inr ⟨rfl, e, _, rfl, reported⟩
  | fault why =>
    rw [hp] at attempted
    cases attempted

/-- The value of a scope is that of what ran inside it. -/
theorem scope_ok [Steady p] {kind : TreeKind} {recovery : Recovery} {r : Closed α}
    (h : (scope kind p recovery).run b = .ok r b') : b'.tree.tag? r.node = some (.inr (.plain kind)) ∧
      ∀ a ∈ r.value, ∃ b₁ b₂, b.Leads b₁ ∧ b₁.peek = b.peek ∧ p.run b₁ = .ok a b₂ ∧ b₂.Leads b' ∧
        b'.peek = b₂.peek := by
  unfold scope at h
  obtain ⟨node, b₁, opened, h⟩ := bind_eq_ok.mp h
  obtain ⟨value, b₂, caught, h⟩ := bind_eq_ok.mp h
  obtain ⟨_, b₃, closed, done⟩ := bind_eq_ok.mp h
  cases done
  obtain ⟨-, tag, same, -⟩ := openNode_ok opened
  have leads := Steady.ok opened
  refine ⟨((Steady.ok caught).trans (Steady.ok closed)).tree.tag?_eq tag, fun a ha => ?_⟩
  obtain rfl : value = some a := ha
  obtain ⟨a', same', run⟩ | ⟨never, -⟩ := recovering_ok caught
  · cases same'
    have after := closeNode_ok closed
    exact ⟨b₁, _, leads, leads.peek_of_same same, limited_ok run, Steady.ok closed, by rw [after]; rfl⟩
  · cases never

/-- Without a new problem nothing was caught. -/
theorem recovering_clean [Steady p] {recovery : Recovery} {r : Option α} (h : (recovering recovery p).run b = .ok r b')
    (clean : b'.errors = b.errors) : ∃ a, r = some a ∧ p.run b = .ok a b' := by
  rcases recovering_ok h with ⟨a, rfl, run⟩ | ⟨-, e, b₁, failed, reported⟩
  · exact ⟨a, rfl, run⟩
  · have before := (Steady.error failed).errors
    have more := errors_lt_of_report reported
    omega

/-- A clean run of a scope is one of its body between the opening and the closing of a node. -/
theorem exists_scope [Steady p] {kind : TreeKind} {recovery : Recovery} {r : Closed α}
    (h : (scope kind p recovery).run b = .ok r b') (clean : b'.errors = b.errors) :
    ∃ i a b₁ b₂, (openNode kind).run b = .ok i b₁ ∧ b₁.isTooDeep = false ∧ p.run b₁ = .ok a b₂ ∧
      b₂.errors = b₁.errors ∧ r = ⟨i, some a⟩ ∧ b' = { b₂ with openNodes := b₂.openNodes.tail } := by
  unfold scope at h
  obtain ⟨node, b₁, opened, h⟩ := bind_eq_ok.mp h
  obtain ⟨value, b₂, caught, h⟩ := bind_eq_ok.mp h
  obtain ⟨_, b₃, closed, done⟩ := bind_eq_ok.mp h
  cases done
  obtain rfl := closeNode_ok closed
  obtain ⟨-, clean₂⟩ := (Steady.ok opened).clean (Steady.ok caught) clean
  obtain ⟨a, rfl, inner⟩ := recovering_clean caught clean₂
  exact ⟨node, a, b₁, b₂, opened, shallow_of_limited inner, limited_ok inner, clean₂, rfl, rfl⟩

/-- A node is made by a scope whose value is dropped. -/
theorem exists_of_within {kind : TreeKind} {body : Parser Unit} (h : (within kind body).run b = .ok () b') :
    ∃ r, (scope kind body .statement).run b = .ok r b' := by
  unfold within at h
  obtain ⟨r, b₁, closed, done⟩ := bind_eq_ok.mp h
  cases done
  exact ⟨r, closed⟩

/-- Without a new problem a scope has a value. -/
theorem scope_clean [Steady p] {kind : TreeKind} {recovery : Recovery} {r : Closed α}
    (h : (scope kind p recovery).run b = .ok r b') (clean : b'.errors = b.errors) : ∃ a, r.value = some a := by
  obtain ⟨_, a, _, _, -, -, -, -, rfl, -⟩ := exists_scope h clean
  exact ⟨a, rfl⟩

/-! ### Looking -/

/-- The parser leaves the buffer as it is. -/
class Looks (p : Parser α) : Prop where
  same : ∀ {b b' : Buffer}, (p.run b).buffer? = some b' → b' = b

namespace Looks

theorem ok [Looks p] {a : α} (h : p.run b = .ok a b') : b' = b := same (p := p) (by rw [h]; rfl)

instance pure (a : α) : Looks (Pure.pure a : Parser α) := ⟨fun h => (Option.some.inj h).symm⟩

instance ask (g : Buffer → α) : Looks (Parser.ask g) := ⟨fun h => (Option.some.inj h).symm⟩

instance fail (problem : Problem) : Looks (Parser.fail problem : Parser α) := ⟨fun h => (Option.some.inj h).symm⟩

instance bind [Looks p] [∀ a, Looks (f a)] : Looks (p >>= f) where
  same h := by
    rcases buffer?_bind.mp h with ⟨e, hp⟩ | ⟨a, b₁, hp, rest⟩
    · exact same (p := p) (by rw [hp]; rfl)
    · obtain rfl := ok hp
      exact same rest

instance ite {c : Prop} [Decidable c] [Looks p] [Looks q] : Looks (if c then p else q) := by
  by_cases hc : c
  · rw [if_pos hc]
    infer_instance
  · rw [if_neg hc]
    infer_instance

instance expectAny (kinds : TokenSet) : Looks (Parser.expectAny kinds) := by
  unfold Parser.expectAny
  have (cause : Option LexError) (token : Token) : Looks (match cause with
      | some cause => Parser.fail (.lexical cause)
      | none => Parser.fail (.expected kinds token) : Parser TokenKind) := by cases cause <;> infer_instance
  have : Looks Parser.current := .ask _
  infer_instance

instance expect (kind : TokenKind) : Looks (Parser.expect kind) := by
  unfold Parser.expect
  infer_instance

end Looks

/-! ### Tokens to come -/

theorem run_expect {kind : TokenKind} (here : b.current.kind = kind) : (expect kind).run b = .ok () b := by
  have found : (expectAny (.single kind)).run b = .ok b.current.kind b := by
    have looked : current.run b = .ok b.current b := rfl
    unfold expectAny
    rw [run_bind_of_ok looked, run_ite, if_pos (by rw [here, TokenSet.contains_single, decide_eq_true rfl])]
    rfl
  exact run_bind_of_ok found

theorem shift_peek (h : shift.run b = .ok () b') (k : Nat) : b'.peek k = b.peek (k + 1) := by
  have leads := Steady.ok h
  obtain ⟨-, t, -, rfl⟩ := shift_ok h
  rw [Buffer.peek, Buffer.peek, leads.eof, leads.tokens]
  simp only [Nat.add_assoc, Nat.add_comm 1 k]

theorem shift_remaining (h : shift.run b = .ok () b') : b'.remaining < b.remaining := by
  have eof := (Steady.ok h).eof
  obtain ⟨next, t, -, rfl⟩ := shift_ok h
  rw [Buffer.hasNext_iff] at next
  rw [Buffer.remaining, Buffer.remaining, eof]
  change b.eof - (b.cursor + 1) < b.eof - b.cursor
  omega

theorem next_ok {kind : TokenKind} (h : next.run b = .ok kind b') : shift.run b = .ok () b' := by
  unfold next at h
  obtain ⟨more, b₁, hask, h⟩ := bind_eq_ok.mp h
  cases hask
  rw [run_ite] at h
  split at h
  · obtain ⟨token, b₁, hask, h⟩ := bind_eq_ok.mp h
    cases hask
    obtain ⟨_, b₂, shifted, done⟩ := bind_eq_ok.mp h
    cases done
    exact shifted
  · cases h

theorem consumeAny_ok (h : consumeAny.run b = .ok () b') : shift.run b = .ok () b' := by
  unfold consumeAny at h
  obtain ⟨kind, b₁, taken, done⟩ := bind_eq_ok.mp h
  cases done
  exact next_ok taken

theorem consumeAny_peek (h : consumeAny.run b = .ok () b') (k : Nat) : b'.peek k = b.peek (k + 1) :=
  shift_peek (consumeAny_ok h) k

theorem shift_cursor (h : shift.run b = .ok () b') : b'.cursor = b.cursor + 1 := by
  obtain ⟨-, t, -, rfl⟩ := shift_ok h
  rfl

/-- Taking tokens of a class ends where none comes. -/
theorem shiftKinds_ok {kinds : TokenKind → Bool} (h : (shiftKinds kinds).run b = .ok () b') :
    b'.hasNext = false ∨ kinds b'.current.kind = false :=
  Bool.and_eq_false_iff.mp (foldWhile_ok (I := fun _ _ => True) (fun _ _ _ _ _ _ _ => trivial) trivial h).2

theorem kind_of_shiftKinds {kinds : TokenKind → Bool} (ends : b.EndsWithEof) (last : kinds .eof = false)
    (h : (shiftKinds kinds).run b = .ok () b') : kinds b'.current.kind = false := by
  rcases shiftKinds_ok h with done | other
  · by_cases eof : b'.current.kind = .eof
    · rw [eof, last]
    · rw [((Steady.ok h).endsWithEof ends).hasNext eof] at done
      cases done
  · exact other

theorem detach_peek {d : NodeId} (h : (detach d).run b = .ok () b') : b'.peek = b.peek := by
  have leads := Steady.ok h
  unfold detach at h
  obtain ⟨parent, b₁, found, h⟩ := bind_eq_ok.mp h
  obtain ⟨t, -, rfl⟩ := onTree_ok found
  cases parent with
  | none =>
    cases h
    exact leads.peek_of_same rfl
  | some parent =>
    obtain ⟨_, b₂, removed, done⟩ := bind_eq_ok.mp h
    obtain ⟨t', -, rfl⟩ := onTree_ok removed
    cases done
    exact leads.peek_of_same rfl

theorem attach_peek {d : NodeId} (h : (attach d).run b = .ok () b') : b'.peek = b.peek := by
  have leads := Steady.ok h
  obtain ⟨t, -, rfl⟩ := attach_ok h
  exact leads.peek_of_same rfl

theorem adoptDocs_peek {docs : Option NodeId} (h : (adoptDocs docs).run b = .ok () b') : b'.peek = b.peek := by
  unfold adoptDocs at h
  cases docs with
  | none =>
    cases h
    rfl
  | some d =>
    obtain ⟨n, b₁, hask, h⟩ := bind_eq_ok.mp h
    cases hask
    split at h
    · obtain ⟨_, b₂, taken, put⟩ := bind_eq_ok.mp h
      exact (attach_peek put).trans (detach_peek taken)
    · cases h

end Parser

end SmithyIdl
