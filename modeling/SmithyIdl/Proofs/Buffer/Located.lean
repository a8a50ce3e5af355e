import SmithyIdl.Proofs.Buffer.Adds
import SmithyIdl.Proofs.Buffer.Invariant

/-! # Where errors are reported

A problem is reported at the token to come. So its error node is located by this token, and of all leaves just those of
earlier tokens are made before it. -/

namespace SmithyIdl

open SyntaxTree (Adds)

namespace Buffer

variable {b b' : Buffer} {e : NodeId} {mark : Mark} {k : TokenId} {new : TokenId ⊕ Label → Prop}

/-- The token of a name; behind the last one, the end token. -/
def tokenAt (b : Buffer) (k : TokenId) : Token := b.tree.tokens[min k b.eof]?.getD .nothing

theorem current_eq (b : Buffer) : b.current = b.tokenAt b.cursor := by rw [current, peek, tokenAt, Nat.add_zero]

theorem Leads.tokenAt_eq (h : b.Leads b') (k : TokenId) : b'.tokenAt k = b.tokenAt k := by
  rw [tokenAt, tokenAt, h.tokens, h.eof]

/-- The node of an error was made when the token `k` was to come. -/
structure ReportedAt (b : Buffer) (e : NodeId) (mark : Mark) (k : TokenId) : Prop where
  before : k ≤ b.cursor
  offset : mark.offset = (b.tokenAt k).range.start
  position : mark.position = (b.tokenAt k).start
  leaves : ∀ {i token}, b.tree.tag? i = some (.inl token) → (i < e ↔ token < k)

/-- Every error was reported at some token, but for those that are put around traits. -/
structure Located (b : Buffer) : Prop where
  leaves : ∀ {i token}, b.tree.tag? i = some (.inl token) → token < b.cursor
  reports : ∀ {e mark}, b.tree.tag? e = some (.inr (.error mark)) → mark.problem.encloses = false →
    ∃ k, b.ReportedAt e mark k

/-- Leaves that are made later have later tokens. -/
theorem ReportedAt.step (h : b.ReportedAt e mark k) (made : e < b.tree.size) (leads : b.Leads b')
    (adds : Adds new (fun _ => True) b.tree b'.tree) (later : ∀ token, new (.inl token) → b.cursor ≤ token) :
    b'.ReportedAt e mark k where
  before := Nat.le_trans h.before leads.cursor
  offset := leads.tokenAt_eq k ▸ h.offset
  position := leads.tokenAt_eq k ▸ h.position
  leaves {i token} found := by
    rcases adds.tags found with old | ⟨fresh, leaf⟩
    · exact h.leaves old
    · have behind : k ≤ token := Nat.le_trans h.before (later token leaf)
      exact iff_of_false (Nat.not_lt_of_lt (Nat.lt_of_lt_of_le made fresh)) (Nat.not_lt_of_le behind)

theorem Located.step (h : b.Located) (leads : b.Leads b') (adds : Adds new (fun _ => True) b.tree b'.tree)
    (leaf : ∀ token, new (.inl token) → token = b.cursor ∧ b.cursor < b'.cursor)
    (report : ∀ mark, new (.inr (.error mark)) → mark.problem.encloses = false →
      mark.offset = b.current.range.start ∧ mark.position = b.current.start ∧ ∀ token, ¬ new (.inl token)) :
    b'.Located where
  leaves {i token} found := by
    rcases adds.tags found with old | ⟨-, fresh⟩
    · exact Nat.lt_of_lt_of_le (h.leaves old) leads.cursor
    · obtain ⟨rfl, further⟩ := leaf token fresh
      exact further
  reports {e mark} found reported := by
    rcases adds.tags found with old | ⟨new, fresh⟩
    · obtain ⟨k, stands⟩ := h.reports old reported
      exact ⟨k, stands.step (SyntaxTree.lt_size_of_tag? old) leads adds fun token fresh =>
        Nat.le_of_eq (leaf token fresh).1.symm⟩
    · obtain ⟨offset, position, alone⟩ := report mark fresh reported
      refine ⟨b.cursor, leads.cursor, ?_, ?_, fun {i token} leaf => ?_⟩
      · rw [leads.tokenAt_eq, ← current_eq, offset]
      · rw [leads.tokenAt_eq, ← current_eq, position]
      · rcases adds.tags leaf with old | ⟨-, never⟩
        · exact iff_of_true (Nat.lt_of_lt_of_le (SyntaxTree.lt_size_of_tag? old) new) (h.leaves old)
        · exact absurd never (alone token)

/-- Where no leaf and no error is new, nothing changes. -/
theorem Located.keep (h : b.Located) (leads : b.Leads b')
    (adds : Adds (fun tag => ∃ kind, tag = .inr (.plain kind)) (fun _ => True) b.tree b'.tree) : b'.Located :=
  h.step leads adds (fun _ ⟨_, leaf⟩ => nomatch leaf) fun _ ⟨_, error⟩ => nomatch error

theorem ofText_located (filename text : String) (maxDepth : Nat) : (Buffer.ofText filename text maxDepth).Located :=
  ⟨fun found => (nomatch (SyntaxTree.tag?_new found).2), fun found => nomatch (SyntaxTree.tag?_new found).2⟩

end Buffer

open SmithyIdl.Parser (Steady)

/-- Every step keeps errors where they were reported. -/
def Invariant.located : Invariant (fun _ => True) (fun _ => True) True True where
  holds := Buffer.Located
  docs_of_node _ := trivial
  around h := ⟨h.leaves, fun found reported => by
    obtain ⟨k, stands⟩ := h.reports found reported
    exact ⟨k, stands.before, stands.offset, stands.position, stands.leaves⟩⟩
  shift {b b'} h run := by
    have further : b.cursor < b'.cursor := by
      obtain ⟨-, t, -, rfl⟩ := Parser.shift_ok run
      exact Nat.lt_add_one b.cursor
    exact h.step (Steady.ok run) (Parser.shift_adds run) (fun token leaf => ⟨Sum.inl.inj leaf, further⟩)
      fun _ error => nomatch error
  openNode h run := ⟨trivial, h.keep (Steady.ok run) ((Parser.openNode_adds run).mono fun _ same => ⟨_, same⟩)⟩
  addError h reported run :=
    ⟨trivial, h.step (Steady.ok run) (Parser.addError_adds run) (fun _ leaf => nomatch leaf) fun mark same _ => by
      obtain rfl := Label.error.inj (Sum.inr.inj same)
      exact ⟨rfl, rfl, fun _ leaf => nomatch leaf⟩⟩
  adoptDocs h _ run := h.keep (Steady.ok run) (Parser.adoptDocs_adds trivial run)
  detach _ h _ run := h.keep (Steady.ok run) (Parser.detach_adds trivial run)
  attach _ h _ run := h.keep (Steady.ok run) (Parser.attach_adds trivial run)
  encloseInError _ h _ misplaced run := by
    obtain ⟨mark, rfl, adds⟩ := @Parser.encloseInError_adds _ _ (fun _ => True) _ _ trivial run
    refine h.step (Steady.ok run) adds (fun _ leaf => nomatch leaf) ?_
    rintro _ ⟨⟩ reported
    rw [misplaced] at reported
    cases reported

end SmithyIdl
