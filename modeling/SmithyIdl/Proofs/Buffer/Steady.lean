import SmithyIdl.Proofs.Buffer.Ensures
import SmithyIdl.Proofs.Tree.Edit
import SmithyIdl.Proofs.Tree.Reads

/-! # Parsers that only go forward

No parser changes the tokens or the limit on open nodes, none moves the cursor back or loses a node, and every
problem that is counted has its error node. Instances say so of every step and of every way to put steps together,
so for a rule of the grammar it is found by its form. -/

namespace SmithyIdl

/-! ### Buffers -/

namespace Buffer

/-- `b'` is `b` or behind it. -/
structure Leads (b b' : Buffer) : Prop where
  tree : b.tree.Extends b'.tree
  maxDepth : b'.maxDepth = b.maxDepth
  cursor : b.cursor ≤ b'.cursor
  errors : b.errors ≤ b'.errors
  /-- A problem that was counted stands in a new node, and only one. -/
  counted : b'.tree.marks + b.errors = b.tree.marks + b'.errors

/-- The tokens end with the end token. -/
def EndsWithEof (b : Buffer) : Prop := ∃ token, b.tree.tokens[b.eof]? = some token ∧ token.kind = .eof

variable {b b' b'' : Buffer}

theorem Leads.refl (b : Buffer) : b.Leads b := ⟨.refl _, rfl, Nat.le_refl _, Nat.le_refl _, rfl⟩

theorem Leads.trans (h : b.Leads b') (h' : b'.Leads b'') : b.Leads b'' := by
  have counted := h.counted
  have counted' := h'.counted
  exact ⟨h.tree.trans h'.tree, h'.maxDepth.trans h.maxDepth, Nat.le_trans h.cursor h'.cursor,
    Nat.le_trans h.errors h'.errors, by omega⟩

theorem Leads.marked (h : b.Leads b') (more : b.errors < b'.errors) :
    ∃ i mark, b.tree.size ≤ i ∧ b'.tree.tag? i = some (.inr (.error mark)) :=
  h.tree.exists_mark (by have := h.counted; omega)

theorem Leads.tokens (h : b.Leads b') : b'.tree.tokens = b.tree.tokens := h.tree.tokens

/-- Where no problem is new at the end, none was new on the way. -/
theorem Leads.clean (h : b.Leads b') (h' : b'.Leads b'') (clean : b''.errors = b.errors) :
    b'.errors = b.errors ∧ b''.errors = b'.errors := by
  have before := h.errors
  have behind := h'.errors
  omega

/-- A change of the tree or of what surrounds it, without a problem that is counted. -/
theorem Leads.of_extends (tree : b.tree.Extends b'.tree) (marks : b'.tree.marks = b.tree.marks)
    (maxDepth : b'.maxDepth = b.maxDepth) (cursor : b.cursor ≤ b'.cursor) (errors : b'.errors = b.errors) :
    b.Leads b' :=
  ⟨tree, maxDepth, cursor, Nat.le_of_eq errors.symm, by rw [marks, errors]⟩

theorem eof_of_tokens (same : b'.tree.tokens = b.tree.tokens) : b'.eof = b.eof := by
  rw [Buffer.eof, Buffer.eof, same]

theorem EndsWithEof.of_tokens (ends : b.EndsWithEof) (same : b'.tree.tokens = b.tree.tokens) : b'.EndsWithEof := by
  rwa [EndsWithEof, same, eof_of_tokens same]

theorem Leads.eof (h : b.Leads b') : b'.eof = b.eof := eof_of_tokens h.tokens

theorem Leads.endsWithEof (h : b.Leads b') (ends : b.EndsWithEof) : b'.EndsWithEof := ends.of_tokens h.tokens

theorem hasNext_iff : b.hasNext = true ↔ b.cursor < b.eof := by simp [hasNext]

theorem Leads.hasNext_of_same (h : b.Leads b') (same : b'.cursor = b.cursor) : b'.hasNext = b.hasNext := by
  rw [hasNext, hasNext, same, h.eof]

theorem Leads.current_of_same (h : b.Leads b') (same : b'.cursor = b.cursor) : b'.current = b.current := by
  rw [current, current, peek, peek, same, h.eof, h.tokens]

/-- Either a token was consumed, or one is still left. -/
theorem Leads.lt_or_hasNext (h : b.Leads b') (next : b.hasNext = true) :
    b.cursor < b'.cursor ∨ b'.cursor = b.cursor ∧ b'.hasNext = true := by
  rcases Nat.lt_or_ge b.cursor b'.cursor with hlt | hge
  · exact Or.inl hlt
  · have same : b'.cursor = b.cursor := Nat.le_antisymm hge h.cursor
    exact Or.inr ⟨same, (h.hasNext_of_same same).trans next⟩

/-- Only at the end does the end token come. -/
theorem EndsWithEof.lt_of_peek {k : Nat} (ends : b.EndsWithEof) (other : (b.peek k).kind ≠ .eof) :
    b.cursor + k < b.eof := by
  obtain ⟨token, last, kind⟩ := ends
  refine Nat.lt_of_not_le fun past => other ?_
  rw [peek, Nat.min_eq_right past, last]
  exact kind

theorem EndsWithEof.hasNext (ends : b.EndsWithEof) (h : b.current.kind ≠ .eof) : b.hasNext = true :=
  hasNext_iff.mpr (ends.lt_of_peek h)

theorem EndsWithEof.hasNext_of_isAt (ends : b.EndsWithEof) {kind : TokenKind} (here : b.isAt kind = true)
    (ne : kind ≠ .eof) : b.hasNext = true :=
  ends.hasNext (by rw [of_decide_eq_true here]; exact ne)

theorem EndsWithEof.hasNext_of_keyword (ends : b.EndsWithEof) {name : String}
    (here : b.isAtKeyword name = true) : b.hasNext = true := by
  have kind := of_decide_eq_true (Bool.and_eq_true_iff.mp here).1
  exact ends.hasNext (by rw [kind]; decide)

end Buffer

/-! ### Steadiness -/

namespace Parser

variable {α β σ : Type} {p q : Parser α} {f : α → Parser β}

/-- Whatever buffer the parser leaves is behind the one it began with. -/
class Steady (p : Parser α) : Prop where
  leads : ∀ {b b' : Buffer}, (p.run b).buffer? = some b' → b.Leads b'

theorem Ensures.leads_either {Q : α → Buffer → Prop} {E : Buffer → Prop} {b : Buffer} [Steady p]
    (h : p.Ensures b Q E) : p.Ensures b (fun a b' => b.Leads b' ∧ Q a b') fun b' => b.Leads b' ∧ E b' := by
  have leads {b' : Buffer} (left : (p.run b).buffer? = some b') : b.Leads b' := Steady.leads left
  rw [Ensures] at h ⊢
  cases hp : p.run b with
  | ok a b₁ =>
    rw [hp] at h leads
    exact ⟨leads rfl, h⟩
  | error cause b₁ =>
    rw [hp] at h leads
    exact ⟨leads rfl, h⟩
  | fault why =>
    rw [hp] at h
    exact h

theorem Ensures.leads {Q : α → Buffer → Prop} {E : Buffer → Prop} {b : Buffer} [Steady p] (h : p.Ensures b Q E) :
    p.Ensures b (fun a b' => b.Leads b' ∧ Q a b') E :=
  h.leads_either.mono (fun _ _ _ hQ => hQ) fun _ hE => hE.2

namespace Steady

theorem ok [Steady p] {b b' : Buffer} {a : α} (h : p.run b = .ok a b') : b.Leads b' :=
  leads (p := p) (by rw [h]; rfl)

theorem error [Steady p] {b b' : Buffer} {e : SyntaxError} (h : p.run b = .error e b') : b.Leads b' :=
  leads (p := p) (by rw [h]; rfl)

instance pure (a : α) : Steady (Pure.pure a : Parser α) := ⟨fun h => Option.some.inj h ▸ .refl _⟩

instance ask (g : Buffer → α) : Steady (Parser.ask g) := ⟨fun h => Option.some.inj h ▸ .refl _⟩

instance fail (problem : Problem) : Steady (Parser.fail problem : Parser α) :=
  ⟨fun h => Option.some.inj h ▸ .refl _⟩

instance abort (why : Fault) : Steady (Parser.abort why : Parser α) := ⟨fun h => nomatch h⟩

instance bind [Steady p] [∀ a, Steady (f a)] : Steady (p >>= f) where
  leads h := by
    rcases buffer?_bind.mp h with ⟨e, h⟩ | ⟨a, b₁, h, h'⟩
    · exact error h
    · exact (ok h).trans (leads h')

theorem seq [Steady p] (h : ∀ a, Steady (f a)) : Steady (p >>= f) := inferInstance

instance ite {c : Prop} [Decidable c] [Steady p] [Steady q] : Steady (if c then p else q) := by
  by_cases hc : c
  · rw [if_pos hc]
    infer_instance
  · rw [if_neg hc]
    infer_instance

theorem onTree {g : SyntaxTree → Except Fault (α × SyntaxTree)}
    (keep : ∀ {t a t'}, g t = .ok (a, t') → t.Extends t' ∧ t'.marks = t.marks) : Steady (Parser.onTree g) where
  leads {b b'} h := by
    rw [run, Parser.onTree] at h
    cases hg : g b.tree with
    | error why =>
      rw [hg] at h
      cases h
    | ok r =>
      rw [hg] at h
      cases h
      exact .of_extends (keep hg).1 (keep hg).2 rfl (Nat.le_refl _) rfl

instance attempt [Steady p] : Steady (Parser.attempt p) where
  leads {b b'} h := by
    rw [run, Parser.attempt] at h
    refine leads (p := p) ?_
    rw [run]
    cases hp : p b with
    | ok a b₁ =>
      rw [hp] at h
      exact h
    | error e b₁ =>
      rw [hp] at h
      exact h
    | fault why =>
      rw [hp] at h
      cases h

section
variable {more : σ → Buffer → Bool} {step : σ → Parser σ}

theorem leads_foldBelow [∀ s, Steady (step s)] {left : Nat} {s : σ} {b b' : Buffer}
    (h : (foldBelow more step left s b).buffer? = some b') : b.Leads b' := by
  induction left using Nat.strongRecOn generalizing s b with
  | ind left ih =>
    rw [foldBelow] at h
    by_cases hm : more s b = true
    · rw [if_pos hm] at h
      cases hs : step s b with
      | ok s' after =>
        simp only [hs] at h
        by_cases hlt : after.remaining < left
        · rw [if_pos hlt] at h
          exact (ok (p := step s) hs).trans (ih _ hlt h)
        · rw [if_neg hlt] at h
          cases h
      | error e after =>
        simp only [hs] at h
        cases h
        exact error (p := step s) hs
      | fault why =>
        simp only [hs] at h
        cases h
    · rw [if_neg hm] at h
      cases h
      exact .refl _

instance foldWhile [∀ s, Steady (step s)] (s : σ) : Steady (Parser.foldWhile more step s) :=
  ⟨leads_foldBelow⟩

end

instance repeatWhile (more : Buffer → Bool) (step : Parser Unit) [Steady step] :
    Steady (Parser.repeatWhile more step) :=
  inferInstanceAs (Steady (Parser.foldWhile (fun _ b => more b) (fun _ => step) ()))

/-! ### Tokens -/

instance hasNext : Steady Parser.hasNext := inferInstanceAs (Steady (Parser.ask _))

instance current : Steady Parser.current := inferInstanceAs (Steady (Parser.ask _))

instance isAt (kind : TokenKind) : Steady (Parser.isAt kind) := inferInstanceAs (Steady (Parser.ask _))

instance isAtKeyword (name : String) : Steady (Parser.isAtKeyword name) :=
  inferInstanceAs (Steady (Parser.ask _))

instance errorCount : Steady Parser.errorCount := inferInstanceAs (Steady (Parser.ask _))

instance step : Steady Parser.step := ⟨fun h => Option.some.inj h ▸ .of_extends (.refl _) rfl rfl (Nat.le_succ _) rfl⟩

instance appendLeaf (parent : NodeId) (token : TokenId) :
    Steady (Parser.onTree fun t => (t.appendLeaf parent token).map ((), ·)) :=
  onTree fun {t a t'} h => by
    cases ha : t.appendLeaf parent token with
    | error why =>
      rw [ha] at h
      cases h
    | ok t₁ =>
      rw [ha] at h
      cases h
      exact ⟨.appendLeaf ha, ((SyntaxTree.Extends.append ha).marks_of_size (SyntaxTree.size_append ha)).trans
        (SyntaxTree.marks_addLeaf token)⟩

instance shift : Steady Parser.shift := by
  unfold Parser.shift
  infer_instance

instance next : Steady Parser.next := by
  unfold Parser.next
  infer_instance

instance shiftWhile (p : Token → Bool) : Steady (Parser.shiftWhile p) := by
  unfold Parser.shiftWhile
  infer_instance

instance shiftKinds (p : TokenKind → Bool) : Steady (Parser.shiftKinds p) := by
  unfold Parser.shiftKinds
  infer_instance

instance expectAny (kinds : TokenSet) : Steady (Parser.expectAny kinds) := by
  unfold Parser.expectAny
  have (cause : Option LexError) (token : Token) : Steady (match cause with
      | some cause => Parser.fail (.lexical cause)
      | none => Parser.fail (.expected kinds token) : Parser TokenKind) := by cases cause <;> infer_instance
  infer_instance

instance expect (kind : TokenKind) : Steady (Parser.expect kind) := by
  unfold Parser.expect
  infer_instance

instance consume (kind : TokenKind) : Steady (Parser.consume kind) := by
  unfold Parser.consume
  infer_instance

instance consumeAny : Steady Parser.consumeAny := by
  unfold Parser.consumeAny
  infer_instance

/-! ### Nodes -/

instance push (node : NodeId) : Steady (Parser.push node) :=
  ⟨fun h => Option.some.inj h ▸ .of_extends (.refl _) rfl rfl (Nat.le_refl _) rfl⟩

instance pop : Steady Parser.pop := ⟨fun h => Option.some.inj h ▸ .of_extends (.refl _) rfl rfl (Nat.le_refl _) rfl⟩

instance append (parent node : NodeId) : Steady (Parser.onTree fun t => (t.append parent node).map ((), ·)) :=
  onTree fun {t a t'} h => by
    cases ha : t.append parent node with
    | error why =>
      rw [ha] at h
      cases h
    | ok t₁ =>
      rw [ha] at h
      cases h
      exact ⟨.append ha, (SyntaxTree.Extends.append ha).marks_of_size (SyntaxTree.size_append ha)⟩

instance remove (parent node : NodeId) : Steady (Parser.onTree fun t => t.remove parent node) :=
  onTree fun h => ⟨.remove h, (SyntaxTree.Extends.remove h).marks_of_size (SyntaxTree.size_remove h)⟩

instance addNode (kind : TreeKind) : Steady (Parser.onTree fun t => .ok (t.addNode kind)) :=
  onTree fun h => by cases h; exact ⟨.add _, SyntaxTree.marks_addNode kind⟩

instance reading (r : Reading α) [SyntaxTree.Still r] : Steady (Parser.onTree r.run) :=
  onTree fun h =>
    have same := SyntaxTree.Still.keeps (r := r) h
    ⟨same.to_extends, same.to_extends.marks_of_size same.size_eq⟩

instance attach (node : NodeId) : Steady (Parser.attach node) := by
  unfold Parser.attach
  infer_instance

instance detach (node : NodeId) : Steady (Parser.detach node) := by
  unfold Parser.detach
  have (parent : Option NodeId) : Steady (match parent with
      | some parent => do let _ ← Parser.onTree fun t => t.remove parent node
      | none => Pure.pure ()) := by cases parent <;> infer_instance
  infer_instance

instance openNode (kind : TreeKind) : Steady (Parser.openNode kind) := by
  unfold Parser.openNode
  infer_instance

instance closeNode (node : NodeId) : Steady (Parser.closeNode node) := by
  unfold Parser.closeNode
  infer_instance

/-! ### Errors -/

instance recover (recovery : Recovery) : Steady (Parser.recover recovery) := by
  cases recovery <;> unfold Parser.recover <;> infer_instance

/-- Neither the count nor the node alone is steady. -/
instance addError (mark : Mark) : Steady (Parser.addError mark) where
  leads {b b'} h := by
    unfold Parser.addError at h
    obtain ⟨e, h⟩ | ⟨_, b₁, counted, h⟩ := buffer?_bind.mp h
    · cases h
    obtain ⟨e, h⟩ | ⟨node, b₂, made, h⟩ := buffer?_bind.mp h
    · cases h
    cases counted
    cases made
    have rest : Buffer.Leads _ b' := leads h
    have counted : b'.tree.marks + (b.errors + 1) = (b.tree.addError mark).2.marks + b'.errors := rest.counted
    rw [SyntaxTree.marks_addError] at counted
    exact ⟨.trans (.add _) rest.tree, rest.maxDepth, rest.cursor, Nat.le_trans (Nat.le_succ _) rest.errors, by omega⟩

instance report (e : SyntaxError) (recovery : Recovery) : Steady (Parser.report e recovery) := by
  unfold Parser.report
  infer_instance

instance reportMissing (problem : Problem) : Steady (Parser.reportMissing problem) := by
  unfold Parser.reportMissing
  infer_instance

instance encloseInError (node : NodeId) (problem : Problem) : Steady (Parser.encloseInError node problem) := by
  unfold Parser.encloseInError
  infer_instance

/-! ### Scopes -/

instance limited [Steady p] : Steady (Parser.limited p) := by
  unfold Parser.limited
  infer_instance

instance recovering [Steady p] (recovery : Recovery) : Steady (Parser.recovering recovery p) := by
  unfold Parser.recovering
  have (r : Except SyntaxError α) : Steady (match r with
      | .ok a => return some a
      | .error e => do
        Parser.report e recovery
        return none) := by cases r <;> infer_instance
  infer_instance

instance scope [Steady p] (kind : TreeKind) (recovery : Recovery) :
    Steady (Parser.scope kind p recovery) := by
  unfold Parser.scope
  infer_instance

instance within (kind : TreeKind) (body : Parser Unit) [Steady body] : Steady (Parser.within kind body) := by
  unfold Parser.within
  infer_instance

instance adoptDocs (docs : Option NodeId) : Steady (Parser.adoptDocs docs) := by
  unfold Parser.adoptDocs
  cases docs with
  | none => infer_instance
  | some node =>
    have (n : Nat) : Steady (match n with
        | 0 => do
          Parser.detach node
          Parser.attach node
        | n => Parser.abort (.docsNotFirst n)) := by
      split <;> infer_instance
    infer_instance

end Steady

/-- In a clean run all rounds are clean. -/
theorem foldWhile_clean {σ : Type} {more : σ → Buffer → Bool} {round : σ → Parser σ} [∀ s, Steady (round s)]
    {I : σ → Buffer → Prop} {s s' : σ} {b b' : Buffer}
    (keep : ∀ s b₁ s' b₂, b.Leads b₁ → I s b₁ → more s b₁ = true → (round s).run b₁ = .ok s' b₂ →
      b₂.errors = b₁.errors → I s' b₂)
    (start : I s b) (run : (foldWhile more round s).run b = .ok s' b') (clean : b'.errors = b.errors) :
    I s' b' ∧ more s' b' = false := by
  -- As long as no problem is new, the invariant holds.
  let J : σ → Buffer → Prop := fun s b₁ => b.Leads b₁ ∧ (b₁.errors = b.errors → I s b₁)
  have rounds : ∀ s b₁ s' b₂, J s b₁ → more s b₁ = true → (round s).run b₁ = .ok s' b₂ → J s' b₂ := by
    intro s b₁ s' b₂ ⟨leads, held⟩ go run₂
    have leads₂ := Steady.ok run₂
    refine ⟨leads.trans leads₂, fun clean => ?_⟩
    obtain ⟨clean₁, clean₂⟩ := leads.clean leads₂ clean
    exact keep s b₁ s' b₂ leads (held clean₁) go run₂ clean₂
  have first : J s b := ⟨.refl b, fun _ => start⟩
  obtain ⟨⟨-, held⟩, ended⟩ := foldWhile_ok rounds first run
  exact ⟨held clean, ended⟩

end Parser

end SmithyIdl
