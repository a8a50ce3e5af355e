import SmithyIdl.Proofs.Buffer.Runs
import SmithyIdl.Proofs.Tree.Guard

/-! # Parsers that guard the tree

A parser guards the tree if it leaves no token that is an error outside of an error node and no error node without a
problem, whether it succeeds or fails. A token is taken unseen only by an error node; everywhere else its kind was
looked at before. -/

namespace SmithyIdl

theorem Buffer.tokenKind?_of_hasNext {b : Buffer} (ends : b.EndsWithEof) (next : b.hasNext = true) :
    b.tree.tokenKind? b.cursor = some b.current.kind := by
  obtain ⟨last, found, -⟩ := ends
  have before := Buffer.hasNext_iff.mp next
  have bound : b.cursor < b.tree.tokens.size := Nat.lt_trans before (Array.getElem?_eq_some_iff.mp found).1
  rw [SyntaxTree.tokenKind?, Buffer.current, Buffer.peek, Nat.add_zero, Nat.min_eq_left (Nat.le_of_lt before),
    Array.getElem?_eq_getElem bound]
  rfl

/-! ### Guards -/

namespace Parser

variable {α β σ : Type} {p q : Parser α} {f : α → Parser β} {b : Buffer}

/-- From `b`, the parser leaves a guarded tree guarded. -/
def Guards (p : Parser α) (b : Buffer) : Prop :=
  ∀ ⦃b'⦄, (p.run b).buffer? = some b' → b.EndsWithEof → b.tree.Guarded → b'.tree.Guarded

namespace Guards

theorem of_same (h : ∀ b', (p.run b).buffer? = some b' → b'.tree = b.tree) : p.Guards b :=
  fun b' left _ guarded => h b' left ▸ guarded

theorem pure (a : α) : (Pure.pure a : Parser α).Guards b := of_same fun _ h => Option.some.inj h ▸ rfl

theorem ask (g : Buffer → α) : (Parser.ask g).Guards b := of_same fun _ h => Option.some.inj h ▸ rfl

theorem fail (problem : Problem) : (Parser.fail problem : Parser α).Guards b :=
  of_same fun _ h => Option.some.inj h ▸ rfl

theorem abort (why : Fault) : (Parser.abort why : Parser α).Guards b := fun _ h => nomatch h

theorem push (d : NodeId) : (Parser.push d).Guards b := of_same fun _ h => Option.some.inj h ▸ rfl

theorem pop : Parser.pop.Guards b := of_same fun _ h => Option.some.inj h ▸ rfl

theorem step : Parser.step.Guards b := of_same fun _ h => Option.some.inj h ▸ rfl

theorem bind_of (same : ∀ a b₁, p.run b = .ok a b₁ → b₁.tree.tokens = b.tree.tokens) (h : p.Guards b)
    (next : ∀ a b₁, p.run b = .ok a b₁ → (f a).Guards b₁) : (p >>= f).Guards b := fun b' left ends guarded => by
  rcases buffer?_bind.mp left with ⟨e, hp⟩ | ⟨a, b₁, hp, left⟩
  · exact h (by rw [hp]; rfl) ends guarded
  · exact next a b₁ hp left (ends.of_tokens (same a b₁ hp)) (h (by rw [hp]; rfl) ends guarded)

theorem bind [Steady p] (h : p.Guards b) (next : ∀ a b₁, p.run b = .ok a b₁ → (f a).Guards b₁) :
    (p >>= f).Guards b := bind_of (fun _ _ run => (Steady.ok run).tokens) h next

theorem ask_bind {g : Buffer → α} (h : (f (g b)).Guards b) : (Parser.ask g >>= f).Guards b :=
  bind (ask g) fun _ _ hask => by cases hask; exact h

theorem ite {c : Prop} [Decidable c] (pos : c → p.Guards b) (neg : ¬ c → q.Guards b) :
    (if c then p else q).Guards b := by
  by_cases hc : c
  · rw [if_pos hc]
    exact pos hc
  · rw [if_neg hc]
    exact neg hc

theorem onTree {g : SyntaxTree → Except Fault (α × SyntaxTree)}
    (keep : ∀ {a t}, g b.tree = .ok (a, t) → b.tree.Guarded → t.Guarded) : (Parser.onTree g).Guards b := by
  intro b' left _ guarded
  rw [run, Parser.onTree] at left
  cases hg : g b.tree with
  | error why =>
    rw [hg] at left
    cases left
  | ok r =>
    rw [hg] at left
    cases left
    exact keep hg guarded

theorem attempt (h : p.Guards b) : (Parser.attempt p).Guards b := by
  intro b' left ends guarded
  rw [run, Parser.attempt] at left
  refine h ?_ ends guarded
  rw [run]
  cases hp : p b <;> rw [hp] at left <;> exact left

/-- Every round guards the tree, wherever what the rounds keep holds. -/
theorem foldWhile {more : σ → Buffer → Bool} {round : σ → Parser σ} [∀ s, Steady (round s)]
    {I : σ → Buffer → Prop} (keep : ∀ s b s' b', I s b → more s b = true → (round s).run b = .ok s' b' → I s' b')
    (guards : ∀ s b, I s b → more s b = true → (round s).Guards b) {s : σ} (start : I s b) :
    (Parser.foldWhile more round s).Guards b := by
  intro b' left ends guarded
  rw [run, Parser.foldWhile] at left
  -- The tokens that are left bound the rounds.
  generalize b.remaining = n at left
  induction n using Nat.strongRecOn generalizing s b with
  | ind n ih =>
    rw [foldBelow] at left
    by_cases go : more s b = true
    · rw [if_pos go] at left
      cases hs : round s b with
      | ok s₁ b₁ =>
        simp only [hs] at left
        have leads : b.Leads b₁ := Steady.ok (p := round s) hs
        have guarded₁ : b₁.tree.Guarded := guards s b start go (by rw [run, hs]; rfl) ends guarded
        by_cases fewer : b₁.remaining < n
        · rw [if_pos fewer] at left
          exact ih _ fewer (keep s b s₁ b₁ start go hs) (leads.endsWithEof ends) guarded₁ left
        · rw [if_neg fewer] at left
          cases left
      | error e b₁ =>
        simp only [hs] at left
        cases left
        exact guards s b start go (by rw [run, hs]; rfl) ends guarded
      | fault why =>
        simp only [hs] at left
        cases left
    · rw [if_neg go] at left
      cases left
      exact guarded

/-! ### Tokens -/

/-- A token is taken where it may stand. -/
theorem shift_of_mayHold (holds : b.tree.MayHold b.innermost b.cursor) : Parser.shift.Guards b := by
  unfold Parser.shift
  refine ask_bind (ite (fun _ => ask_bind (ask_bind (bind (onTree fun run guarded => ?_) fun _ _ _ => step)))
    fun _ => abort _)
  cases hrun : b.tree.appendLeaf b.innermost b.cursor with
  | error why =>
    rw [hrun] at run
    cases run
  | ok t =>
    rw [hrun] at run
    cases run
    exact guarded.appendLeaf holds hrun

/-- What is no error may stand anywhere. -/
theorem shift (here : b.current.kind ≠ .error) : Parser.shift.Guards b := by
  intro b' left ends
  by_cases next : b.hasNext = true
  · refine shift_of_mayHold (fun error => ?_) left ends
    rw [Buffer.tokenKind?_of_hasNext ends next] at error
    exact absurd (Option.some.inj error) here
  · unfold Parser.shift at left
    rw [run_bind, run_hasNext, Outcome.ok_andThen, run_ite, if_neg next] at left
    cases left

/-- An error node takes whatever comes. -/
theorem shiftWhile_of_error {mark : Mark} (kinds : Token → Bool)
    (inside : b.tree.tag? b.innermost = some (.inr (.error mark))) : (Parser.shiftWhile kinds).Guards b := by
  unfold Parser.shiftWhile
  refine foldWhile (I := fun _ b => b.tree.tag? b.innermost = some (.inr (.error mark))) (fun _ b₁ _ b₂ h₁ _ run => ?_)
    (fun _ b₁ h₁ _ => shift_of_mayHold fun _ => ⟨mark, h₁⟩) inside
  obtain ⟨-, t, edit, rfl⟩ := shift_ok run
  exact (SyntaxTree.Extends.appendLeaf edit).tag?_eq h₁

/-- What only looks guards the tree. -/
theorem look_bind [Steady p] [Looks p] (h : ∀ a, p.run b = .ok a b → (f a).Guards b) : (p >>= f).Guards b := by
  refine bind (of_same fun b' left => congrArg Buffer.tree (Looks.same left)) fun a b₁ run => ?_
  obtain rfl := Looks.ok run
  exact h a run

/-! ### Nodes -/

theorem attach (d : NodeId) : (Parser.attach d).Guards b := by
  unfold Parser.attach
  refine ask_bind (onTree fun run guarded => ?_)
  cases hrun : b.tree.append b.innermost d with
  | error why =>
    rw [hrun] at run
    cases run
  | ok t =>
    rw [hrun] at run
    cases run
    exact guarded.append hrun

/-- An inner node is taken out. -/
theorem detach {d : NodeId} {label : Label} (inner : b.tree.tag? d = some (.inr label)) : (Parser.detach d).Guards b := by
  unfold Parser.detach
  refine bind (onTree fun read guarded => guarded.alike (SyntaxTree.Still.keeps (r := Reading.parent? d) read))
    fun parent b₁ run => ?_
  cases parent with
  | none => exact pure _
  | some parent =>
    have inner₁ := (Steady.ok run).tree.tag?_eq inner
    exact bind (onTree fun removed guarded => guarded.remove inner₁ removed) fun _ _ _ => pure _

theorem openNode {kind : TreeKind} (sound : kind ≠ .error) : (Parser.openNode kind).Guards b := by
  unfold Parser.openNode
  refine bind (onTree fun made guarded => ?_) fun node _ _ => bind (attach node) fun _ _ _ =>
    bind (push node) fun _ _ _ => pure _
  cases made
  exact guarded.addBranch fun error => sound (Label.plain.inj error)

theorem closeNode (d : NodeId) : (Parser.closeNode d).Guards b := by
  unfold Parser.closeNode
  exact ask_bind (ite (fun _ => pop) fun _ => abort _)

/-! ### Errors -/

theorem addError (mark : Mark) : (Parser.addError mark).Guards b := by
  have counted : (do
      let node ← Parser.onTree fun t => .ok (t.addError mark)
      Parser.attach node
      return node).Guards { b with errors := b.errors + 1 } := by
    refine bind_of (fun _ _ made => ?_) (onTree fun made guarded => ?_) fun node _ _ => bind (attach node)
      fun _ _ _ => pure _
    · cases made
      rfl
    · cases made
      exact guarded.addBranch nofun
  exact fun _ left => counted left

theorem report (e : SyntaxError) (recovery : Recovery) : (Parser.report e recovery).Guards b := by
  unfold Parser.report
  refine bind (addError _) fun node b₁ added => ask_bind (ite (fun _ => ?_) fun _ => pure _)
  refine bind (push node) fun _ b₂ pushed => ?_
  have inside : b₂.tree.tag? b₂.innermost = some (.inr (.error (markOf e))) := by
    cases pushed
    exact (addError_ok added).1
  refine bind (shift_of_mayHold fun _ => ⟨_, inside⟩) fun _ b₃ taken => ?_
  have inside₃ : b₃.tree.tag? b₃.innermost = some (.inr (.error (markOf e))) := by
    obtain ⟨-, t, edit, rfl⟩ := shift_ok taken
    exact (SyntaxTree.Extends.appendLeaf edit).tag?_eq inside
  refine bind ?_ fun _ _ _ => pop
  cases recovery with
  | statement => exact shiftWhile_of_error (!startsStatement ·) inside₃
  | endOfText => exact shiftWhile_of_error (fun _ => true) inside₃
  | none => exact pure _

theorem reportMissing (problem : Problem) : (Parser.reportMissing problem).Guards b := by
  unfold Parser.reportMissing
  exact ask_bind (bind (addError _) fun _ _ _ => pure _)

theorem encloseInError (d : NodeId) (problem : Problem) : (Parser.encloseInError d problem).Guards b := by
  unfold Parser.encloseInError
  refine bind (onTree fun read guarded => guarded.alike (SyntaxTree.Still.keeps (r := Reading.start d) read))
    fun _ _ _ => ?_
  refine bind (onTree fun read guarded => guarded.alike (SyntaxTree.Still.keeps (r := Reading.range d) read))
    fun _ _ _ => ?_
  refine bind (addError _) fun error b₁ _ => onTree fun run guarded => ?_
  cases hrun : b₁.tree.append error d with
  | error why =>
    rw [hrun] at run
    cases run
  | ok t =>
    rw [hrun] at run
    cases run
    exact guarded.append hrun

/-! ### Scopes -/

theorem recovering [Steady p] (recovery : Recovery) (h : p.Guards b) : (Parser.recovering recovery p).Guards b := by
  unfold Parser.recovering
  refine bind (attempt h) fun r _ _ => ?_
  cases r with
  | ok a => exact pure _
  | error e => exact bind (report e recovery) fun _ _ _ => pure _

theorem limited (h : p.Guards b) : (Parser.limited p).Guards b := by
  unfold Parser.limited
  exact ask_bind (ite (fun _ => fail _) fun _ => h)

theorem scope [Steady p] {kind : TreeKind} {recovery : Recovery}
    (sound : kind ≠ .error) (inside : ∀ b₁, b.Leads b₁ → b₁.peek = b.peek → p.Guards b₁) :
    (Parser.scope kind p recovery).Guards b := by
  unfold Parser.scope
  refine bind (openNode sound) fun node b₁ opened => ?_
  have leads := Steady.ok opened
  refine bind (recovering _ (limited (inside b₁ leads (leads.peek_of_same (openNode_ok opened).2.2.1)))) fun _ _ _ => ?_
  exact bind (closeNode node) fun _ _ _ => pure _

theorem within {kind : TreeKind} {body : Parser Unit} [Steady body]
    (sound : kind ≠ .error) (inside : ∀ b₁, b.Leads b₁ → b₁.peek = b.peek → body.Guards b₁) :
    (Parser.within kind body).Guards b := by
  unfold Parser.within
  exact bind (scope sound inside) fun _ _ _ => pure _

/-- Documentation comments are inner nodes. -/
theorem adoptDocs {docs : Option NodeId} (inner : ∀ d ∈ docs, ∃ label, b.tree.tag? d = some (.inr label)) :
    (Parser.adoptDocs docs).Guards b := by
  unfold Parser.adoptDocs
  cases docs with
  | none => exact pure _
  | some d =>
    obtain ⟨label, found⟩ := inner d rfl
    refine ask_bind ?_
    split
    · exact bind (detach found) fun _ _ _ => attach d
    · exact abort _

end Guards

end Parser

end SmithyIdl
