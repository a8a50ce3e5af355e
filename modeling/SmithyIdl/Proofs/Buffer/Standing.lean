import SmithyIdl.Proofs.Buffer.Program
import SmithyIdl.Proofs.Buffer.Scopes
import SmithyIdl.Proofs.Tree.Standing

/-! # Any use of a buffer

Nodes can be taken out of the tree and put in elsewhere while it is built, also open ones. So a view of the open nodes
is lost. What is left is that all nodes stand as a forest and that the cursor is at a token. Every step keeps this, and
every parser that is put together from steps. -/

namespace SmithyIdl

/-- The nodes of the tree stand as a forest, and the cursor is not behind the end token. -/
structure Buffer.Standing (b : Buffer) : Prop where
  tree : ∃ F, b.tree.Stands F
  cursor : b.cursor ≤ b.eof

namespace Parser

variable {α β σ : Type}

/-- The parser leaves what stands standing. -/
class Upholds (p : Parser α) : Prop where
  standing : ∀ {b b' : Buffer}, (p.run b).buffer? = some b' → b.Standing → b'.Standing

namespace Upholds

variable {p q : Parser α} {f : α → Parser β} {b b' : Buffer}

theorem ok [Upholds p] {a : α} (h : p.run b = .ok a b') (standing : b.Standing) : b'.Standing :=
  Upholds.standing (p := p) (by rw [h]; rfl) standing

theorem error [Upholds p] {e : SyntaxError} (h : p.run b = .error e b') (standing : b.Standing) : b'.Standing :=
  Upholds.standing (p := p) (by rw [h]; rfl) standing

theorem of_ok [Unfailing p] (h : ∀ {b b' a}, p.run b = .ok a b' → b.Standing → b'.Standing) : Upholds p where
  standing {b b'} left standing := by
    cases run : p.run b with
    | ok a b₁ =>
      rw [run] at left
      cases left
      exact h run standing
    | error e b₁ => exact absurd run Unfailing.not_error
    | fault why =>
      rw [run] at left
      cases left

instance looks [Looks p] : Upholds p := ⟨fun left standing => Looks.same left ▸ standing⟩

instance raise (e : SyntaxError) : Upholds (Parser.raise e : Parser α) := ⟨fun left => Option.some.inj left ▸ id⟩

instance abort (why : Fault) : Upholds (Parser.abort why : Parser α) := ⟨nofun⟩

instance bind [Upholds p] [∀ a, Upholds (f a)] : Upholds (p >>= f) where
  standing left standing := by
    rcases buffer?_bind.mp left with ⟨e, run⟩ | ⟨a, b₁, run, left⟩
    · exact error run standing
    · exact Upholds.standing left (ok run standing)

instance ite {c : Prop} [Decidable c] [Upholds p] [Upholds q] : Upholds (if c then p else q) := by
  by_cases h : c
  · rw [if_pos h]
    infer_instance
  · rw [if_neg h]
    infer_instance

instance attempt [Upholds p] : Upholds (Parser.attempt p) where
  standing {b b'} left := by
    refine Upholds.standing (p := p) ?_
    rw [run_attempt] at left
    cases run : p.run b <;> rw [run] at left <;> exact left

instance foldWhile {more : σ → Buffer → Bool} {round : σ → Parser σ} [∀ s, Upholds (round s)] (s : σ) :
    Upholds (Parser.foldWhile more round s) where
  standing {b b'} left standing := by
    change (foldBelow more round b.remaining s b).buffer? = some b' at left
    generalize b.remaining = n at left
    induction n using Nat.strongRecOn generalizing s b with
    | ind n ih =>
      rw [foldBelow] at left
      by_cases go : more s b = true
      · rw [if_pos go] at left
        cases taken : round s b with
        | ok s' after =>
          simp only [taken] at left
          by_cases fewer : after.remaining < n
          · rw [if_pos fewer] at left
            exact ih _ fewer s' (ok (p := round s) taken standing) left
          · rw [if_neg fewer] at left
            cases left
        | error e after =>
          simp only [taken] at left
          cases left
          exact error (p := round s) taken standing
        | fault why =>
          simp only [taken] at left
          cases left
      · rw [if_neg go] at left
        cases left
        exact standing

/-! ### Edits -/

theorem onTree {g : SyntaxTree → Except Fault (α × SyntaxTree)}
    (keep : ∀ {t a t' F}, g t = .ok (a, t') → t.Stands F → t'.tokens = t.tokens ∧ ∃ F', t'.Stands F') :
    Upholds (Parser.onTree g) :=
  .of_ok fun {b b' _} h ⟨⟨F, stands⟩, cursor⟩ => by
    obtain ⟨t, edit, rfl⟩ := onTree_ok h
    obtain ⟨tokens, tree⟩ := keep edit stands
    have eof : { b with tree := t }.eof = b.eof := Buffer.eof_of_tokens tokens
    exact ⟨tree, eof ▸ cursor⟩

instance append (parent node : NodeId) : Upholds (Parser.onTree fun t => (t.append parent node).map ((), ·)) :=
  onTree fun {t _ t' F} edit stands => by
    cases run : t.append parent node with
    | error why =>
      rw [run] at edit
      cases edit
    | ok t₁ =>
      rw [run] at edit
      cases edit
      exact ⟨(SyntaxTree.Extends.append run).tokens, stands.append run⟩

instance remove (parent node : NodeId) : Upholds (Parser.onTree fun t => t.remove parent node) :=
  onTree fun edit stands => ⟨(SyntaxTree.Extends.remove edit).tokens, stands.remove edit⟩

instance addNode (kind : TreeKind) : Upholds (Parser.onTree fun t => .ok (t.addNode kind)) :=
  onTree fun edit stands => by
    cases edit
    exact ⟨rfl, _, stands.addBranch _⟩

instance addErrorNode (mark : Mark) : Upholds (Parser.onTree fun t => .ok (t.addError mark)) :=
  onTree fun edit stands => by
    cases edit
    exact ⟨rfl, _, stands.addBranch _⟩

instance reading (r : Reading α) [SyntaxTree.Still r] : Upholds (Parser.onTree r.run) :=
  onTree fun read stands =>
    have fills := SyntaxTree.Still.fills (r := r) read
    ⟨fills.alike.tokens, _, stands.filled fills⟩

/-! ### Steps -/

instance push (node : NodeId) : Upholds (Parser.push node) where
  standing left standing := Option.some.inj left ▸ ⟨standing.tree, standing.cursor⟩

instance pop : Upholds Parser.pop where
  standing left standing := Option.some.inj left ▸ ⟨standing.tree, standing.cursor⟩

instance countError : Upholds Parser.countError where
  standing left standing := Option.some.inj left ▸ ⟨standing.tree, standing.cursor⟩

instance shift : Upholds Parser.shift :=
  .of_ok fun {b b' _} h ⟨⟨F, stands⟩, _⟩ => by
    have eof := (Steady.ok h).eof
    obtain ⟨next, t, run, rfl⟩ := shift_ok h
    exact ⟨(stands.addLeaf b.cursor).append run, eof ▸ Buffer.hasNext_iff.mp next⟩

instance next : Upholds Parser.next := by
  have : Looks Parser.hasNext := .ask _
  have : Looks Parser.current := .ask _
  unfold Parser.next
  infer_instance

instance shiftWhile (kinds : Token → Bool) : Upholds (Parser.shiftWhile kinds) := by
  unfold Parser.shiftWhile Parser.repeatWhile
  infer_instance

instance attach (node : NodeId) : Upholds (Parser.attach node) := by
  unfold Parser.attach
  infer_instance

instance detach (node : NodeId) : Upholds (Parser.detach node) := by
  have behind : ∀ parent : Option NodeId, Upholds (match parent with
      | some parent => do let _ ← Parser.onTree fun t => t.remove parent node
      | none => return) := fun parent => by cases parent <;> infer_instance
  unfold Parser.detach
  infer_instance

instance adoptDocs (docs : Option NodeId) : Upholds (Parser.adoptDocs docs) := by
  unfold Parser.adoptDocs
  cases docs with
  | none => infer_instance
  | some node =>
    have behind : ∀ n : Nat, Upholds (match n with
        | 0 => do
          Parser.detach node
          Parser.attach node
        | n => Parser.abort (.docsNotFirst n)) := fun n => by split <;> infer_instance
    infer_instance

instance openNode (kind : TreeKind) : Upholds (Parser.openNode kind) := by
  unfold Parser.openNode
  infer_instance

instance closeNode (node : NodeId) : Upholds (Parser.closeNode node) := by
  unfold Parser.closeNode
  infer_instance

/-! ### Errors -/

instance addError (mark : Mark) : Upholds (Parser.addError mark) := by
  unfold Parser.addError
  infer_instance

instance recover (recovery : Recovery) : Upholds (Parser.recover recovery) := by
  cases recovery <;> (unfold Parser.recover; infer_instance)

instance report (e : SyntaxError) (recovery : Recovery) : Upholds (Parser.report e recovery) := by
  have : Looks Parser.hasNext := .ask _
  unfold Parser.report
  infer_instance

instance reportMissing (problem : Problem) : Upholds (Parser.reportMissing problem) := by
  unfold Parser.reportMissing
  infer_instance

instance encloseInError (node : NodeId) (problem : Problem) : Upholds (Parser.encloseInError node problem) := by
  unfold Parser.encloseInError
  infer_instance

/-! ### Scopes -/

instance limited [Upholds p] : Upholds (Parser.limited p) := by
  unfold Parser.limited
  infer_instance

instance recovering [Upholds p] (recovery : Recovery) : Upholds (Parser.recovering recovery p) := by
  have behind : ∀ r : Except SyntaxError α, Upholds (match r with
      | .ok a => return some a
      | .error e => do
        Parser.report e recovery
        return none) := fun r => by cases r <;> infer_instance
  unfold Parser.recovering
  infer_instance

instance scope [Upholds p] (kind : TreeKind) (recovery : Recovery) : Upholds (Parser.scope kind p recovery) := by
  unfold Parser.scope
  infer_instance

end Upholds

end Parser

end SmithyIdl
