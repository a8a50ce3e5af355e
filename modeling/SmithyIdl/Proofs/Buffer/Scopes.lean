import SmithyIdl.Proofs.Buffer.Runs

/-! # Scopes

What a scope does to the open nodes: it closes the node that it opened, and a failure inside is caught there. So every
parser that is put together from scopes and steps leaves the nodes open that it found open. -/

namespace SmithyIdl

open SmithyIdl.Parser (Recovery Closed Steady)

namespace Parser

variable {α β : Type}

/-- Steps that do not fail, though they may meet a fault. -/
class Unfailing (p : Parser α) : Prop where
  not_error : ∀ {b b' : Buffer} {e : SyntaxError}, p.run b ≠ .error e b'

namespace Unfailing

instance pure (a : α) : Unfailing (Pure.pure a : Parser α) := ⟨nofun⟩

instance ask (f : Buffer → α) : Unfailing (Parser.ask f) := ⟨nofun⟩

instance abort (why : Fault) : Unfailing (Parser.abort why : Parser α) := ⟨nofun⟩

instance onTree (g : SyntaxTree → Except Fault (α × SyntaxTree)) : Unfailing (Parser.onTree g) where
  not_error {b b' e} h := by
    rw [run, Parser.onTree] at h
    cases hg : g b.tree <;> simp [hg] at h

instance bind {p : Parser α} {f : α → Parser β} [Unfailing p] [∀ a, Unfailing (f a)] : Unfailing (p >>= f) where
  not_error {b b' e} h := by
    rw [run_bind] at h
    cases hp : p.run b with
    | ok a b₁ =>
      rw [hp] at h
      exact not_error h
    | error e b₁ => exact not_error hp
    | fault why => simp [hp, Outcome.andThen] at h

instance ite {c : Prop} [Decidable c] {p q : Parser α} [Unfailing p] [Unfailing q] :
    Unfailing (if c then p else q) := by
  by_cases h : c
  · rw [if_pos h]
    infer_instance
  · rw [if_neg h]
    infer_instance

instance shift : Unfailing Parser.shift := by
  have : Unfailing Parser.step := ⟨nofun⟩
  unfold Parser.shift
  have : Unfailing Parser.hasNext := .ask _
  infer_instance

instance attach (node : NodeId) : Unfailing (Parser.attach node) := by
  unfold Parser.attach
  infer_instance

instance detach (node : NodeId) : Unfailing (Parser.detach node) := by
  have behind : ∀ parent : Option NodeId, Unfailing (match parent with
      | some parent => do let _ ← Parser.onTree fun t => t.remove parent node
      | none => return) := fun parent => by cases parent <;> infer_instance
  unfold Parser.detach
  infer_instance

instance push (node : NodeId) : Unfailing (Parser.push node) := ⟨nofun⟩

instance pop : Unfailing Parser.pop := ⟨nofun⟩

instance openNode (kind : TreeKind) : Unfailing (Parser.openNode kind) := by
  unfold Parser.openNode
  infer_instance

instance closeNode (node : NodeId) : Unfailing (Parser.closeNode node) := by
  unfold Parser.closeNode
  infer_instance

instance addError (mark : Mark) : Unfailing (Parser.addError mark) := by
  have : Unfailing Parser.countError := ⟨nofun⟩
  unfold Parser.addError
  infer_instance

instance reportMissing (problem : Problem) : Unfailing (Parser.reportMissing problem) := by
  unfold Parser.reportMissing
  infer_instance

instance encloseInError (node : NodeId) (problem : Problem) : Unfailing (Parser.encloseInError node problem) := by
  unfold Parser.encloseInError
  infer_instance

instance adoptDocs (docs : Option NodeId) : Unfailing (Parser.adoptDocs docs) := by
  unfold Parser.adoptDocs
  cases docs with
  | none => infer_instance
  | some node =>
    have behind : ∀ n : Nat, Unfailing (match n with
        | 0 => do
          Parser.detach node
          Parser.attach node
        | n => Parser.abort (.docsNotFirst n)) := fun n => by split <;> infer_instance
    infer_instance

section
variable {σ : Type} {more : σ → Buffer → Bool} {round : σ → Parser σ}

instance foldWhile [∀ s, Unfailing (round s)] (s : σ) : Unfailing (Parser.foldWhile more round s) where
  not_error {b b' e} h := by
    change foldBelow more round b.remaining s b = .error e b' at h
    generalize b.remaining = left at h
    induction left using Nat.strongRecOn generalizing s b with
    | ind left ih =>
      rw [foldBelow] at h
      by_cases go : more s b = true
      · rw [if_pos go] at h
        cases taken : round s b with
        | ok s' after =>
          simp only [taken] at h
          by_cases fewer : after.remaining < left
          · rw [if_pos fewer] at h
            exact ih _ fewer s' h
          · rw [if_neg fewer] at h
            cases h
        | error e' after => exact not_error (p := round s) taken
        | fault why =>
          simp only [taken] at h
          cases h
      · rw [if_neg go] at h
        cases h

end

instance recover (recovery : Recovery) : Unfailing (Parser.recover recovery) := by
  cases recovery <;> (unfold Parser.recover Parser.shiftWhile Parser.repeatWhile; infer_instance)

instance report (e : SyntaxError) (recovery : Recovery) : Unfailing (Parser.report e recovery) := by
  have : Unfailing Parser.hasNext := .ask _
  unfold Parser.report
  infer_instance

instance attempt (p : Parser α) : Unfailing (Parser.attempt p) where
  not_error {b b' e} h := by
    rw [run_attempt] at h
    cases hp : p.run b <;> simp [hp] at h

instance recovering (recovery : Recovery) (p : Parser α) : Unfailing (Parser.recovering recovery p) := by
  have behind : ∀ r : Except SyntaxError α, Unfailing (match r with
      | .ok a => return some a
      | .error e => do
        Parser.report e recovery
        return none) := fun r => by cases r <;> infer_instance
  unfold Parser.recovering
  infer_instance

instance scope (kind : TreeKind) (p : Parser α) (recovery : Recovery) : Unfailing (Parser.scope kind p recovery) := by
  unfold Parser.scope
  infer_instance

instance within (kind : TreeKind) (body : Parser Unit) : Unfailing (Parser.within kind body) := by
  unfold Parser.within
  infer_instance

end Unfailing

section
variable {p body : Parser α} {b b₁ b₂ b' : Buffer} {kind : TreeKind} {recovery : Recovery}

theorem limited_allowed (shallow : b.isTooDeep = false) : (limited p).run b = p.run b := by
  unfold limited
  rw [run_bind_of_ok (run_ask _ b), run_ite, if_neg (by simp [shallow])]

theorem run_recovering_ok {a : α} (run : p.run b = .ok a b') : (recovering recovery p).run b = .ok (some a) b' := by
  have caught : (attempt p).run b = .ok (.ok a) b' := by rw [run_attempt, run]
  exact run_bind_of_ok caught

theorem run_recovering_error {e : SyntaxError} (run : p.run b = .error e b₁)
    (reported : (report e recovery).run b₁ = .ok () b') : (recovering recovery p).run b = .ok none b' := by
  have caught : (attempt p).run b = .ok (.error e) b₁ := by rw [run_attempt, run]
  exact (run_bind_of_ok caught).trans (run_bind_of_ok reported)

theorem run_scope {s : NodeId} {v : Option α} {rest : List NodeId} (opened : (openNode kind).run b = .ok s b₁)
    (caught : (recovering recovery (limited body)).run b₁ = .ok v b₂) (same : b₂.openNodes = s :: rest) :
    (scope kind body recovery).run b = .ok ⟨s, v⟩ { b₂ with openNodes := rest } := by
  have closed : (closeNode s).run b₂ = .ok () { b₂ with openNodes := rest } := by
    unfold closeNode
    rw [run_bind_of_ok (run_ask _ b₂), run_ite, if_pos (by simp [same])]
    exact congrArg (Outcome.ok ()) (by rw [same]; rfl)
  exact (run_bind_of_ok opened).trans ((run_bind_of_ok caught).trans (run_bind_of_ok closed))

end

/-- A node is closed behind its body. -/
theorem run_within {body : Parser Unit} {b b₁ b₂ : Buffer} {kind : TreeKind} {i : NodeId} {rest : List NodeId}
    (opened : (openNode kind).run b = .ok i b₁) (shallow : b₁.isTooDeep = false)
    (inside : body.run b₁ = .ok () { b₂ with openNodes := i :: rest }) :
    (within kind body).run b = .ok () { b₂ with openNodes := rest } := by
  have caught : (recovering .statement (limited body)).run b₁ = .ok (some ()) { b₂ with openNodes := i :: rest } :=
    run_recovering_ok ((limited_allowed shallow).trans inside)
  have closed := run_scope opened caught rfl
  exact run_bind_of_ok closed

/-- Where a node is not refused, its body runs between its opening and its closing. -/
theorem within_entered {kind : TreeKind} {body : Parser Unit} [Unfailing body] {b b₁ b' : Buffer} {i : NodeId}
    (opened : (openNode kind).run b = .ok i b₁) (room : b₁.isTooDeep = false)
    (run : (within kind body).run b = .ok () b') :
    ∃ b₂, body.run b₁ = .ok () b₂ ∧ b' = { b₂ with openNodes := b₂.openNodes.tail } := by
  unfold within scope at run
  obtain ⟨_, b₃, run, done⟩ := bind_eq_ok.mp run
  cases done
  obtain ⟨j, b₁', opened', run⟩ := bind_eq_ok.mp run
  cases opened.symm.trans opened'
  obtain ⟨value, b₂, caught, run⟩ := bind_eq_ok.mp run
  obtain ⟨_, b₃, closed, done⟩ := bind_eq_ok.mp run
  cases done
  obtain ⟨_, -, inside⟩ | ⟨-, e, b₃, failed, -⟩ := recovering_ok caught
  · exact ⟨b₂, limited_ok inside, closeNode_ok closed⟩
  · unfold limited at failed
    rw [run_bind_of_ok (run_ask _ b₁), run_ite, if_neg (by rw [room]; exact Bool.false_ne_true)] at failed
    exact absurd failed Unfailing.not_error

/-- A node is refused, or its body runs between its opening and its closing. -/
theorem within_cases {kind : TreeKind} {body : Parser Unit} [Unfailing body] {b b' : Buffer}
    (run : (within kind body).run b = .ok () b') :
    (within kind (fail .tooDeep)).run b = .ok () b' ∨
      ∃ i b₁ b₂, (openNode kind).run b = .ok i b₁ ∧ body.run b₁ = .ok () b₂ ∧
        b' = { b₂ with openNodes := b₂.openNodes.tail } := by
  have whole := run
  unfold within scope at run ⊢
  obtain ⟨_, b₃, run, done⟩ := bind_eq_ok.mp run
  cases done
  obtain ⟨i, b₁, opened, run⟩ := bind_eq_ok.mp run
  obtain ⟨value, b₂, caught, run⟩ := bind_eq_ok.mp run
  obtain ⟨_, b₃, closed, done⟩ := bind_eq_ok.mp run
  cases done
  cases deep : b₁.isTooDeep with
  | true =>
    refine .inl (bind_eq_ok.mpr ⟨⟨i, value⟩, b', ?_, rfl⟩)
    refine bind_eq_ok.mpr ⟨i, b₁, opened, bind_eq_ok.mpr ⟨value, b₂, ?_, ?_⟩⟩
    · have refused : (limited (fail .tooDeep : Parser Unit)).run b₁ = (limited body).run b₁ :=
        (limited_refused deep).trans (limited_refused deep).symm
      unfold recovering at caught ⊢
      rwa [run_bind, run_attempt, refused, ← run_attempt, ← run_bind]
    · exact bind_eq_ok.mpr ⟨(), b', closed, rfl⟩
  | false =>
    obtain ⟨b₂, inside, rest⟩ := within_entered opened deep whole
    exact .inr ⟨i, b₁, b₂, opened, inside, rest⟩

/-- Behind the parser the same nodes are open as before it. -/
class KeepsOpen (p : Parser α) : Prop where
  same : ∀ {b b' : Buffer}, (p.run b).buffer? = some b' → b'.openNodes = b.openNodes

namespace KeepsOpen

variable {p : Parser α} {b b' : Buffer}

theorem ok [KeepsOpen p] {a : α} (h : p.run b = .ok a b') : b'.openNodes = b.openNodes :=
  same (p := p) (by rw [h]; rfl)

theorem error [KeepsOpen p] {e : SyntaxError} (h : p.run b = .error e b') : b'.openNodes = b.openNodes :=
  same (p := p) (by rw [h]; rfl)

theorem of_ok [Unfailing p] (h : ∀ {b b' a}, p.run b = .ok a b' → b'.openNodes = b.openNodes) : KeepsOpen p where
  same {b b'} left := by
    cases run : p.run b with
    | ok a b₁ =>
      rw [run] at left
      cases left
      exact h run
    | error e b₁ => exact absurd run Unfailing.not_error
    | fault why =>
      rw [run] at left
      cases left

instance pure (a : α) : KeepsOpen (Pure.pure a : Parser α) := ⟨fun h => Option.some.inj h ▸ rfl⟩

instance ask (f : Buffer → α) : KeepsOpen (Parser.ask f) := ⟨fun h => Option.some.inj h ▸ rfl⟩

instance fail (problem : Problem) : KeepsOpen (Parser.fail problem : Parser α) := ⟨fun h => Option.some.inj h ▸ rfl⟩

instance abort (why : Fault) : KeepsOpen (Parser.abort why : Parser α) := ⟨fun h => nomatch h⟩

instance onTree (g : SyntaxTree → Except Fault (α × SyntaxTree)) : KeepsOpen (Parser.onTree g) :=
  .of_ok fun h => by
    obtain ⟨t, -, rfl⟩ := onTree_ok h
    rfl

instance bind {f : α → Parser β} [KeepsOpen p] [∀ a, KeepsOpen (f a)] : KeepsOpen (p >>= f) where
  same h := by
    rcases buffer?_bind.mp h with ⟨e, h⟩ | ⟨a, b₁, h, h'⟩
    · exact error h
    · exact (same h').trans (ok h)

instance ite {c : Prop} [Decidable c] {q : Parser α} [KeepsOpen p] [KeepsOpen q] : KeepsOpen (if c then p else q) := by
  by_cases h : c
  · rw [if_pos h]
    infer_instance
  · rw [if_neg h]
    infer_instance

instance attempt [KeepsOpen p] : KeepsOpen (Parser.attempt p) where
  same {b b'} h := by
    refine same (p := p) ?_
    rw [run_attempt] at h
    cases hp : p.run b <;> rw [hp] at h <;> exact h

instance foldWhile {σ : Type} {more : σ → Buffer → Bool} {round : σ → Parser σ} [∀ s, KeepsOpen (round s)] (s : σ) :
    KeepsOpen (Parser.foldWhile more round s) where
  same {b b'} h := by
    change (foldBelow more round b.remaining s b).buffer? = some b' at h
    generalize b.remaining = left at h
    induction left using Nat.strongRecOn generalizing s b with
    | ind left ih =>
      rw [foldBelow] at h
      by_cases go : more s b = true
      · rw [if_pos go] at h
        cases taken : round s b with
        | ok s' after =>
          simp only [taken] at h
          by_cases fewer : after.remaining < left
          · rw [if_pos fewer] at h
            exact (ih _ fewer s' h).trans (ok (p := round s) taken)
          · rw [if_neg fewer] at h
            cases h
        | error e after =>
          simp only [taken] at h
          cases h
          exact error (p := round s) taken
        | fault why =>
          simp only [taken] at h
          cases h
      · rw [if_neg go] at h
        cases h
        rfl

/-! ### Steps -/

instance hasNext : KeepsOpen Parser.hasNext := inferInstanceAs (KeepsOpen (Parser.ask _))

instance shift : KeepsOpen Parser.shift :=
  .of_ok fun h => by
    obtain ⟨-, t, -, rfl⟩ := shift_ok h
    rfl

instance attach (node : NodeId) : KeepsOpen (Parser.attach node) := by
  unfold Parser.attach
  infer_instance

instance detach (node : NodeId) : KeepsOpen (Parser.detach node) := by
  have behind : ∀ parent : Option NodeId, KeepsOpen (match parent with
      | some parent => do let _ ← Parser.onTree fun t => t.remove parent node
      | none => return) := fun parent => by cases parent <;> infer_instance
  unfold Parser.detach
  infer_instance

instance adoptDocs (docs : Option NodeId) : KeepsOpen (Parser.adoptDocs docs) := by
  unfold Parser.adoptDocs
  cases docs with
  | none => infer_instance
  | some node =>
    have behind : ∀ n : Nat, KeepsOpen (match n with
        | 0 => do
          Parser.detach node
          Parser.attach node
        | n => Parser.abort (.docsNotFirst n)) := fun n => by split <;> infer_instance
    infer_instance

instance addError (mark : Mark) : KeepsOpen (Parser.addError mark) := .of_ok fun h => (addError_ok h).2.1

instance encloseInError (node : NodeId) (problem : Problem) : KeepsOpen (Parser.encloseInError node problem) := by
  unfold Parser.encloseInError
  infer_instance

instance reportMissing (problem : Problem) : KeepsOpen (Parser.reportMissing problem) := by
  unfold Parser.reportMissing
  infer_instance

instance shiftWhile (kinds : Token → Bool) : KeepsOpen (Parser.shiftWhile kinds) := by
  unfold Parser.shiftWhile Parser.repeatWhile
  infer_instance

instance recover (recovery : Recovery) : KeepsOpen (Parser.recover recovery) := by
  cases recovery <;> (unfold Parser.recover; infer_instance)

/-! ### Scopes -/

instance report (e : SyntaxError) (recovery : Recovery) : KeepsOpen (Parser.report e recovery) :=
  .of_ok fun {b b' _} h => by
    unfold Parser.report at h
    obtain ⟨node, b₁, added, h⟩ := bind_eq_ok.mp h
    obtain ⟨next, b₂, hask, h⟩ := bind_eq_ok.mp h
    cases hask
    rw [run_ite] at h
    split at h
    · obtain ⟨_, b₂, pushed, h⟩ := bind_eq_ok.mp h
      obtain ⟨_, b₃, taken, h⟩ := bind_eq_ok.mp h
      obtain ⟨_, b₄, recovered, popped⟩ := bind_eq_ok.mp h
      cases pushed
      cases popped
      change b₄.openNodes.tail = b.openNodes
      rw [ok recovered, ok taken]
      exact ok added
    · cases h
      exact ok added

instance limited [KeepsOpen p] : KeepsOpen (Parser.limited p) := by
  unfold Parser.limited
  infer_instance

instance recovering [KeepsOpen p] (recovery : Recovery) : KeepsOpen (Parser.recovering recovery p) := by
  have behind : ∀ r : Except SyntaxError α, KeepsOpen (match r with
      | .ok a => return some a
      | .error e => do
        Parser.report e recovery
        return none) := fun r => by cases r <;> infer_instance
  unfold Parser.recovering
  infer_instance

theorem openNode_ok {kind : TreeKind} {i : NodeId} (h : (Parser.openNode kind).run b = .ok i b') :
    b'.openNodes = i :: b.openNodes := by
  unfold Parser.openNode at h
  obtain ⟨node, b₁, made, h⟩ := bind_eq_ok.mp h
  obtain ⟨_, b₂, attached, h⟩ := bind_eq_ok.mp h
  obtain ⟨_, b₃, pushed, done⟩ := bind_eq_ok.mp h
  cases pushed
  cases done
  exact congrArg (i :: ·) ((ok attached).trans (ok made))

instance scope [KeepsOpen p] (kind : TreeKind) (recovery : Recovery) : KeepsOpen (Parser.scope kind p recovery) :=
  .of_ok fun {b b' _} h => by
    unfold Parser.scope at h
    obtain ⟨node, b₁, opened, h⟩ := bind_eq_ok.mp h
    obtain ⟨value, b₂, caught, h⟩ := bind_eq_ok.mp h
    obtain ⟨_, b₃, closed, done⟩ := bind_eq_ok.mp h
    cases done
    rw [closeNode_ok closed]
    change b₂.openNodes.tail = b.openNodes
    rw [ok caught, openNode_ok opened]
    rfl

end KeepsOpen

end Parser

end SmithyIdl
