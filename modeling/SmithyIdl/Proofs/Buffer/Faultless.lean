import SmithyIdl.Proofs.Buffer.Eats
import SmithyIdl.Proofs.FailedScope

/-! # Parsers without faults

A fault means that the tree was not as a step needs it. A parser that only looks, takes tokens and opens scopes meets
none where a node can be added to the innermost open one, whatever was done to the rest of the tree before. -/

namespace SmithyIdl

namespace Parser

variable {α β σ : Type} {p q : Parser α} {f : α → Parser β} {b : Buffer}

/-- Where a node can be added to the innermost open one, the parser meets no fault. -/
class Faultless (p : Parser α) : Prop extends Steady p, KeepsOpen p, Upholds p where
  meets : ∀ {b : Buffer}, b.Ready → b.EndsWithEof → p.Ensures b (fun _ _ => True) fun _ => True

namespace Faultless

/-- A node can be added behind it, too. -/
theorem stays [Faultless p] (ready : b.Ready) (ends : b.EndsWithEof) :
    p.Ensures b (fun _ b' => b'.Ready ∧ b'.EndsWithEof) fun _ => True :=
  (meets ready ends).mono
    (fun _ _ run _ => ⟨ready.after (p := p) (by rw [run]; rfl), (Steady.ok run).endsWithEof ends⟩) fun _ => id

theorem exists_ok [Faultless p] (ready : b.Ready) (ends : b.EndsWithEof) (noError : ∀ e b', p.run b ≠ .error e b') :
    ∃ a b', p.run b = .ok a b' := by
  have meets := meets (p := p) ready ends
  rw [Ensures] at meets
  cases run : p.run b with
  | ok a b' => exact ⟨a, b', rfl⟩
  | error e b' => exact absurd run (noError e b')
  | fault why =>
    rw [run] at meets
    exact meets.elim

instance pure (a : α) : Faultless (Pure.pure a : Parser α) := ⟨fun _ _ => .pure trivial⟩

instance ask (g : Buffer → α) : Faultless (Parser.ask g) := ⟨fun _ _ => .ask trivial⟩

instance fail (problem : Problem) : Faultless (Parser.fail problem : Parser α) := ⟨fun _ _ => .fail trivial⟩

instance bind [Faultless p] [∀ a, Faultless (f a)] : Faultless (p >>= f) where
  meets ready ends := (stays ready ends).bind fun _ _ h => meets h.1 h.2

instance ite {c : Prop} [Decidable c] [Faultless p] [Faultless q] : Faultless (if c then p else q) where
  meets ready ends := .ite (fun _ => meets ready ends) fun _ => meets ready ends

/-! ### Tokens -/

instance expectAny (kinds : TokenSet) : Faultless (Parser.expectAny kinds) := by
  have behind (cause : Option LexError) (token : Token) : Faultless (match cause with
      | some cause => Parser.fail (.lexical cause)
      | none => Parser.fail (.expected kinds token) : Parser TokenKind) := by cases cause <;> infer_instance
  have : Faultless Parser.current := .ask _
  unfold Parser.expectAny
  infer_instance

instance expect (kind : TokenKind) : Faultless (Parser.expect kind) := by
  unfold Parser.expect
  infer_instance

instance next : Faultless Parser.next where
  meets {b} ready ends := by
    unfold Parser.next
    refine .bind (Q := fun more b' => b' = b ∧ more = b.hasNext) ⟨rfl, rfl⟩ fun more b' ⟨here, known⟩ => ?_
    subst here
    refine .ite (fun go => ?_) fun _ => .fail trivial
    obtain ⟨R, way, n, inside⟩ := ready.inside
    obtain ⟨b₁, taken, -⟩ := inside.run_shift (known ▸ go)
    exact .bind (.ask (Q := fun _ b₂ => b₂ = b') rfl) fun _ _ same => .after (same ▸ taken) (.pure trivial)

instance consumeAny : Faultless Parser.consumeAny := by
  unfold Parser.consumeAny
  infer_instance

instance consume (kind : TokenKind) : Faultless (Parser.consume kind) := by
  unfold Parser.consume
  infer_instance

instance isAt (kind : TokenKind) : Faultless (Parser.isAt kind) := .ask _

/-! ### Repetitions -/

instance foldWhile {more : σ → Buffer → Bool} {round : σ → Parser σ} [∀ s, Faultless (round s)] [Advances more round]
    (s : σ) : Faultless (Parser.foldWhile more round s) where
  meets ready ends := by
    have rounds (s : σ) (b : Buffer) (h : b.Ready ∧ b.EndsWithEof) (go : more s b = true) : (round s).Ensures b
        (fun _ b' => (b'.Ready ∧ b'.EndsWithEof) ∧ b'.remaining < b.remaining) fun _ => True := by
      refine (stays h.1 h.2).mono (fun s' b' run h' => ⟨h', ?_⟩) fun _ => id
      have eats : b.cursor < b'.cursor := Advances.advances h.2 go run
      have eof := (Steady.ok run).eof
      have bound := h'.1.cursor
      rw [eof] at bound
      rw [Buffer.remaining, Buffer.remaining, eof]
      omega
    exact (foldWhile_ensures rounds ⟨ready, ends⟩).mono (fun _ _ _ _ => trivial) fun _ => id

/-! ### Scopes -/

instance scope [Faultless p] (kind : TreeKind) : Faultless (Parser.scope kind p) where
  meets {b} ready ends := by
    obtain ⟨s, b₁, contract⟩ : ∃ s b₁, ScopeContract kind p b s b₁ := scopeContract_of_ready ready kind
    have meets := meets (p := p) (ready.opened contract.opened) ((Steady.ok contract.opened).endsWithEof ends)
    rw [Ensures] at meets
    cases deep : b₁.isTooDeep with
    | true =>
      obtain ⟨r, b', run, -⟩ := contract.refused deep
      exact .of_ok run trivial
    | false =>
      cases run : p.run b₁ with
      | ok a b₂ => exact .of_ok (contract.succeeded deep a b₂ run) trivial
      | error e b₂ =>
        obtain ⟨r, b', run, -⟩ := contract.failed deep e b₂ run
        exact .of_ok run trivial
      | fault why =>
        rw [run] at meets
        exact meets.elim

instance within (kind : TreeKind) (body : Parser Unit) [Faultless body] : Faultless (Parser.within kind body) := by
  unfold Parser.within
  infer_instance

end Faultless

end Parser

end SmithyIdl
