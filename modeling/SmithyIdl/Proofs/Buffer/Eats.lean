import SmithyIdl.Proofs.Buffer.Steady

/-! # Parsers that take a token

Where a token is left, most rules of the grammar succeed only behind it. A sequence eats as soon as one of its
parts does. A node eats when its body does: a body that fails, or that is refused because too many nodes are
open, is reported at a token that the report takes. -/

namespace SmithyIdl.Parser

variable {α β σ : Type} {p q : Parser α} {f : α → Parser β} {b : Buffer}

/-- From `b`, the parser succeeds only behind a token. -/
def EatsFrom (p : Parser α) (b : Buffer) : Prop := ∀ ⦃a b'⦄, p.run b = .ok a b' → b.cursor < b'.cursor

/-- Wherever a token is left, the parser succeeds only behind it. -/
class Eats (p : Parser α) : Prop where
  eats : ∀ {b : Buffer}, b.EndsWithEof → b.hasNext = true → p.EatsFrom b

namespace EatsFrom

theorem bind_left [∀ a, Steady (f a)] (h : p.EatsFrom b) : (p >>= f).EatsFrom b := fun _ _ hb => by
  obtain ⟨a, b₁, hp, hf⟩ := bind_eq_ok.mp hb
  exact Nat.lt_of_lt_of_le (h hp) (Steady.ok hf).cursor

/-- The first part need not eat where the second one does. -/
theorem bind_right [Steady p] [∀ a, Steady (f a)]
    (h : ∀ a b', p.run b = .ok a b' → b'.cursor = b.cursor → (f a).EatsFrom b') : (p >>= f).EatsFrom b :=
  fun _ _ hb => by
    obtain ⟨a, b₁, hp, hf⟩ := bind_eq_ok.mp hb
    rcases Nat.eq_or_lt_of_le (Steady.ok hp).cursor with same | hlt
    · exact same ▸ h a b₁ hp same.symm hf
    · exact Nat.lt_of_lt_of_le hlt (Steady.ok hf).cursor

theorem ite {c : Prop} [Decidable c] (pos : c → p.EatsFrom b) (neg : ¬ c → q.EatsFrom b) :
    (if c then p else q).EatsFrom b := by
  by_cases hc : c
  · rw [if_pos hc]
    exact pos hc
  · rw [if_neg hc]
    exact neg hc

end EatsFrom

namespace Eats

instance fail (problem : Problem) : Eats (Parser.fail problem : Parser α) := ⟨fun _ _ _ _ h => nomatch h⟩

instance bind_right [Steady p] [∀ a, Steady (f a)] [∀ a, Eats (f a)] : Eats (p >>= f) where
  eats ends next := EatsFrom.bind_right fun _ _ hp same => by
    have leads := Steady.ok hp
    exact eats (leads.endsWithEof ends) ((leads.hasNext_of_same same).trans next)

instance bind_left [Eats p] [∀ a, Steady (f a)] : Eats (p >>= f) :=
  ⟨fun ends next => EatsFrom.bind_left (eats ends next)⟩

instance ite {c : Prop} [Decidable c] [Eats p] [Eats q] : Eats (if c then p else q) :=
  ⟨fun ends next => EatsFrom.ite (fun _ => eats ends next) fun _ => eats ends next⟩

/-- Where a token is left, only what is done there counts. -/
instance whereNext [Eats p] : Eats (Parser.hasNext >>= fun next => if next = true then p else q) where
  eats {b} ends next a b' h := by
    have here : (Parser.hasNext >>= fun next => if next = true then p else q).run b = p.run b := by
      change (if b.hasNext = true then p else q).run b = _
      rw [if_pos next]
    exact eats ends next (here ▸ h)

instance step : Eats Parser.step := ⟨fun _ _ _ _ h => by cases h; exact Nat.lt_succ_self _⟩

instance shift : Eats Parser.shift := by
  unfold Parser.shift
  infer_instance

instance next : Eats Parser.next := by
  unfold Parser.next
  infer_instance

instance consumeAny : Eats Parser.consumeAny := by
  unfold Parser.consumeAny
  infer_instance

instance report (e : SyntaxError) (recovery : Recovery) : Eats (Parser.report e recovery) := by
  unfold Parser.report
  infer_instance

end Eats

/-! ### Scopes -/

namespace EatsFrom

theorem limited (h : p.EatsFrom b) : (Parser.limited p).EatsFrom b := fun a b' hb => by
  obtain ⟨deep, b₁, hask, hb⟩ := bind_eq_ok.mp hb
  cases hask
  exact ite (fun _ => nofun) (fun _ => h) hb

/-- A failure is reported at the token behind which the parser would have succeeded. -/
theorem recovering [Steady p] {recovery : Recovery} (ends : b.EndsWithEof) (next : b.hasNext = true)
    (h : p.EatsFrom b) : (Parser.recovering recovery p).EatsFrom b := fun r b' hb => by
  obtain ⟨r, b₁, hp, hr⟩ := bind_eq_ok.mp hb
  have leads := Steady.ok hp
  cases r with
  | ok a =>
    cases hr
    refine h (a := a) ?_
    rw [run, Parser.attempt] at hp
    rw [run]
    cases hb : p b with
    | ok a₁ b₁ =>
      rw [hb] at hp
      cases hp
      rfl
    | error e b₁ =>
      rw [hb] at hp
      cases hp
    | fault why =>
      rw [hb] at hp
      cases hp
  | error e =>
    rcases leads.lt_or_hasNext next with hlt | ⟨same, next'⟩
    · exact Nat.lt_of_lt_of_le hlt (Steady.ok hr).cursor
    · have reported : Eats (do
          Parser.report e recovery
          return (none : Option α)) := inferInstance
      exact same ▸ reported.eats (leads.endsWithEof ends) next' hr

theorem scope [Steady p] {kind : TreeKind} {recovery : Recovery} (ends : b.EndsWithEof)
    (next : b.hasNext = true) (inside : ∀ b', b.Leads b' → b'.cursor = b.cursor → p.EatsFrom b') :
    (Parser.scope kind p recovery).EatsFrom b :=
  .bind_right fun _ b₁ opened same => by
    have leads := Steady.ok opened
    refine .bind_left (.recovering (leads.endsWithEof ends) ?_ (limited (inside b₁ leads same)))
    exact (leads.hasNext_of_same same).trans next

end EatsFrom

namespace Eats

instance scope [Steady p] [Eats p] (kind : TreeKind) (recovery : Recovery) :
    Eats (Parser.scope kind p recovery) :=
  ⟨fun ends next => .scope ends next fun _ leads same =>
    eats (leads.endsWithEof ends) ((leads.hasNext_of_same same).trans next)⟩

instance within (kind : TreeKind) (body : Parser Unit) [Steady body] [Eats body] :
    Eats (Parser.within kind body) := by
  unfold Parser.within
  infer_instance

end Eats

/-! ### Expected tokens -/

theorem expectAny_ok {kinds : TokenSet} {kind : TokenKind} {b' : Buffer}
    (h : (expectAny kinds).run b = .ok kind b') : b' = b ∧ kind = b.current.kind ∧ kinds.contains kind = true := by
  unfold expectAny at h
  obtain ⟨token, b₁, hask, h⟩ := bind_eq_ok.mp h
  cases hask
  rw [run_ite] at h
  by_cases hc : kinds.contains b.current.kind = true
  · rw [if_pos hc] at h
    cases h
    exact ⟨rfl, rfl, hc⟩
  · rw [if_neg hc] at h
    cases hcause : b.current.error? <;> simp only [hcause] at h <;> cases h

theorem expect_ok {kind : TokenKind} {b' : Buffer} (h : (expect kind).run b = .ok () b') :
    b' = b ∧ b.current.kind = kind := by
  unfold expect at h
  obtain ⟨found, b₁, h, done⟩ := bind_eq_ok.mp h
  obtain ⟨rfl, rfl, among⟩ := expectAny_ok h
  cases done
  rw [TokenSet.contains_single, decide_eq_true_eq] at among
  exact ⟨rfl, among.symm⟩

/-- A token that has to come is a token that is left. -/
theorem EatsFrom.of_expect {kind : TokenKind} {f : Unit → Parser β} (ends : b.EndsWithEof) (ne : kind ≠ .eof)
    (h : Eats (f ())) : (expect kind >>= f).EatsFrom b := fun c b' hb => by
  obtain ⟨_, b₁, found, hf⟩ := bind_eq_ok.mp hb
  obtain ⟨rfl, here⟩ := expect_ok found
  exact h.eats ends (ends.hasNext (here ▸ ne)) hf

/-! ### Repetitions -/

section
variable {more : σ → Buffer → Bool} {round : σ → Parser σ}

/-- Every round of a repetition that ends has taken a token. -/
class Advances (more : σ → Buffer → Bool) (round : σ → Parser σ) : Prop where
  advances : ∀ {s : σ} {b : Buffer}, b.EndsWithEof → more s b = true → (round s).EatsFrom b

/-- A question whose answer is yes only where a token is left. -/
class NeedsNext (more : σ → Buffer → Bool) : Prop where
  hasNext : ∀ {s : σ} {b : Buffer}, b.EndsWithEof → more s b = true → b.hasNext = true

instance needsNext_and (more : σ → Buffer → Bool) : NeedsNext fun s b => b.hasNext && more s b :=
  ⟨fun _ go => (Bool.and_eq_true_iff.mp go).1⟩

theorem needsNext_isAt {kind : TokenKind} (ne : kind ≠ .eof) : NeedsNext fun (_ : σ) b => b.isAt kind :=
  ⟨fun ends go => ends.hasNext_of_isAt go ne⟩

theorem needsNext_isAtKeyword (name : String) : NeedsNext fun (_ : σ) b => b.isAtKeyword name :=
  ⟨fun ends go => ends.hasNext_of_keyword go⟩

instance Advances.of_eats [NeedsNext more] [∀ s, Eats (round s)] : Advances more round :=
  ⟨fun ends go => Eats.eats ends (NeedsNext.hasNext ends go)⟩

/-- A repetition that begins a round takes what the round takes. -/
theorem EatsFrom.foldWhile [∀ s, Steady (round s)] {s : σ} (go : more s b = true)
    (first : (round s).EatsFrom b) : (Parser.foldWhile more round s).EatsFrom b := fun s' b' h => by
  rw [run, Parser.foldWhile, foldBelow, if_pos go] at h
  cases hr : round s b with
  | ok s₁ b₁ =>
    simp only [hr] at h
    by_cases hlt : b₁.remaining < b.remaining
    · rw [if_pos hlt] at h
      exact Nat.lt_of_lt_of_le (first hr) (Steady.leads_foldBelow (by rw [h]; rfl)).cursor
    · rw [if_neg hlt] at h
      cases h
  | error e b₁ =>
    simp only [hr] at h
    cases h
  | fault why =>
    simp only [hr] at h
    cases h

end

theorem EatsFrom.shiftKinds {kinds : TokenKind → Bool} (ends : b.EndsWithEof) (next : b.hasNext = true)
    (here : kinds b.current.kind = true) : (Parser.shiftKinds kinds).EatsFrom b :=
  EatsFrom.foldWhile (Bool.and_eq_true_iff.mpr ⟨next, here⟩) (Eats.eats ends next)

end SmithyIdl.Parser
