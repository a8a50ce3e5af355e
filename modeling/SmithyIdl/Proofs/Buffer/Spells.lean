import SmithyIdl.Proofs.Buffer.Eats
import SmithyIdl.Proofs.Buffer.Runs

/-! # Words of clean runs

A run is clean if it succeeds and counts no problem. The tokens that it takes are a word, whatever tree is built from
them, and parsers one behind the other take their words one behind the other. -/

namespace SmithyIdl

open SmithyIdl.Parser (Steady)

namespace Buffer

variable {b b' : Buffer}

/-- The tokens from the cursor on. -/
def rest (b : Buffer) : List Token := b.tree.tokens.toList.drop b.cursor

theorem rest_of_hasNext (next : b.hasNext = true) :
    b.rest = b.current :: b.tree.tokens.toList.drop (b.cursor + 1) := by
  rw [hasNext_iff, eof] at next
  have inside : b.cursor < b.tree.tokens.toList.length := by
    rw [Array.length_toList]
    omega
  have here : b.current = b.tree.tokens.toList[b.cursor] := by
    rw [current, peek, Nat.add_zero, Nat.min_eq_left (by rw [eof]; omega), ← Array.getElem?_toList,
      List.getElem?_eq_getElem inside, Option.getD_some]
  rw [rest, List.drop_eq_getElem_cons inside, here]

theorem peek_of_getElem? {k : Nat} {t : Token} (place : b.tree.tokens.toList[b.cursor + k]? = some t) : b.peek k = t := by
  rw [Array.getElem?_toList] at place
  have made := (Array.getElem?_eq_some_iff.mp place).1
  rw [peek, Nat.min_eq_left (by rw [eof]; omega), place]
  rfl

theorem peek_of_rest {k : Nat} {t : Token} (place : b.rest[k]? = some t) : b.peek k = t :=
  peek_of_getElem? (by rwa [rest, List.getElem?_drop] at place)

theorem Leads.rest_of_same (h : b.Leads b') (same : b'.cursor = b.cursor) : b'.rest = b.rest := by
  rw [rest, rest, h.tokens, same]

end Buffer

namespace Parser

variable {α β σ : Type} {p : Parser α} {f : α → Parser β} {b : Buffer} {L M : α → List Token → Prop}
  {N : β → List Token → Prop}

/-- A clean run of the parser from `b` takes a word of the language. -/
def Spells (b : Buffer) (p : Parser α) (L : α → List Token → Prop) : Prop :=
  ∀ ⦃a b'⦄, p.run b = .ok a b' → b'.errors = b.errors → ∃ w, b.rest = w ++ b'.rest ∧ L a w

namespace Spells

theorem mono (h : Spells b p L) (weaker : ∀ a w, L a w → M a w) : Spells b p M := fun _ _ run clean =>
  let ⟨w, split, word⟩ := h run clean
  ⟨w, split, weaker _ w word⟩

theorem pure {a : α} (h : L a []) : Spells b (Pure.pure a) L := by
  rintro _ _ ⟨⟩ -
  exact ⟨[], rfl, h⟩

/-- What fails has no clean run. -/
theorem fail (problem : Problem) : Spells b (Parser.fail problem) L := nofun

/-- What comes behind the first word is what is left behind the first parser. -/
theorem bind_rest [Steady p] [∀ a, Steady (f a)] (first : Spells b p L)
    (next : ∀ a b₁ w, L a w → b₁.errors = b.errors → b.rest = w ++ b₁.rest → Spells b₁ (f a) fun c x => N c (w ++ x)) :
    Spells b (p >>= f) N := by
  intro c b' run clean
  obtain ⟨a, b₁, taken, run⟩ := bind_eq_ok.mp run
  obtain ⟨clean₁, clean₂⟩ := (Steady.ok taken).clean (Steady.ok run) clean
  obtain ⟨w, split, word⟩ := first taken clean₁
  obtain ⟨x, split', word'⟩ := next a b₁ w word clean₁ split run clean₂
  exact ⟨w ++ x, by rw [split, split', List.append_assoc], word'⟩

theorem bind [Steady p] [∀ a, Steady (f a)] (first : Spells b p L)
    (next : ∀ a b₁ w, L a w → b₁.errors = b.errors → Spells b₁ (f a) fun c x => N c (w ++ x)) :
    Spells b (p >>= f) N :=
  first.bind_rest fun a b₁ w word clean _ => next a b₁ w word clean

/-- What only looks takes nothing. -/
theorem look_bind [Looks p] (next : ∀ a, p.run b = .ok a b → Spells b (f a) N) : Spells b (p >>= f) N := by
  intro c b' run clean
  obtain ⟨a, b₁, looked, rest⟩ := bind_eq_ok.mp run
  obtain rfl := Looks.ok looked
  exact next a looked rest clean

theorem ask_bind {g : Buffer → α} (next : Spells b (f (g b)) N) : Spells b (Parser.ask g >>= f) N := next

/-! ### Tokens -/

theorem shift : Spells b Parser.shift fun _ w => w = [b.current] := by
  rintro ⟨⟩ b' run -
  have tokens := (Steady.ok run).tokens
  obtain ⟨more, t, -, rfl⟩ := shift_ok run
  refine ⟨_, ?_, rfl⟩
  rw [Buffer.rest_of_hasNext more, Buffer.rest, tokens]
  rfl

theorem next : Spells b Parser.next fun _ w => w = [b.current] := by
  unfold Parser.next
  refine .ask_bind ?_
  split
  · refine .ask_bind (.bind .shift fun _ _ w word _ => .pure ?_)
    rw [word, List.append_nil]
  · exact .fail _

theorem consumeAny : Spells b Parser.consumeAny fun _ w => w = [b.current] :=
  .bind .next fun _ _ w word _ => .pure (by rw [word, List.append_nil])

theorem consume (kind : TokenKind) : Spells b (Parser.consume kind) fun _ w => ∃ t, t.kind = kind ∧ w = [t] :=
  .look_bind fun _ found => .bind .next fun _ _ w word _ => .pure ⟨b.current, (expect_ok found).2, by
    rw [word, List.append_nil]⟩

/-! ### Repetitions -/

/-- The words of the rounds make up a word of which the invariant holds. -/
theorem foldWhile {more : σ → Buffer → Bool} {round : σ → Parser σ} [∀ s, Steady (round s)] {s : σ}
    {I : σ → List Token → Prop} (start : I s [])
    (next : ∀ s b₁ w, I s w → more s b₁ = true → Spells b₁ (round s) fun s' x => I s' (w ++ x)) :
    Spells b (Parser.foldWhile more round s) I := by
  intro s' b' run clean
  let J : σ → Buffer → Prop := fun s b₁ => ∃ w, b.rest = w ++ b₁.rest ∧ I s w
  have keep : ∀ s b₁ s' b₂, b.Leads b₁ → J s b₁ → more s b₁ = true → (round s).run b₁ = .ok s' b₂ →
      b₂.errors = b₁.errors → J s' b₂ := by
    intro s b₁ s' b₂ _ ⟨w, split, word⟩ go run clean
    obtain ⟨x, split', word'⟩ := next s b₁ w word go run clean
    exact ⟨w ++ x, by rw [split, split', List.append_assoc], word'⟩
  exact (foldWhile_clean keep ⟨[], rfl, start⟩ run clean).1

/-- The words of the rounds make up a word of a language. -/
theorem repeatWhile {more : Buffer → Bool} {round : Parser Unit} [Steady round] {I : List Token → Prop} (start : I [])
    (next : ∀ b₁ w, I w → more b₁ = true → Spells b₁ round fun _ x => I (w ++ x)) :
    Spells b (Parser.repeatWhile more round) fun _ => I :=
  foldWhile (I := fun _ => I) start fun _ => next

/-- Tokens of a class. -/
theorem shiftKinds (kinds : TokenKind → Bool) :
    Spells b (Parser.shiftKinds kinds) fun _ w => ∀ t ∈ w, kinds t.kind = true := by
  refine .repeatWhile nofun fun b₁ w word go => ?_
  refine shift.mono fun _ x here t among => ?_
  rcases List.mem_append.mp among with among | among
  · exact word t among
  · rw [here, List.mem_singleton] at among
    exact among ▸ (Bool.and_eq_true_iff.mp go).2

/-! ### Scopes -/

/-- A clean scope is a clean run of what is in it. -/
theorem within {body : Parser Unit} [Steady body] (kind : TreeKind) {L : List Token → Prop}
    (inside : ∀ b₁, b.Leads b₁ → b₁.cursor = b.cursor → Spells b₁ body fun _ => L) :
    Spells b (Parser.within kind body) fun _ => L := by
  intro _ b' run clean
  unfold Parser.within Parser.scope at run
  obtain ⟨c, b₄, run, done⟩ := bind_eq_ok.mp run
  cases done
  obtain ⟨node, b₁, opened, run⟩ := bind_eq_ok.mp run
  obtain ⟨value, b₂, caught, run⟩ := bind_eq_ok.mp run
  obtain ⟨_, b₃, closed, done⟩ := bind_eq_ok.mp run
  cases done
  have same := (openNode_ok opened).2.2.1
  have leads := Steady.ok opened
  obtain ⟨clean₁, clean₂⟩ := leads.clean ((Steady.ok caught).trans (Steady.ok closed)) clean
  have clean₃ := ((Steady.ok caught).clean (Steady.ok closed) clean₂).1
  obtain ⟨_, -, taken⟩ := recovering_clean caught clean₃
  obtain ⟨w, split, word⟩ := inside b₁ leads same (limited_ok taken) clean₃
  obtain rfl := closeNode_ok closed
  exact ⟨w, by rw [← leads.rest_of_same same, split]; rfl, word⟩

end Spells

end Parser

end SmithyIdl
