import SmithyIdl.Buffer.Parser

/-! # What a parser ensures

`p.Ensures b Q E` says that `p` meets no fault from `b`, that `Q` holds of its value and buffer where it
succeeds, and `E` of its buffer where it fails. -/

namespace SmithyIdl

namespace Outcome

variable {α β : Type}

/-- The buffer that a step leaves, unless it met a fault. -/
def buffer? : Outcome α → Option Buffer
  | ok _ b => some b
  | error _ b => some b
  | fault _ => none

/-- No fault; `Q` holds of a success and `E` of a failure. -/
def Meets (Q : α → Buffer → Prop) (E : Buffer → Prop) : Outcome α → Prop
  | ok a b => Q a b
  | error _ b => E b
  | fault _ => False

@[simp] theorem ok_andThen (a : α) (b : Buffer) (f : α → Buffer → Outcome β) : (ok a b).andThen f = f a b := rfl

end Outcome

namespace Parser

variable {α β σ : Type} {p : Parser α} {f : α → Parser β} {b b' : Buffer} {Q Q' : α → Buffer → Prop}
  {E E' : Buffer → Prop}

/-! ### Runs -/

@[simp] theorem run_ask (g : Buffer → α) (b : Buffer) : (ask g).run b = .ok (g b) b := rfl

@[simp] theorem run_hasNext (b : Buffer) : hasNext.run b = .ok b.hasNext b := rfl

@[simp] theorem run_ite (c : Prop) [Decidable c] (p q : Parser α) (b : Buffer) :
    (if c then p else q).run b = if c then p.run b else q.run b := by
  split <;> rfl

theorem run_attempt (p : Parser α) (b : Buffer) : (attempt p).run b = match p.run b with
    | .ok a b => .ok (.ok a) b
    | .error e b => .ok (.error e) b
    | .fault why => .fault why := rfl

theorem run_onTree {g : SyntaxTree → Except Fault (α × SyntaxTree)} {a : α} {t : SyntaxTree}
    (h : g b.tree = .ok (a, t)) : (onTree g).run b = .ok a { b with tree := t } := by
  rw [run, onTree, h]

theorem run_edit {g : SyntaxTree → Except Fault SyntaxTree} {t : SyntaxTree} (h : g b.tree = .ok t) :
    (onTree fun t => (g t).map ((), ·)).run b = .ok () { b with tree := t } :=
  run_onTree (congrArg (Except.map ((), ·)) h)

theorem run_bind_of_ok {a : α} (h : p.run b = .ok a b') : (p >>= f).run b = (f a).run b' := by
  rw [run_bind, h, Outcome.ok_andThen]

theorem bind_eq_ok {c : β} : (p >>= f).run b = .ok c b' ↔
    ∃ a b₁, p.run b = .ok a b₁ ∧ (f a).run b₁ = .ok c b' := by
  rw [run_bind]
  cases p.run b with
  | ok a b₁ =>
    refine ⟨fun h => ⟨a, b₁, rfl, h⟩, fun h => ?_⟩
    obtain ⟨a', b₁', h, hf⟩ := h
    cases h
    exact hf
  | error cause b₁ => simp [Outcome.andThen]
  | fault why => simp [Outcome.andThen]

theorem bind_eq_error {e : SyntaxError} : (p >>= f).run b = .error e b' ↔
    p.run b = .error e b' ∨ ∃ a b₁, p.run b = .ok a b₁ ∧ (f a).run b₁ = .error e b' := by
  rw [run_bind]
  cases p.run b with
  | ok a b₁ =>
    refine ⟨fun h => .inr ⟨a, b₁, rfl, h⟩, fun h => ?_⟩
    obtain h | ⟨a', b₁', h, hf⟩ := h
    · cases h
    · cases h
      exact hf
  | error cause b₁ => simp [Outcome.andThen]
  | fault why => simp [Outcome.andThen]

theorem buffer?_bind : ((p >>= f).run b).buffer? = some b' ↔
    (∃ e, p.run b = .error e b') ∨ ∃ a b₁, p.run b = .ok a b₁ ∧ ((f a).run b₁).buffer? = some b' := by
  rw [run_bind]
  cases p.run b with
  | ok a b₁ =>
    refine ⟨fun h => Or.inr ⟨a, b₁, rfl, h⟩, fun h => ?_⟩
    obtain ⟨e, h⟩ | ⟨a', b₁', h, hf⟩ := h
    · cases h
    · cases h
      exact hf
  | error cause b₁ => simp [Outcome.andThen, Outcome.buffer?]
  | fault why => simp [Outcome.andThen, Outcome.buffer?]

/-- From `b`, `p` meets no fault; `Q` holds where it succeeds and `E` where it fails. -/
def Ensures (p : Parser α) (b : Buffer) (Q : α → Buffer → Prop) (E : Buffer → Prop) : Prop :=
  (p.run b).Meets Q E

namespace Ensures

theorem of_ok {a : α} (h : p.run b = .ok a b') (hQ : Q a b') : p.Ensures b Q E := by
  rw [Ensures, h]
  exact hQ

theorem holds {a : α} (h : p.Ensures b Q E) (run : p.run b = .ok a b') : Q a b' := by
  rwa [Ensures, run] at h

theorem pure {a : α} (h : Q a b) : (Pure.pure a : Parser α).Ensures b Q E := h

theorem fail {problem : Problem} (h : E b) : (Parser.fail problem : Parser α).Ensures b Q E := h

theorem ask {g : Buffer → α} (h : Q (g b) b) : (Parser.ask g).Ensures b Q E := h

theorem bind {R : β → Buffer → Prop} (h : p.Ensures b Q E) (next : ∀ a b', Q a b' → (f a).Ensures b' R E) :
    (p >>= f).Ensures b R E := by
  rw [Ensures, run_bind]
  rw [Ensures] at h
  cases hp : p.run b with
  | ok a b₁ =>
    rw [hp] at h
    exact next a b₁ h
  | error cause b₁ =>
    rw [hp] at h
    exact h
  | fault why =>
    rw [hp] at h
    exact h

/-- Goes on behind a step whose run is known. -/
theorem after {R : β → Buffer → Prop} {a : α} (run : p.run b = .ok a b') (h : (f a).Ensures b' R E) :
    (p >>= f).Ensures b R E := by
  rwa [Ensures, run_bind_of_ok run]

theorem mono (h : p.Ensures b Q E) (ok : ∀ a b', p.run b = .ok a b' → Q a b' → Q' a b')
    (err : ∀ b', E b' → E' b') : p.Ensures b Q' E' := by
  rw [Ensures] at h ⊢
  cases hp : p.run b with
  | ok a b₁ =>
    rw [hp] at h
    exact ok a b₁ hp h
  | error cause b₁ =>
    rw [hp] at h
    exact err b₁ h
  | fault why =>
    rw [hp] at h
    exact h

theorem exists_ok (h : p.Ensures b Q fun _ => False) : ∃ a b', p.run b = .ok a b' ∧ Q a b' := by
  rw [Ensures] at h
  cases hp : p.run b with
  | ok a b₁ =>
    rw [hp] at h
    exact ⟨a, b₁, rfl, h⟩
  | error cause b₁ =>
    rw [hp] at h
    exact h.elim
  | fault why =>
    rw [hp] at h
    exact h.elim

theorem attempt (h : p.Ensures b Q E) :
    (Parser.attempt p).Ensures b (fun r b' => match r with
      | .ok a => Q a b'
      | .error _ => E b') fun _ => False := by
  rw [Ensures, run] at h
  rw [Ensures, run, Parser.attempt]
  cases hp : p b with
  | ok a b₁ =>
    rw [hp] at h
    exact h
  | error cause b₁ =>
    rw [hp] at h
    exact h
  | fault why =>
    rw [hp] at h
    exact h

theorem ite {c : Prop} [Decidable c] {q : Parser α} (pos : c → p.Ensures b Q E) (neg : ¬ c → q.Ensures b Q E) :
    (if c then p else q).Ensures b Q E := by
  by_cases hc : c
  · rw [if_pos hc]
    exact pos hc
  · rw [if_neg hc]
    exact neg hc

end Ensures

/-! ### Repetitions -/

section
variable {more : σ → Buffer → Bool} {step : σ → Parser σ} {I : σ → Buffer → Prop}

theorem foldBelow_meets
    (round : ∀ s b, I s b → more s b = true →
      (step s).Ensures b (fun s' b' => I s' b' ∧ b'.remaining < b.remaining) E)
    {s : σ} {b : Buffer} (h : I s b) :
    (foldBelow more step b.remaining s b).Meets (fun s' b' => I s' b' ∧ more s' b' = false) E := by
  -- The tokens left bound the rounds; a round that ends takes some away, so none stalls.
  induction hn : b.remaining using Nat.strongRecOn generalizing s b with
  | ind n ih =>
    subst hn
    rw [foldBelow]
    cases hm : more s b with
    | false => exact ⟨h, hm⟩
    | true =>
      have hr := round s b h hm
      rw [Ensures, run] at hr
      rw [if_pos rfl]
      cases hs : step s b with
      | ok s' b' =>
        rw [hs] at hr
        obtain ⟨hI, hlt⟩ := hr
        simp only [hlt, if_true]
        exact ih _ hlt hI rfl
      | error cause b' =>
        rw [hs] at hr
        exact hr
      | fault why =>
        rw [hs] at hr
        exact hr

/-- Where a repetition ends, what every round keeps holds, and nothing more is asked for. -/
theorem foldBelow_ok (keep : ∀ s b s' b', I s b → more s b = true → (step s).run b = .ok s' b' → I s' b')
    {left : Nat} {s s' : σ} {b b' : Buffer} (start : I s b) (h : foldBelow more step left s b = .ok s' b') :
    I s' b' ∧ more s' b' = false := by
  induction left using Nat.strongRecOn generalizing s b with
  | ind left ih =>
    rw [foldBelow] at h
    by_cases hm : more s b = true
    · rw [if_pos hm] at h
      cases hs : step s b with
      | ok s₁ after =>
        simp only [hs] at h
        by_cases hlt : after.remaining < left
        · rw [if_pos hlt] at h
          exact ih _ hlt (keep s b s₁ after start hm hs) h
        · rw [if_neg hlt] at h
          cases h
      | error e after =>
        simp only [hs] at h
        cases h
      | fault why =>
        simp only [hs] at h
        cases h
    · rw [if_neg hm] at h
      cases h
      exact ⟨start, eq_false_of_ne_true hm⟩

theorem foldWhile_ok (keep : ∀ s b s' b', I s b → more s b = true → (step s).run b = .ok s' b' → I s' b')
    {s s' : σ} {b b' : Buffer} (start : I s b) (h : (foldWhile more step s).run b = .ok s' b') :
    I s' b' ∧ more s' b' = false := foldBelow_ok keep start h

/-- A repetition that goes on is a round, which takes tokens, and then the repetition from there. -/
theorem foldWhile_round {s s' : σ} {b b' : Buffer} (go : more s b = true)
    (h : (foldWhile more step s).run b = .ok s' b') : ∃ s₁ b₁, (step s).run b = .ok s₁ b₁ ∧ b₁.remaining < b.remaining ∧
      (foldWhile more step s₁).run b₁ = .ok s' b' := by
  rw [run, foldWhile, foldBelow, if_pos go] at h
  cases taken : step s b with
  | ok s₁ b₁ =>
    rw [taken] at h
    dsimp only at h
    split at h
    · next fewer => exact ⟨s₁, b₁, taken, fewer, h⟩
    · cases h
  | error e b₁ =>
    rw [taken] at h
    cases h
  | fault why =>
    rw [taken] at h
    cases h

theorem run_foldWhile {s s₁ : σ} {b b₁ : Buffer} (go : more s b = true) (taken : (step s).run b = .ok s₁ b₁)
    (fewer : b₁.remaining < b.remaining) : (foldWhile more step s).run b = (foldWhile more step s₁).run b₁ := by
  rw [run] at taken
  rw [run, foldWhile, foldBelow, if_pos go, taken]
  dsimp only
  rw [if_pos fewer]
  rfl

theorem foldWhile_stop {s : σ} {b : Buffer} (done : more s b = false) : (foldWhile more step s).run b = .ok s b := by
  rw [run, foldWhile, foldBelow, if_neg (by rw [done]; exact Bool.false_ne_true)]

/-- What every round keeps holds at the end, if every round that ends takes tokens away. -/
theorem foldWhile_ensures
    (round : ∀ s b, I s b → more s b = true →
      (step s).Ensures b (fun s' b' => I s' b' ∧ b'.remaining < b.remaining) E)
    {s : σ} (h : I s b) : (foldWhile more step s).Ensures b (fun s' b' => I s' b' ∧ more s' b' = false) E :=
  foldBelow_meets round h

end

end Parser

end SmithyIdl
