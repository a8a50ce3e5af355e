import SmithyIdl.Proofs.Buffer.Guards
import SmithyIdl.Proofs.Schema.Rows

/-! # Parsers that write rows

In a run that reports no problem a parser adds a row of symbols at the innermost open node, and closes only nodes
that conform (`Yields`). A parser writes the rows of a regular expression if its rows match it and it guards the
tree in every run (`Writes`). -/

namespace SmithyIdl

/-- The buffer shows a view whose closed nodes all conform. -/
structure Buffer.Builds (b : Buffer) (ts : Array Token) (v : View) : Prop where
  shown : b.Shows v
  tokens : b.tree.tokens = ts
  tidy : v.Tidy ts

namespace Parser

open Schema

variable {α β σ : Type} {p q : Parser α} {f : α → Parser β} {b : Buffer} {v : View} {ts : Array Token} {kept : Prop}

/-- In an opened node a row is begun. -/
theorem openNode_builds {b₁ : Buffer} {kind : TreeKind} {i : NodeId} (h : b.Builds ts v)
    (run : (openNode kind).run b = .ok i b₁) : b₁.Builds ts (v.enter i (.plain kind)) ∧ b₁.peek = b.peek := by
  obtain ⟨b₂, opened, shown⟩ := run_openNode h.shown kind
  cases run.symm.trans opened
  have leads := Steady.ok run
  exact ⟨⟨shown, leads.tokens.trans h.tokens, h.tidy.enter _ _⟩, leads.peek_of_same (openNode_ok run).2.2.1⟩

/-! ### Rows -/

/-- If `b` builds `v₀`, a run without a new problem adds a row at the innermost open node of `v`; `Q` says what holds
    of the value, the buffer, the view and the row. -/
def YieldsFrom (kept : Prop) (ts : Array Token) (p : Parser α) (b : Buffer) (v₀ v : View)
    (Q : α → Buffer → View → List Symbol → Prop) : Prop :=
  b.Builds ts v₀ → ∀ ⦃a b'⦄, p.run b = .ok a b' → b'.errors = b.errors →
    ∃ w u, b'.Builds ts w ∧ v.Gains kept ts u w ∧ Q a b' w u

/-- The row is added by a run from a buffer that builds the same view. -/
abbrev Yields (kept : Prop) (ts : Array Token) (p : Parser α) (b : Buffer) (v : View)
    (Q : α → Buffer → View → List Symbol → Prop) : Prop := p.YieldsFrom kept ts b v v Q

namespace YieldsFrom

variable {v₀ : View} {Q Q' : α → Buffer → View → List Symbol → Prop} {R : β → Buffer → View → List Symbol → Prop}

theorem mono (h : p.YieldsFrom kept ts b v₀ v Q) (imp : ∀ a b' w u, v.Gains kept ts u w → Q a b' w u → Q' a b' w u) :
    p.YieldsFrom kept ts b v₀ v Q' := fun builds a b' run clean => by
  obtain ⟨w, u, builds', gains, hQ⟩ := h builds run clean
  exact ⟨w, u, builds', gains, imp a b' w u gains hQ⟩

/-- What holds of a value and its buffer by the run alone. -/
theorem and_run (h : p.YieldsFrom kept ts b v₀ v Q) :
    p.YieldsFrom kept ts b v₀ v fun a b' w u => p.run b = .ok a b' ∧ Q a b' w u := fun builds a b' run clean => by
  obtain ⟨w, u, builds', gains, hQ⟩ := h builds run clean
  exact ⟨w, u, builds', gains, run, hQ⟩

theorem bind [Steady p] [∀ a, Steady (f a)] (h : p.YieldsFrom kept ts b v₀ v Q)
    (next : ∀ a b₁ w u, p.run b = .ok a b₁ → b₁.errors = b.errors → v.Gains kept ts u w → Q a b₁ w u →
      (f a).Yields kept ts b₁ w fun c b' x u' => R c b' x (u ++ u')) : (p >>= f).YieldsFrom kept ts b v₀ v R := by
  intro builds c b' run clean
  obtain ⟨a, b₁, first, rest⟩ := bind_eq_ok.mp run
  obtain ⟨clean₁, clean₂⟩ := (Steady.ok first).clean (Steady.ok rest) clean
  obtain ⟨w, u, builds₁, gains, hQ⟩ := h builds first clean₁
  obtain ⟨x, u', builds', gains', hR⟩ := next a b₁ w u first clean₁ gains hQ builds₁ rest clean₂
  exact ⟨x, u ++ u', builds', gains.trans gains', hR⟩

/-- A step that changes the view without a row. -/
theorem after [Steady p] [∀ a, Steady (f a)] (step : ∀ a b₁, b.Builds ts v₀ → p.run b = .ok a b₁ →
    b₁.errors = b.errors → ∃ v₁, b₁.Builds ts v₁ ∧ (f a).YieldsFrom kept ts b₁ v₁ v R) :
    (p >>= f).YieldsFrom kept ts b v₀ v R := by
  intro builds c b' run clean
  obtain ⟨a, b₁, first, rest⟩ := bind_eq_ok.mp run
  obtain ⟨clean₁, clean₂⟩ := (Steady.ok first).clean (Steady.ok rest) clean
  obtain ⟨v₁, builds₁, h⟩ := step a b₁ builds first clean₁
  exact h builds₁ rest clean₂

theorem ask {g : Buffer → α} (h : (f (g b)).YieldsFrom kept ts b v₀ v R) :
    (Parser.ask g >>= f).YieldsFrom kept ts b v₀ v R :=
  fun builds _ _ run clean => h builds run clean

theorem ite {c : Prop} [Decidable c] (pos : c → p.YieldsFrom kept ts b v₀ v Q)
    (neg : ¬ c → q.YieldsFrom kept ts b v₀ v Q) : (if c then p else q).YieldsFrom kept ts b v₀ v Q := by
  by_cases hc : c
  · rw [if_pos hc]
    exact pos hc
  · rw [if_neg hc]
    exact neg hc

/-- A closed node is the new child. -/
theorem scope [Steady p] {kind : TreeKind} {recovery : Recovery} {Q : α → Buffer → View → Prop}
    (inside : ∀ b₁, b.Leads b₁ → b₁.peek = b.peek →
      p.YieldsFrom kept ts b₁ (v₀.enter b.tree.size (.plain kind)) (v.enter b.tree.size (.plain kind)) fun a b' w u =>
        u ∈ (production kind).matches' ∧ Q a b' w) :
    (Parser.scope kind p recovery).YieldsFrom kept ts b v₀ v fun r b' w u =>
      ∃ a b₁ x, r = ⟨b.tree.size, some a⟩ ∧ Q a b₁ x ∧ b'.peek = b₁.peek ∧ w = x.leave ∧
        x.names = (b.tree.size, .plain kind) :: v.names ∧ u = [Symbol.ofNode kind x.inner.children.firstKind] ∧
        (kept → ∃ G, w = v.grow (.branch b.tree.size (.plain kind) G .nil)) := by
  intro builds r b' run clean
  obtain ⟨node, a, b₁, b₂, opened, -, inner, clean₂, rfl, rfl⟩ := exists_scope run clean
  obtain ⟨builds₁, same⟩ := openNode_builds builds opened
  obtain rfl := (openNode_ok opened).1
  obtain ⟨x, u, builds₂, gains, row, hQ⟩ := inside b₁ (Steady.ok opened) same builds₁ inner clean₂
  have label : x.inner.label = .plain kind := congrArg Prod.snd (List.cons.inj gains.names).1
  have whole : x.inner.children.row ts = u := gains.row
  refine ⟨x.leave, _, ⟨builds₂.shown.closed (w := v) gains.names, builds₂.tokens, builds₂.tidy.leave ?_⟩, gains.leave,
    a, b₂, x, rfl, hQ, rfl, rfl, gains.names, rfl, fun only => ?_⟩
  · rw [label, whole]
    exact row
  · obtain ⟨G, rfl⟩ := gains.grown only
    exact ⟨G, v.enter_grow_leave G _ _⟩

theorem pure {a : α} (h : Q a b v []) : (Pure.pure a : Parser α).Yields kept ts b v Q := fun builds _ _ run _ => by
  cases run
  exact ⟨v, [], builds, .refl v, h⟩

theorem fail {problem : Problem} : (Parser.fail problem : Parser α).YieldsFrom kept ts b v₀ v Q :=
  fun _ _ _ run => nomatch run

/-- The token to come is the new child. -/
theorem shift : Parser.shift.Yields kept ts b v fun _ _ _ u => u = [.token b.current.kind] := by
  intro builds a b' run _
  have next := (shift_ok run).1
  obtain ⟨b₁, run₁, shown⟩ := run_shift builds.shown next
  obtain rfl : b₁ = b' := (Outcome.ok.inj (run₁.symm.trans run)).2
  have leads := Steady.ok run
  have inside := Nat.le_of_lt (Buffer.hasNext_iff.mp next)
  have kind : b.current.kind = kindAt ts b.cursor := by
    rw [Buffer.current, Buffer.peek, Nat.add_zero, Nat.min_eq_left inside, builds.tokens, kindAt]
  refine ⟨_, _, ⟨shown, leads.tokens.trans builds.tokens, builds.tidy.grow trivial⟩, .grow v _, ?_⟩
  rw [kind]
  rfl

/-- What every round keeps holds at the end. -/
theorem foldWhile {more : σ → Buffer → Bool} {round : σ → Parser σ} [∀ s, Steady (round s)]
    {J : σ → Buffer → View → List Symbol → Prop}
    (keep : ∀ s b₁ w u, b.Leads b₁ → v.Gains kept ts u w → J s b₁ w u → more s b₁ = true →
      (round s).Yields kept ts b₁ w fun s' b' x u' => J s' b' x (u ++ u')) {s : σ} (start : J s b v []) :
    (Parser.foldWhile more round s).Yields kept ts b v fun a b' w u => J a b' w u ∧ more a b' = false := by
  intro builds a b' run clean
  let I : σ → Buffer → Prop := fun s b₁ => ∃ w u, b₁.Builds ts w ∧ v.Gains kept ts u w ∧ J s b₁ w u
  have rounds : ∀ s b₁ s' b₂, b.Leads b₁ → I s b₁ → more s b₁ = true → (round s).run b₁ = .ok s' b₂ →
      b₂.errors = b₁.errors → I s' b₂ := by
    intro s b₁ s' b₂ leads ⟨w, u, builds₁, gains, hJ⟩ go run₂ clean₂
    obtain ⟨x, u', builds₂, gains₂, hJ₂⟩ := keep s b₁ w u leads gains hJ go builds₁ run₂ clean₂
    exact ⟨x, u ++ u', builds₂, gains.trans gains₂, hJ₂⟩
  have first : I s b := ⟨v, [], builds, .refl v, start⟩
  obtain ⟨⟨w, u, builds', gains, hJ⟩, ended⟩ := foldWhile_clean rounds first run clean
  exact ⟨w, u, builds', gains, hJ, ended⟩

theorem within {kind : TreeKind} {body : Parser Unit} [Steady body] {P : Buffer → Prop} (ne : kind ≠ .shapeId)
    (inside : ∀ b₁, b.Leads b₁ → b₁.peek = b.peek →
      body.YieldsFrom kept ts b₁ (v₀.enter b.tree.size (.plain kind)) (v.enter b.tree.size (.plain kind))
        fun _ b' _ u => u ∈ (production kind).matches' ∧ P b') :
    (Parser.within kind body).YieldsFrom kept ts b v₀ v fun _ b' _ u =>
      u = [.node kind] ∧ ∃ b₁, P b₁ ∧ b'.peek = b₁.peek := by
  unfold Parser.within
  refine (scope (Q := fun _ b' _ => P b') inside).bind fun _ _ _ _ _ _ _ h => .pure ?_
  obtain ⟨_, b₁, x, -, hP, same, -, -, rfl, -⟩ := h
  exact ⟨by rw [List.append_nil, Symbol.ofNode_of_ne ne], b₁, hP, same⟩

/-- What a failure would report is not new, so there is none. -/
theorem recovering [Steady p] {recovery : Recovery} (h : p.YieldsFrom kept ts b v₀ v Q) :
    (Parser.recovering recovery p).YieldsFrom kept ts b v₀ v fun r b' w u => ∃ a, r = some a ∧ Q a b' w u := by
  intro builds r b' run clean
  obtain ⟨a, rfl, succeeded⟩ := recovering_clean run clean
  obtain ⟨w, u, builds', gains, hQ⟩ := h builds succeeded clean
  exact ⟨w, u, builds', gains, a, rfl, hQ⟩

end YieldsFrom

/-! ### Writing -/

/-- Rows of `r` are added at the innermost open node, and errors stay below error nodes. -/
structure Writes (kept : Prop) (p : Parser α) (b : Buffer) (r : Rows) : Prop where
  guards : p.Guards b
  rows : ∀ {ts v}, p.Yields kept ts b v fun _ _ _ u => u ∈ r.matches'

namespace Writes

variable {r s t : Rows}

theorem append_mem_star {u u' : List Symbol} (hu : u ∈ r.star.matches') (hu' : u' ∈ r.matches') :
    u ++ u' ∈ r.star.matches' :=
  have snoc : r.star.matches' * r.matches' ≤ r.star.matches' := kstar_mul_le_kstar
  snoc (Language.append_mem_mul hu hu')

theorem of_subset (h : p.Writes kept b r) (subset : ∀ u ∈ r.matches', u ∈ s.matches') : p.Writes kept b s :=
  ⟨h.guards, h.rows.mono fun _ _ _ _ _ among => subset _ among⟩

theorem pure (a : α) : (Pure.pure a : Parser α).Writes kept b 1 := ⟨.pure a, .pure rfl⟩

theorem fail {problem : Problem} : (Parser.fail problem : Parser α).Writes kept b r := ⟨.fail _, .fail⟩

theorem bind [Steady p] [∀ a, Steady (f a)] (h : p.Writes kept b r)
    (next : ∀ a b₁, p.run b = .ok a b₁ → (f a).Writes kept b₁ s) : (p >>= f).Writes kept b (r * s) where
  guards := h.guards.bind fun a b₁ run => (next a b₁ run).guards
  rows := h.rows.bind fun a b₁ _ _ run _ _ hu => (next a b₁ run).rows.mono fun _ _ _ _ _ hu' =>
    Language.append_mem_mul hu hu'

/-- The first part of a sequence, and then the others. -/
theorem cons [Steady p] [∀ a, Steady (f a)] {rs : List Rows} (h : p.Writes kept b r)
    (next : ∀ a b₁, p.run b = .ok a b₁ → (f a).Writes kept b₁ (sequence rs)) :
    (p >>= f).Writes kept b (sequence (r :: rs)) := h.bind next

/-- What only changes the value writes nothing. -/
theorem map [Steady p] {g : α → β} (h : p.Writes kept b r) : (p >>= fun a => Pure.pure (g a)).Writes kept b r :=
  (h.bind fun _ _ _ => pure _).of_subset (Eq.le (mul_one r.matches'))

theorem last (h : p.Writes kept b r) : p.Writes kept b (sequence [r]) :=
  h.of_subset (matches_sequence_one r).ge

theorem ask {g : Buffer → α} (h : (f (g b)).Writes kept b r) : (Parser.ask g >>= f).Writes kept b r :=
  ⟨.ask_bind h.guards, .ask h.rows⟩

theorem ite {c : Prop} [Decidable c] (pos : c → p.Writes kept b r) (neg : ¬ c → q.Writes kept b r) :
    (if c then p else q).Writes kept b r :=
  ⟨.ite (fun hc => (pos hc).guards) fun hc => (neg hc).guards, .ite (fun hc => (pos hc).rows) fun hc => (neg hc).rows⟩

theorem whenever {c : Prop} [Decidable c] {a : α} (pos : c → p.Writes kept b r) :
    (if c then p else Pure.pure a).Writes kept b (optional r) := by
  refine .ite (fun hc => (pos hc).of_subset ?_) fun _ => (pure a).of_subset ?_
  · exact fun _ => Or.inr
  · exact fun _ => Or.inl

/-! ### Tokens -/

theorem shift_at {k : TokenKind} (here : b.current.kind = k) (sound : k ≠ .error) :
    Parser.shift.Writes kept b (tok k) where
  guards := .shift (here ▸ sound)
  rows := YieldsFrom.shift.mono fun _ _ _ _ _ hu => by
    rw [hu, here]
    rfl

theorem next_at {k : TokenKind} (here : b.current.kind = k) (sound : k ≠ .error) :
    Parser.next.Writes kept b (tok k) := by
  unfold Parser.next
  exact .ask (.ite (fun _ => .ask (shift_at here sound).map) fun _ => .fail)

theorem consumeAny_at {k : TokenKind} (here : b.current.kind = k) (sound : k ≠ .error) :
    Parser.consumeAny.Writes kept b (tok k) := by
  unfold Parser.consumeAny
  exact (next_at here sound).map

/-- What only looks writes nothing. -/
theorem look_bind [Steady p] [Looks p] [∀ a, Steady (f a)] (h : ∀ a, p.run b = .ok a b → (f a).Writes kept b r) :
    (p >>= f).Writes kept b r where
  guards := .look_bind fun a run => (h a run).guards
  rows := fun builds a b' run clean => by
    obtain ⟨k, b₁, found, rest⟩ := bind_eq_ok.mp run
    obtain rfl := Looks.ok found
    exact (h k found).rows builds rest clean

theorem expectAny_bind {kinds : TokenSet} {f : TokenKind → Parser β} [∀ k, Steady (f k)]
    (h : kinds.contains b.current.kind = true → (f b.current.kind).Writes kept b r) :
    (Parser.expectAny kinds >>= f).Writes kept b r := look_bind fun k run => by
  obtain ⟨-, rfl, among⟩ := expectAny_ok run
  exact h among

theorem expect_bind {k : TokenKind} {f : Unit → Parser β} [∀ a, Steady (f a)]
    (h : b.current.kind = k → (f ()).Writes kept b r) : (Parser.expect k >>= f).Writes kept b r :=
  look_bind fun _ run => h (expect_ok run).2

theorem consume {k : TokenKind} (sound : k ≠ .error) : (Parser.consume k).Writes kept b (tok k) := by
  unfold Parser.consume
  exact .expect_bind fun here => (next_at here sound).map

/-! ### Repetitions -/

section
variable {more : σ → Buffer → Bool} {round : σ → Parser σ} [∀ s, Steady (round s)] {s : σ}

theorem foldWhile (rounds : ∀ s b₁, b.Leads b₁ → more s b₁ = true → (round s).Writes kept b₁ r) :
    (Parser.foldWhile more round s).Writes kept b r.star where
  guards := .foldWhile (I := fun _ => b.Leads) (fun _ _ _ _ leads _ run => leads.trans (Steady.ok run))
    (fun s b₁ leads go => (rounds s b₁ leads go).guards) (.refl b)
  rows := (YieldsFrom.foldWhile (J := fun _ _ _ u => u ∈ r.star.matches') (fun s b₁ _ _ leads _ hu go =>
    (rounds s b₁ leads go).rows.mono fun _ _ _ _ _ hu' => append_mem_star hu hu')
    (Language.nil_mem_kstar _)).mono fun _ _ _ _ _ h => h.1

/-- A repetition that begins has at least one round. -/
theorem foldWhile_plus (rounds : ∀ s b₁, b.Leads b₁ → more s b₁ = true → (round s).Writes kept b₁ r)
    (go : b.EndsWithEof → more s b = true) : (Parser.foldWhile more round s).Writes kept b (plus r) where
  guards :=
    have rows : (Parser.foldWhile more round s).Writes kept b r.star := foldWhile rounds
    rows.guards
  rows := fun builds => by
    refine (YieldsFrom.foldWhile (J := fun s' b₁ _ u => (s' = s ∧ b₁ = b ∧ u = []) ∨ u ∈ (plus r).matches')
      (fun s' b₁ _ u leads _ hu more' => (rounds s' b₁ leads more').rows.mono fun _ _ _ u' _ hu' => .inr ?_)
      (.inl ⟨rfl, rfl, rfl⟩)).mono (fun a b' w u _ h => ?_) builds
    · rcases hu with ⟨-, -, rfl⟩ | hu
      · exact Language.mem_mul.mpr ⟨u', hu', [], Language.nil_mem_kstar _, by simp⟩
      · obtain ⟨first, hfirst, rest, hrest, rfl⟩ := hu
        rw [List.append_assoc]
        exact Language.append_mem_mul hfirst (append_mem_star hrest hu')
    · obtain ⟨⟨rfl, rfl, -⟩ | hu, ended⟩ := h
      · rw [go builds.shown.ends] at ended
        cases ended
      · exact hu

end

theorem repeatWhile {more : Buffer → Bool} {round : Parser Unit} [Steady round]
    (rounds : ∀ b₁, b.Leads b₁ → more b₁ = true → round.Writes kept b₁ r) :
    (Parser.repeatWhile more round).Writes kept b r.star := foldWhile fun _ => rounds

section
variable {kinds : TokenKind → Bool} (sound : kinds .error = false)
  (among : ∀ k, kinds k = true → [Symbol.token k] ∈ r.matches')
include sound among

theorem shift_of_kinds {b₁ : Buffer} (go : (b₁.hasNext && kinds b₁.current.kind) = true) :
    Parser.shift.Writes kept b₁ r := by
  have here : kinds b₁.current.kind = true := (Bool.and_eq_true_iff.mp go).2
  refine (shift_at rfl fun error => ?_).of_subset ?_
  · rw [error, sound] at here
    cases here
  · rintro _ rfl
    exact among _ here

theorem shiftKinds : (Parser.shiftKinds kinds).Writes kept b r.star :=
  foldWhile fun _ _ _ go => shift_of_kinds sound among go

theorem shiftKinds_plus (here : kinds b.current.kind = true) (ends : kinds .eof = false) :
    (Parser.shiftKinds kinds).Writes kept b (plus r) := by
  refine foldWhile_plus (fun _ _ _ go => shift_of_kinds sound among go) fun eof => ?_
  refine Bool.and_eq_true_iff.mpr ⟨eof.hasNext fun last => ?_, here⟩
  rw [last, ends] at here
  cases here

end

/-! ### Scopes -/

/-- A node whose children write a row of `r`, and which then is a symbol of `s`. -/
theorem scope_of [Steady p] {kind : TreeKind} {recovery : Recovery} (sound : kind ≠ .error)
    (subset : ∀ u ∈ r.matches', u ∈ (production kind).matches')
    (symbol : ∀ u ∈ r.matches', [Symbol.ofNode kind (u.head?.map Symbol.kind)] ∈ s.matches')
    (inside : ∀ b₁, b.Leads b₁ → b₁.peek = b.peek → p.Writes kept b₁ r) :
    (Parser.scope kind p recovery).Writes kept b s where
  guards := .scope sound fun b₁ leads same => (inside b₁ leads same).guards
  rows {ts v} := by
    refine (YieldsFrom.scope (Q := fun _ _ x => x.inner.children.row ts ∈ r.matches') fun b₁ leads same =>
      (inside b₁ leads same).rows.mono fun _ _ x u gains hu => ⟨subset _ hu, ?_⟩).mono fun _ _ _ _ _ h => ?_
    · have row : x.inner.children.row ts = u := gains.row
      rwa [row]
    · obtain ⟨_, _, x, -, hx, -, -, -, rfl, -⟩ := h
      rw [Forest.firstKind_eq ts]
      exact symbol _ hx

theorem scope [Steady p] {kind : TreeKind} {recovery : Recovery} (ne : kind ≠ .shapeId ∧ kind ≠ .error)
    (inside : ∀ b₁, b.Leads b₁ → b₁.peek = b.peek → p.Writes kept b₁ (production kind)) :
    (Parser.scope kind p recovery).Writes kept b (one kind) :=
  scope_of ne.2 (fun _ => id) (fun _ _ => congrArg (fun s => [s]) (Symbol.ofNode_of_ne ne.1 _)) inside

theorem within {kind : TreeKind} {body : Parser Unit} [Steady body]
    (ne : kind ≠ .shapeId ∧ kind ≠ .error)
    (inside : ∀ b₁, b.Leads b₁ → b₁.peek = b.peek → body.Writes kept b₁ (production kind)) :
    (Parser.within kind body).Writes kept b (one kind) :=
  (scope ne inside).map

end Writes

end Parser

end SmithyIdl
