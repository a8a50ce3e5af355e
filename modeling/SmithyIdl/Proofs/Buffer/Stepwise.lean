import SmithyIdl.Proofs.Buffer.Lockstep
import SmithyIdl.Proofs.Buffer.Scopes
import SmithyIdl.Proofs.Buffer.Traced

/-! # Step by step

A traced parser is stepwise if it is put together from single steps, so that it notes every buffer on the way. What is
in lockstep with itself can be traced in this way. Since a scope is refused where too many nodes are open, and a
refusal opens no more than an error node, the number of open nodes is bounded at every moment. -/

namespace SmithyIdl

open SmithyIdl.Parser (Recovery Closed Steady KeepsOpen)

namespace Traced

variable {α β σ : Type}

/-! ### Repetitions -/

/-- Repeats a step with a state. Every round has to leave fewer tokens than `left`. -/
def foldBelow (more : σ → Buffer → Bool) (round : σ → Traced σ) (left : Nat) (s : σ) (b : Buffer) :
    List Buffer × Outcome σ :=
  if more s b then
    match round s b with
    | (notes, .ok s after) =>
      if after.remaining < left then
        let rest := foldBelow more round after.remaining s after
        (notes ++ rest.1, rest.2)
      else (notes, .fault .stalled)
    | (notes, .error cause after) => (notes, .error cause after)
    | (notes, .fault why) => (notes, .fault why)
  else ([], .ok s b)
termination_by left

/-- Repeats a step with a state, as long as the state and the buffer ask for more. -/
def foldWhile (more : σ → Buffer → Bool) (round : σ → Traced σ) (s : σ) : Traced σ := fun b =>
  foldBelow more round b.remaining s b

theorem foldBelow_snd (more : σ → Buffer → Bool) (round : σ → Traced σ) (left : Nat) (s : σ) (b : Buffer) :
    (foldBelow more round left s b).2 = Parser.foldBelow more (fun s => (round s).parser) left s b := by
  induction left using Nat.strongRecOn generalizing s b with
  | ind left ih =>
    rw [foldBelow, Parser.foldBelow, parser]
    by_cases go : more s b = true
    · rw [if_pos go, if_pos go]
      obtain ⟨notes, out⟩ := round s b
      cases out with
      | ok s after =>
        by_cases fewer : after.remaining < left
        · simp only [fewer, if_true]
          exact ih _ fewer s after
        · simp only [fewer, if_false]
      | error cause after => rfl
      | fault why => rfl
    · rw [if_neg go, if_neg go]

@[simp] theorem parser_foldWhile (more : σ → Buffer → Bool) (round : σ → Traced σ) (s : σ) :
    (foldWhile more round s).parser = Parser.foldWhile more (fun s => (round s).parser) s :=
  funext fun b => foldBelow_snd more round b.remaining s b

@[simp] theorem parser_recovering (recovery : Recovery) (p : Traced α) :
    (recovering recovery p).parser = Parser.recovering recovery p.parser := by
  simp only [recovering, Parser.recovering, parser_bind, parser_attempt]
  congr 1
  funext r
  cases r <;> simp

/-! ### Steps -/

/-- Put together from single steps, with a note behind each of them. -/
inductive Stepwise : {α : Type} → Traced α → Prop where
  | pure {α : Type} (a : α) : Stepwise (Pure.pure a : Traced α)
  | ask {α : Type} (f : Buffer → α) : Stepwise (note (Parser.ask f))
  | fail {α : Type} (problem : Problem) : Stepwise (note (Parser.fail problem : Parser α))
  | abort {α : Type} (why : Fault) : Stepwise (note (Parser.abort why : Parser α))
  | shift : Stepwise (note Parser.shift)
  | reportMissing (problem : Problem) : Stepwise (note (Parser.reportMissing problem))
  | adoptDocs (docs : Option NodeId) : Stepwise (note (Parser.adoptDocs docs))
  | detach (node : NodeId) : Stepwise (note (Parser.detach node))
  | attach (node : NodeId) : Stepwise (note (Parser.attach node))
  | encloseInError (node : NodeId) (problem : Problem) : Stepwise (note (Parser.encloseInError node problem))
  | bind {α β : Type} {p : Traced α} {f : α → Traced β} (first : Stepwise p) (next : ∀ a, Stepwise (f a)) :
      Stepwise (p >>= f)
  | foldWhile {σ : Type} {more : σ → Buffer → Bool} {round : σ → Traced σ} (rounds : ∀ s, Stepwise (round s)) (s : σ) :
      Stepwise (foldWhile more round s)
  | recovering {α : Type} {p : Traced α} (recovery : Recovery) (inside : Stepwise p) : Stepwise (recovering recovery p)
  | scope {α : Type} {p : Traced α} (kind : TreeKind) (inside : Stepwise p) (recovery : Recovery) :
      Stepwise (scope kind p recovery)

variable {p : Traced α} {f : α → Traced β}

theorem Stepwise.keepsOpen (h : Stepwise p) : KeepsOpen p.parser := by
  induction h with
  | pure | ask | fail | abort | shift | reportMissing | adoptDocs | detach | attach | encloseInError =>
    simp only [parser_pure, parser_note]
    infer_instance
  | bind _ _ ih ihnext =>
    rw [parser_bind]
    infer_instance
  | foldWhile _ s ih =>
    rw [parser_foldWhile]
    infer_instance
  | recovering recovery _ ih =>
    rw [parser_recovering]
    infer_instance
  | scope kind _ recovery ih =>
    rw [parser_scope]
    infer_instance

theorem Stepwise.steady (h : Stepwise p) : Steady p.parser := by
  induction h with
  | pure | ask | fail | abort | shift | reportMissing | adoptDocs | detach | attach | encloseInError =>
    simp only [parser_pure, parser_note]
    infer_instance
  | bind _ _ ih ihnext =>
    rw [parser_bind]
    infer_instance
  | foldWhile _ s ih =>
    rw [parser_foldWhile]
    infer_instance
  | recovering recovery _ ih =>
    rw [parser_recovering]
    infer_instance
  | scope kind _ recovery ih =>
    rw [parser_scope]
    infer_instance

/-! ### Open nodes -/

/-- At most `limit` nodes are open behind each step. -/
def Nests (p : Traced α) (limit : Nat) (b : Buffer) : Prop := ∀ m ∈ (p b).1, m.openNodes.length ≤ limit

section
variable {limit : Nat} {b : Buffer}

theorem Nests.pure (a : α) : (Pure.pure a : Traced α).Nests limit b := List.forall_mem_nil _

theorem Nests.note {q : Parser α} (h : ∀ {b'}, (q.run b).buffer? = some b' → b'.openNodes.length ≤ limit) :
    (note q).Nests limit b := by
  intro m among
  exact h (Option.mem_toList.mp among)

theorem Nests.step (q : Parser α) [KeepsOpen q] (h : b.openNodes.length ≤ limit) : (Traced.note q).Nests limit b :=
  .note fun left => Nat.le_trans (Nat.le_of_eq (congrArg List.length (KeepsOpen.same left))) h

theorem Nests.bind (h : p.Nests limit b) (next : ∀ {a b'}, p.parser.run b = .ok a b' → (f a).Nests limit b') :
    (p >>= f).Nests limit b := by
  intro m among
  rw [bind_apply] at among
  have first := h
  have behind := @next
  rw [Nests] at first
  rw [Parser.run, parser] at behind
  rcases run : p b with ⟨notes, out⟩
  rw [run] at among first
  cases out with
  | ok a b' =>
    rcases List.mem_append.mp among with early | late
    · exact first m early
    · exact behind (by rw [run]) m late
  | error e b' => exact first m among
  | fault why => exact first m among

theorem Nests.attempt (h : p.Nests limit b) : p.attempt.Nests limit b := by
  intro m among
  rw [Traced.attempt] at among
  rw [Nests] at h
  rcases run : p b with ⟨notes, out⟩
  rw [run] at among h
  cases out <;> exact h m among

theorem Nests.shifts (kinds : Token → Bool) {n : Nat} (h : b.openNodes.length ≤ limit) :
    (shifts kinds n).Nests limit b := by
  induction n generalizing b with
  | zero => exact .pure ()
  | succ n ih =>
    rw [Traced.shifts]
    refine .bind (.step _ h) fun {more b'} asked => ?_
    cases asked
    split
    · exact .bind (.step _ h) fun taken => ih (Nat.le_trans (Nat.le_of_eq (congrArg List.length (KeepsOpen.ok (p := Parser.shift) taken))) h)
    · exact .pure ()

theorem Nests.recover (recovery : Recovery) (h : b.openNodes.length ≤ limit) : (recover recovery).Nests limit b := by
  cases recovery with
  | statement => exact .shifts _ h
  | endOfText => exact .shifts _ h
  | none => exact .pure ()

/-- The error node is open until the recovery ends. -/
theorem Nests.report (e : SyntaxError) (recovery : Recovery) (h : b.openNodes.length + 1 ≤ limit) :
    (report e recovery).Nests limit b := by
  have here : b.openNodes.length ≤ limit := Nat.le_of_succ_le h
  rw [Traced.report]
  refine .bind (.step _ here) fun {node b₁} added => ?_
  have same : b₁.openNodes = b.openNodes := KeepsOpen.ok (p := Parser.addError _) added
  refine .bind (.step _ (same ▸ here)) fun {next b₂} asked => ?_
  cases asked
  have pushed : ({ b₁ with openNodes := node :: b₁.openNodes } : Buffer).openNodes.length ≤ limit := by
    rw [List.length_cons, same]
    exact h
  split
  · refine .bind (.note fun left => Option.some.inj left ▸ pushed) fun {_ b₂} run => ?_
    cases run
    refine .bind (.step _ pushed) fun {_ b₃} taken => ?_
    have kept : b₃.openNodes = node :: b₁.openNodes := KeepsOpen.ok (p := Parser.shift) taken
    refine .bind (.recover recovery (kept ▸ pushed)) fun {_ b₄} recovered => ?_
    have kept' : b₄.openNodes = b₃.openNodes := by
      rw [parser_recover] at recovered
      exact KeepsOpen.ok recovered
    refine .note fun {b₅} left => ?_
    cases left
    change b₄.openNodes.tail.length ≤ limit
    rw [kept', kept, List.tail_cons, same]
    exact here
  · exact .pure ()

theorem Nests.recovering (h : p.Nests limit b) [KeepsOpen p.parser] (recovery : Recovery)
    (room : b.openNodes.length + 1 ≤ limit) : (recovering recovery p).Nests limit b := by
  refine .bind h.attempt fun {r b'} caught => ?_
  rw [parser_attempt] at caught
  have same : b'.openNodes = b.openNodes := KeepsOpen.ok caught
  cases r with
  | ok a => exact .pure _
  | error e => exact .bind (.report e recovery (same ▸ room)) fun _ => .pure none

/-- A node that is refused stays open for the report of this. -/
theorem Nests.scope [KeepsOpen p.parser] [Steady p.parser] (kind : TreeKind) (recovery : Recovery)
    (room : b.openNodes.length ≤ max b.maxDepth 1)
    (h : ∀ b', b'.maxDepth = b.maxDepth → b'.openNodes.length ≤ max b'.maxDepth 1 →
      p.Nests (max b'.maxDepth 1 + 2) b') : (scope kind p recovery).Nests (max b.maxDepth 1 + 2) b := by
  refine .bind (.note fun {b₁} left => ?_) fun {node b₁} opened => ?_
  · cases run : (Parser.openNode kind).run b with
    | ok node b₂ =>
      rw [run] at left
      cases left
      rw [KeepsOpen.openNode_ok run, List.length_cons]
      omega
    | error e b₂ => exact absurd run Parser.Unfailing.not_error
    | fault why =>
      rw [run] at left
      cases left
  · have opened' : b₁.openNodes = node :: b.openNodes := KeepsOpen.openNode_ok opened
    have maxDepth : b₁.maxDepth = b.maxDepth := (Steady.ok (p := Parser.openNode kind) opened).maxDepth
    have length : b₁.openNodes.length = b.openNodes.length + 1 := congrArg List.length opened'
    have inside : (limited p).Nests (max b.maxDepth 1 + 2) b₁ := by
      refine .bind (.step _ (by omega)) fun {deep b₂} asked => ?_
      cases asked
      split
      · exact .step _ (by omega)
      · next fits =>
        rw [Buffer.isTooDeep, decide_eq_true_iff] at fits
        exact maxDepth ▸ h b₁ maxDepth (by omega)
    have : KeepsOpen (limited p).parser := by
      simp only [limited, parser_bind, parser_note, parser_ite]
      infer_instance
    refine .bind (inside.recovering recovery (by omega)) fun {value b₂} caught => ?_
    rw [parser_recovering] at caught
    have same : b₂.openNodes = b₁.openNodes := KeepsOpen.ok caught
    refine .bind (.note fun {b₃} left => ?_) fun _ => .pure _
    cases run : (Parser.closeNode node).run b₂ with
    | ok _ b₄ =>
      rw [run] at left
      cases left
      rw [Parser.closeNode_ok run]
      change b₂.openNodes.tail.length ≤ _
      rw [List.length_tail, same]
      omega
    | error e b₄ => exact absurd run Parser.Unfailing.not_error
    | fault why =>
      rw [run] at left
      cases left

end

/-- By induction on the steps: where no more nodes are open than may be, no more than two others are opened. -/
theorem Stepwise.nests (h : Stepwise p) (b : Buffer) (room : b.openNodes.length ≤ max b.maxDepth 1) :
    p.Nests (max b.maxDepth 1 + 2) b := by
  induction h generalizing b with
  | pure a => exact .pure a
  | ask | fail | abort | shift | reportMissing | adoptDocs | detach | attach | encloseInError =>
    exact .step _ (Nat.le_add_right_of_le room)
  | bind first next ih ihnext =>
    refine .bind (ih b room) fun {a b'} run => ?_
    have := first.keepsOpen
    have := first.steady
    have same := KeepsOpen.ok run
    have maxDepth := (Steady.ok run).maxDepth
    have behind := ihnext a b' (by rw [same, maxDepth]; exact room)
    rwa [maxDepth] at behind
  | @foldWhile σ more round rounds s ih =>
    intro m among
    change m ∈ (foldBelow more round b.remaining s b).1 at among
    generalize b.remaining = left at among
    induction left using Nat.strongRecOn generalizing s b with
    | ind left ihleft =>
      rw [foldBelow] at among
      by_cases go : more s b = true
      · rw [if_pos go] at among
        have first := ih s b room
        rw [Nests] at first
        have := (rounds s).keepsOpen
        have := (rounds s).steady
        rcases run : round s b with ⟨notes, out⟩
        rw [run] at among first
        cases out with
        | ok s' after =>
          have taken : (round s).parser.run b = .ok s' after := by rw [Parser.run, parser, run]
          by_cases fewer : after.remaining < left
          · simp only [fewer, if_true] at among
            rcases List.mem_append.mp among with early | late
            · exact first m early
            · have maxDepth := (Steady.ok taken).maxDepth
              have behind := ihleft _ fewer s' after (by rw [KeepsOpen.ok taken, maxDepth]; exact room) late
              rwa [maxDepth] at behind
          · simp only [fewer, if_false] at among
            exact first m among
        | error e after => exact first m among
        | fault why => exact first m among
      · rw [if_neg go] at among
        cases among
  | recovering recovery inside ih =>
    have := inside.keepsOpen
    exact (ih b room).recovering recovery (by omega)
  | scope kind inside recovery ih =>
    have := inside.keepsOpen
    have := inside.steady
    exact .scope kind recovery room fun b' _ room' => ih b' room'

end Traced

/-! ### Tracing what is in lockstep -/

/-- Repetitions are the same if their rounds are, from the states that are met. -/
theorem Parser.foldBelow_congr {σ : Type} {more : σ → Buffer → Bool} {round round' : σ → Parser σ} {I : σ → Prop}
    (same : ∀ s, I s → round' s = round s)
    (keep : ∀ {s s₁ : σ} {b b₁ : Buffer}, I s → (round s).run b = .ok s₁ b₁ → I s₁) {left : Nat} {s : σ} {b : Buffer}
    (start : I s) : foldBelow more round' left s b = foldBelow more round left s b := by
  induction left using Nat.strongRecOn generalizing s b with
  | ind left ih =>
    rw [foldBelow, foldBelow, same s start]
    by_cases go : more s b = true
    · rw [if_pos go, if_pos go]
      cases taken : round s b with
      | ok s₁ after =>
        by_cases fewer : after.remaining < left
        · simp only [fewer, if_true]
          exact ih _ fewer (keep start taken)
        · simp only [fewer, if_false]
      | error e after => rfl
      | fault why => rfl
    · rw [if_neg go, if_neg go]

namespace Lockstep

open Traced (Stepwise)

variable {α β : Type} {R : α → β → Prop} {p : Parser α} {q : Parser β} {M : Matching}

/-- A stepwise parser that is `p`, and what is known of the values of `p`. -/
structure Traces (R : α → β → Prop) (p : Parser α) (t : Traced α) : Prop where
  stepwise : Stepwise t
  parser : t.parser = p
  value : ∀ {b b' : Buffer} {a : α}, p.run b = .ok a b' → ∃ a', R a a'

/-- Where it matters which value a parser goes on from, this is known to belong to another one. -/
theorem choose_traces {γ δ : Type} {S : γ → δ → Prop} {f : α → Parser γ}
    (h : ∀ a a', R a a' → ∃ t, Traces S (f a) t) :
    ∃ g : α → Traced γ, (∀ a, Stepwise (g a)) ∧ ∀ a a', R a a' → (g a).parser = f a := by
  have each (a : α) : ∃ t : Traced γ, Stepwise t ∧ ∀ a', R a a' → t.parser = f a := by
    by_cases met : ∃ a', R a a'
    · obtain ⟨a', related⟩ := met
      obtain ⟨t, traces⟩ := h a a' related
      exact ⟨t, traces.stepwise, fun _ _ => traces.parser⟩
    · exact ⟨_, .abort .stalled, fun a' related => absurd ⟨a', related⟩ met⟩
  obtain ⟨g, found⟩ := Classical.axiomOfChoice each
  exact ⟨g, fun a => (found a).1, fun a => (found a).2⟩

theorem exists_traces (h : Lockstep .self R p q) : ∃ t, Traces R p t := by
  have stop {α β : Type} {R : α → β → Prop} {problem : Problem} :
      Traces R (Parser.fail problem) (.note (Parser.fail problem)) := ⟨.fail problem, rfl, nofun⟩
  have same {p : Parser Unit} {t : Traced Unit} (stepwise : Stepwise t) (parser : t.parser = p) : Traces Eq p t :=
    ⟨stepwise, parser, fun _ => ⟨(), rfl⟩⟩
  induction h with
  | @pure α β R a a' h =>
    refine ⟨_, .pure a, rfl, fun run => ?_⟩
    cases run
    exact ⟨a', h⟩
  | @bind α β γ δ R S p q f g _ first next ih ihnext =>
    obtain ⟨t, first⟩ := ih
    obtain ⟨u, stepwise, same⟩ := choose_traces ihnext
    refine ⟨t >>= u, .bind first.stepwise stepwise, ?_, fun run => ?_⟩
    · funext b
      rw [Traced.parser_bind, first.parser]
      change (p.run b).andThen (fun a => (u a).parser) = (p.run b).andThen f
      cases run : p.run b with
      | ok a b₁ =>
        obtain ⟨a', related⟩ := first.value run
        exact congrFun (same a a' related) b₁
      | error e b₁ => rfl
      | fault why => rfl
    · obtain ⟨a, b₁, run, rest⟩ := Parser.bind_eq_ok.mp run
      obtain ⟨a', related⟩ := first.value run
      obtain ⟨_, behind⟩ := ihnext a a' related
      exact behind.value rest
  | @ask α β R f g h =>
    refine ⟨_, .ask f, rfl, fun {b b' a} run => ?_⟩
    cases run
    exact ⟨g b, h b b (Matching.alone_sees ..)⟩
  | room => exact ⟨_, .ask _, rfl, fun {_ _ a} _ => ⟨a, .inl rfl⟩⟩
  | errorCount => exact ⟨_, .ask _, rfl, fun {_ _ a} _ => ⟨a, rfl⟩⟩
  | fail => exact ⟨_, stop⟩
  | refused lenient => exact lenient.elim
  | shift => exact ⟨_, same .shift rfl⟩
  | @foldWhile σ σ' S more more' round round' s s' _ start again rounds ih =>
    obtain ⟨u, stepwise, same⟩ := choose_traces ih
    have kept {s : σ} {b b₁ : Buffer} {s₁ : σ} (known : ∃ s', S s s') (run : (round s).run b = .ok s₁ b₁) :
        ∃ s', S s₁ s' := by
      obtain ⟨s', related⟩ := known
      obtain ⟨_, traces⟩ := ih s s' related
      exact traces.value run
    refine ⟨Traced.foldWhile more u s, .foldWhile stepwise s, ?_, fun run => ?_⟩
    · rw [Traced.parser_foldWhile]
      funext b
      exact Parser.foldBelow_congr (fun s ⟨s', related⟩ => same s s' related) kept ⟨s', start⟩
    · exact (Parser.foldWhile_ok (I := fun s _ => ∃ s', S s s') (fun _ _ _ _ known _ => kept known) ⟨s', start⟩ run).1
  | @recovering α β R p q inside recovery ih =>
    obtain ⟨t, traces⟩ := ih
    refine ⟨_, .recovering recovery traces.stepwise, by rw [Traced.parser_recovering, traces.parser], fun run => ?_⟩
    rcases Parser.recovering_ok run with ⟨a, rfl, inner⟩ | ⟨rfl, -⟩
    · obtain ⟨a', related⟩ := traces.value inner
      exact ⟨some a', .some related⟩
    · exact ⟨none, .none⟩
  | @scope α β R p q kind _ inside recovery ih =>
    obtain ⟨t, traces⟩ := ih
    have : Steady p := traces.parser ▸ traces.stepwise.steady
    refine ⟨_, .scope kind traces.stepwise recovery, by rw [Traced.parser_scope, traces.parser], fun {b b' r} run => ?_⟩
    obtain ⟨-, inner⟩ := Parser.scope_ok run
    obtain ⟨node, value⟩ := r
    cases value with
    | none => exact ⟨⟨node, none⟩, ⟨rfl, trivial⟩, .none⟩
    | some a =>
      obtain ⟨b₁, b₂, -, -, run, -⟩ := inner a rfl
      obtain ⟨a', related⟩ := traces.value run
      exact ⟨⟨node, some a'⟩, ⟨rfl, trivial⟩, .some related⟩
  | docs kinds =>
    have taken : Stepwise (.foldWhile (fun _ b => b.hasNext && kinds b.current.kind) (fun _ => .note Parser.shift) ()) :=
      .foldWhile (fun _ => .shift) ()
    refine ⟨_, .scope .whitespace taken .statement, ?_, fun {_ _ r} _ => ?_⟩
    · rw [Traced.parser_scope, Traced.parser_foldWhile]
      rfl
    · obtain ⟨node, value⟩ := r
      exact ⟨⟨node, value⟩, ⟨rfl, trivial⟩, by cases value <;> constructor; rfl⟩
  | reportMissing => exact ⟨_, same (.reportMissing _) rfl⟩
  | @adoptDocs d => exact ⟨_, same (.adoptDocs (some d)) rfl⟩
  | detach => exact ⟨_, same (.detach _) rfl⟩
  | attach => exact ⟨_, same (.attach _) rfl⟩
  | encloseInError => exact ⟨_, same (.encloseInError _ _) rfl⟩

end Lockstep

end SmithyIdl
