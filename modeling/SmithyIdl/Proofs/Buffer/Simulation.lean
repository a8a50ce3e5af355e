import SmithyIdl.Proofs.Buffer.Lockstep
import SmithyIdl.Proofs.Buffer.Scopes

/-! # Simulations

A simulation relates the buffers of two runs so that every single step keeps them related. Parsers in lockstep then
give related buffers and values, and fail together. The first run may get lost, which it stays; nothing is known of the
second one from there on. -/

namespace SmithyIdl

open SmithyIdl.Parser (Recovery Closed Steady)

/-! ### Tokens to come -/

namespace Matching.Sees

variable {M : Matching} {b b' b₁ b₁' : Buffer} (h : M.Sees b b')
include h

/-- Where no token is taken, the same ones come. -/
theorem step (leads : b.Leads b₁) (leads' : b'.Leads b₁') (here : b₁.cursor = b.cursor) (here' : b₁'.cursor = b'.cursor) :
    M.Sees b₁ b₁' where
  remaining := by
    rw [Buffer.remaining, Buffer.remaining, leads.eof, leads'.eof, here, here']
    exact h.remaining
  peek k := by
    rw [Buffer.peek, Buffer.peek, leads.tokens, leads'.tokens, leads.eof, leads'.eof, here, here']
    exact h.peek k

theorem shift (run : Parser.shift.run b = .ok () b₁) (run' : Parser.shift.run b' = .ok () b₁') : M.Sees b₁ b₁' where
  remaining := by
    have left := h.remaining
    rw [Buffer.remaining, Buffer.remaining] at left ⊢
    rw [(Steady.ok run).eof, (Steady.ok run').eof, Parser.shift_cursor run, Parser.shift_cursor run']
    omega
  peek k := by
    rw [Parser.shift_peek run, Parser.shift_peek run']
    exact h.peek (k + 1)

end Matching.Sees

/-! ### Simulations -/

/-- Related buffers, and what each step does to them where it meets a fault in neither run. -/
structure Simulation (M : Matching) where
  same : Buffer → Buffer → Prop
  lost : Buffer → Prop
  lost_leads : ∀ {b b₁}, b.Leads b₁ → lost b → lost b₁
  /-- A refusal that only the first run meets gets it lost. -/
  refused : ∀ {b b₁ mark i}, M.lenient → mark.problem = .tooDeep → (Parser.addError mark).run b = .ok i b₁ → lost b₁
  docs_of_node : ∀ {i i'}, M.node i i' → M.docs i i'
  sees : ∀ {b b'}, same b b' → M.Sees b b'
  errors : ∀ {b b'}, same b b' → M.errors b.errors b'.errors
  room : ∀ {b b'}, same b b' →
    M.room (b.maxDepth - b.openNodes.length) (b'.maxDepth - b'.openNodes.length)
  deep : ∀ {b b'}, same b b' → b'.isTooDeep = b.isTooDeep ∨ M.lenient ∧ b.isTooDeep = true
  push : ∀ {b b' i i'}, same b b' → M.node i i' →
    same { b with openNodes := i :: b.openNodes } { b' with openNodes := i' :: b'.openNodes }
  pop : ∀ {b b'}, same b b' → same { b with openNodes := b.openNodes.tail } { b' with openNodes := b'.openNodes.tail }
  shift : ∀ {b b' b₁ b₁'}, same b b' → Parser.shift.run b = .ok () b₁ → Parser.shift.run b' = .ok () b₁' → same b₁ b₁'
  openNode : ∀ {b b' b₁ b₁' kind i i'}, same b b' → (Parser.openNode kind).run b = .ok i b₁ →
    (Parser.openNode kind).run b' = .ok i' b₁' → M.node i i' ∧ same b₁ b₁'
  addError : ∀ {b b' b₁ b₁' problem problem' i i'}, same b b' → problem.Like M.toLikeness problem' →
    (Parser.addError (Parser.markOf (b.syntaxError problem))).run b = .ok i b₁ →
    (Parser.addError (Parser.markOf (b'.syntaxError problem'))).run b' = .ok i' b₁' → M.node i i' ∧ same b₁ b₁'
  adoptDocs : ∀ {b b' b₁ b₁' d d'}, same b b' → M.docs d d' → (Parser.adoptDocs (some d)).run b = .ok () b₁ →
    (Parser.adoptDocs (some d')).run b' = .ok () b₁' → same b₁ b₁'
  detach : ∀ {b b' b₁ b₁' d d'}, M.moves → same b b' → M.node d d' → (Parser.detach d).run b = .ok () b₁ →
    (Parser.detach d').run b' = .ok () b₁' → same b₁ b₁'
  attach : ∀ {b b' b₁ b₁' d d'}, M.moves → same b b' → M.node d d' → (Parser.attach d).run b = .ok () b₁ →
    (Parser.attach d').run b' = .ok () b₁' → same b₁ b₁'
  encloseInError : ∀ {b b' b₁ b₁' d d' problem}, M.encloses → same b b' → M.node d d' →
    problem.encloses = true → (Parser.encloseInError d problem).run b = .ok () b₁ →
    (Parser.encloseInError d' problem).run b' = .ok () b₁' → same b₁ b₁'

namespace Simulation

variable {M : Matching} (S : Simulation M) {α β γ δ σ σ' : Type} {R : α → β → Prop} {T : γ → δ → Prop}

/-- The first run is lost, or is about to report a refusal. -/
def Escapes : Outcome α → Prop
  | .ok _ b => S.lost b
  | .error e b => S.lost b ∨ M.lenient ∧ e.problem = .tooDeep
  | .fault _ => True

/-- Unless the first run escapes or one of the two meets a fault, they succeed or fail together. -/
inductive Agrees (R : α → β → Prop) : Outcome α → Outcome β → Prop where
  | escaped {o : Outcome α} {o' : Outcome β} (h : S.Escapes o) : Agrees R o o'
  | fault {o : Outcome α} {why : Fault} : Agrees R o (.fault why)
  | ok {a : α} {a' : β} {b b' : Buffer} (value : R a a') (same : S.same b b') : Agrees R (.ok a b) (.ok a' b')
  | error {problem problem' : Problem} {b b' : Buffer} (like : problem.Like M.toLikeness problem') (same : S.same b b') :
    Agrees R (.error (b.syntaxError problem) b) (.error (b'.syntaxError problem') b')

variable {S} {b b' : Buffer} {p : Parser α} {q : Parser β} {f : α → Parser γ} {g : β → Parser δ}

theorem Escapes.of_leads {o : Outcome α} (leads : ∀ {b₁}, o.buffer? = some b₁ → b.Leads b₁) (lost : S.lost b) :
    S.Escapes o := by
  cases o with
  | ok a b₁ => exact S.lost_leads (leads rfl) lost
  | error e b₁ => exact .inl (S.lost_leads (leads rfl) lost)
  | fault why => trivial

theorem Escapes.run [Steady p] (lost : S.lost b) : S.Escapes (p.run b) := .of_leads Steady.leads lost

theorem Escapes.bind [∀ a, Steady (f a)] (h : S.Escapes (p.run b)) : S.Escapes ((p >>= f).run b) := by
  rw [Parser.run_bind]
  generalize p.run b = o at h
  cases o with
  | ok a b₁ => exact .run h
  | error e b₁ => exact h
  | fault why => trivial

namespace Agrees

theorem bind [∀ a, Steady (f a)] (h : S.Agrees R (p.run b) (q.run b'))
    (next : ∀ {a a' b₁ b₁'}, R a a' → S.same b₁ b₁' → S.Agrees T ((f a).run b₁) ((g a').run b₁')) :
    S.Agrees T ((p >>= f).run b) ((q >>= g).run b') := by
  rw [Parser.run_bind q]
  generalize hp : p.run b = o, q.run b' = o' at h
  cases h with
  | escaped h => exact .escaped (.bind (hp ▸ h))
  | fault => exact .fault
  | ok value same =>
    rw [Parser.run_bind_of_ok hp]
    exact next value same
  | error like same =>
    rw [Parser.run_bind, hp]
    exact .error like same

/-- A step that does not fail is followed by what comes behind it. -/
theorem step [Parser.Unfailing p] [Parser.Unfailing q]
    (next : ∀ {a a' b₁ b₁'}, p.run b = .ok a b₁ → q.run b' = .ok a' b₁' →
      S.Agrees T ((f a).run b₁) ((g a').run b₁')) : S.Agrees T ((p >>= f).run b) ((q >>= g).run b') := by
  rw [Parser.run_bind, Parser.run_bind]
  cases hp : p.run b with
  | ok a b₁ =>
    cases hq : q.run b' with
    | ok a' b₁' => exact next hp hq
    | error e b₁' => exact absurd hq Parser.Unfailing.not_error
    | fault why => exact .fault
  | error e b₁ => exact absurd hp Parser.Unfailing.not_error
  | fault why => exact .escaped trivial

/-- Steps that do not fail agree if they do so where they meet no fault. -/
theorem of_ok [Parser.Unfailing p] [Parser.Unfailing q]
    (h : ∀ {a a' b₁ b₁'}, p.run b = .ok a b₁ → q.run b' = .ok a' b₁' → R a a' ∧ S.same b₁ b₁') :
    S.Agrees R (p.run b) (q.run b') := by
  rw [← bind_pure p, ← bind_pure q]
  exact .step fun run run' => .ok (h run run').1 (h run run').2

theorem mono {R' : α → β → Prop} {o : Outcome α} {o' : Outcome β} (h : S.Agrees R o o')
    (imp : ∀ {a a'}, R a a' → R' a a') : S.Agrees R' o o' := by
  cases h with
  | escaped h => exact .escaped h
  | fault => exact .fault
  | ok value same => exact .ok (imp value) same
  | error like same => exact .error like same

end Agrees

/-! ### Repetitions -/

/-- Both repetitions have the same tokens left, so neither goes on for longer. -/
theorem foldBelow_agrees {more : σ → Buffer → Bool} {more' : σ' → Buffer → Bool} {round : σ → Parser σ}
    {round' : σ' → Parser σ'} {I : σ → σ' → Prop} [∀ s, Steady (round s)]
    (again : ∀ s s', I s s' → ∀ b b', M.Sees b b' → more' s' b' = more s b)
    (rounds : ∀ s s', I s s' → ∀ {b b'}, S.same b b' → S.Agrees I ((round s).run b) ((round' s').run b'))
    {left : Nat} {s : σ} {s' : σ'} (start : I s s') (same : S.same b b') :
    S.Agrees I (Parser.foldBelow more round left s b) (Parser.foldBelow more' round' left s' b') := by
  induction left using Nat.strongRecOn generalizing s s' b b' with
  | ind left ih =>
    rw [Parser.foldBelow.eq_def more, Parser.foldBelow.eq_def more']
    rw [again s s' start b b' (S.sees same)]
    by_cases go : more s b = true
    · rw [if_pos go, if_pos go]
      have h := rounds s s' start same
      rw [Parser.run, Parser.run] at h
      generalize round s b = o, round' s' b' = o' at h
      cases h with
      | escaped h =>
        refine .escaped ?_
        cases o with
        | ok s₁ b₁ =>
          by_cases fewer : b₁.remaining < left
          · simp only [fewer, if_true]
            exact .of_leads (Steady.leads_foldBelow ·) h
          · simp only [fewer, if_false]
            trivial
        | error e b₁ => exact h
        | fault why => trivial
      | fault => exact .fault
      | @ok s₁ s₁' b₁ b₁' value same =>
        have fewer : b₁'.remaining = b₁.remaining := (S.sees same).remaining
        by_cases fewer' : b₁.remaining < left
        · simp only [fewer, fewer', if_true]
          exact ih _ fewer' value same
        · simp only [fewer, fewer', if_false]
          exact .fault
      | error like same => exact .error like same
    · rw [if_neg go, if_neg go]
      exact .ok start same

theorem repeatWhile_agrees {more : Buffer → Bool} {round : Parser Unit} [Steady round]
    (again : ∀ b b', M.Sees b b' → more b' = more b)
    (rounds : ∀ {b b'}, S.same b b' → S.Agrees Eq (round.run b) (round.run b')) (same : S.same b b') :
    S.Agrees Eq ((Parser.repeatWhile more round).run b) ((Parser.repeatWhile more round).run b') := by
  change S.Agrees Eq (Parser.foldBelow _ _ b.remaining () b) (Parser.foldBelow _ _ b'.remaining () b')
  rw [(S.sees same).remaining]
  exact foldBelow_agrees (fun _ _ _ => again) (fun _ _ _ => rounds) rfl same

/-! ### Reports -/

section
variable (same : S.same b b')
include same

theorem shift_agrees : S.Agrees Eq (Parser.shift.run b) (Parser.shift.run b') :=
  .of_ok fun run run' => ⟨rfl, S.shift same run run'⟩

theorem recover_agrees (recovery : Recovery) :
    S.Agrees Eq ((Parser.recover recovery).run b) ((Parser.recover recovery).run b') := by
  cases recovery with
  | statement =>
    refine repeatWhile_agrees (fun b b' h => ?_) shift_agrees same
    simp only [h.hasNext, Parser.startsStatement, M.kind_eq h.current, M.begins_iff h.current]
  | endOfText =>
    refine repeatWhile_agrees (fun b b' h => ?_) shift_agrees same
    rw [h.hasNext]
  | none => exact .ok rfl same

theorem report_agrees {problem problem' : Problem} (like : problem.Like M.toLikeness problem') (recovery : Recovery) :
    S.Agrees Eq ((Parser.report (b.syntaxError problem) recovery).run b)
      ((Parser.report (b'.syntaxError problem') recovery).run b') := by
  unfold Parser.report
  refine .bind (.of_ok fun run run' => S.addError same like run run') fun {i i' b₁ b₁'} node same₁ => ?_
  refine .bind (.ok ((S.sees same₁).hasNext.symm) same₁) fun {more more' b₁ b₁'} next same₁ => ?_
  subst next
  by_cases next : more = true
  · rw [if_pos next, if_pos next]
    refine .bind (.ok rfl (S.push same₁ node)) fun _ same₂ => .bind (shift_agrees same₂) fun _ same₃ => ?_
    exact .bind (recover_agrees same₃ recovery) fun _ same₄ => .ok rfl (S.pop same₄)
  · rw [if_neg next, if_neg next]
    exact .ok rfl same₁

end

/-- A refusal that only the first run meets is reported there. -/
theorem report_escapes {e : SyntaxError} (recovery : Recovery) (escapes : S.lost b ∨ M.lenient ∧ e.problem = .tooDeep) :
    S.Escapes ((Parser.report e recovery).run b) := by
  rcases escapes with lost | ⟨lenient, refusal⟩
  · exact .run lost
  · unfold Parser.report
    refine .bind ?_
    cases run : (Parser.addError (Parser.markOf e)).run b with
    | ok i b₁ => exact S.refused lenient refusal run
    | error e b₁ => exact absurd run Parser.Unfailing.not_error
    | fault why => trivial

theorem reportMissing_agrees (same : S.same b b') {problem problem' : Problem} (like : problem.Like M.toLikeness problem') :
    S.Agrees Eq ((Parser.reportMissing problem).run b) ((Parser.reportMissing problem').run b') := by
  change S.Agrees Eq ((Parser.addError (Parser.markOf (b.syntaxError problem)) >>= fun _ => Pure.pure ()).run b)
    ((Parser.addError (Parser.markOf (b'.syntaxError problem')) >>= fun _ => Pure.pure ()).run b')
  exact .step fun run run' => .ok rfl (S.addError same like run run').2

theorem recovering_agrees (h : S.Agrees R (p.run b) (q.run b')) (recovery : Recovery) :
    S.Agrees (Option.Rel R) ((Parser.recovering recovery p).run b) ((Parser.recovering recovery q).run b') := by
  unfold Parser.recovering
  rw [Parser.run_bind, Parser.run_bind, Parser.run_attempt, Parser.run_attempt]
  generalize p.run b = o, q.run b' = o' at h
  cases h with
  | escaped h =>
    refine .escaped ?_
    cases o with
    | ok a b₁ => exact h
    | error e b₁ =>
      have reported := report_escapes recovery h
      change S.Escapes ((Parser.report e recovery >>= fun _ => Pure.pure none).run b₁)
      rw [Parser.run_bind]
      cases run : (Parser.report e recovery).run b₁ <;> rw [run] at reported <;> exact reported
    | fault why => trivial
  | fault => exact .fault
  | ok value same => exact .ok (.some value) same
  | error like same => exact .bind (report_agrees same like recovery) fun _ same => .ok .none same

/-! ### Scopes -/

theorem limited_agrees (same : S.same b b') (h : S.Agrees R (p.run b) (q.run b')) :
    S.Agrees R ((Parser.limited p).run b) ((Parser.limited q).run b') := by
  change S.Agrees R ((if b.isTooDeep = true then Parser.fail .tooDeep else p).run b)
    ((if b'.isTooDeep = true then Parser.fail .tooDeep else q).run b')
  rcases S.deep same with deep | ⟨lenient, deep⟩
  · rw [deep]
    by_cases deep : b.isTooDeep = true
    · rw [if_pos deep, if_pos deep]
      exact .error (.plain rfl) same
    · rw [if_neg deep, if_neg deep]
      exact h
  · rw [if_pos deep]
    exact .escaped (.inr ⟨lenient, rfl⟩)

theorem scope_agrees (same : S.same b b') (kind : TreeKind)
    (inside : ∀ {b b'}, S.same b b' → S.Agrees R (p.run b) (q.run b')) (recovery : Recovery) :
    S.Agrees (Closed.Both M.node R) ((Parser.scope kind p recovery).run b) ((Parser.scope kind q recovery).run b') := by
  unfold Parser.scope
  refine .step fun {i i' b₁ b₁'} run run' => ?_
  obtain ⟨node, same₁⟩ := S.openNode same run run'
  refine .bind (recovering_agrees (limited_agrees same₁ (inside same₁)) recovery) fun {a a' b₂ b₂'} value same₂ => ?_
  refine .bind (R := Eq) (.of_ok fun run run' => ⟨rfl, ?_⟩) fun _ same₃ => .ok ⟨node, value⟩ same₃
  rw [Parser.closeNode_ok run, Parser.closeNode_ok run']
  exact S.pop same₂

end Simulation

/-- Parsers in lockstep agree. By induction on the steps. -/
theorem Lockstep.agrees {M : Matching} (S : Simulation M) {α β : Type} {R : α → β → Prop} {p : Parser α} {q : Parser β}
    (h : Lockstep M R p q) : ∀ {b b'}, S.same b b' → S.Agrees R (p.run b) (q.run b') := by
  induction h with
  | pure value => exact fun same => .ok value same
  | bind first next ih ihnext => exact fun same => .bind (ih same) fun value same₁ => ihnext _ _ value same₁
  | ask h => exact fun same => .ok (h _ _ (S.sees same)) same
  | room => exact fun same => .ok (S.room same) same
  | errorCount => exact fun same => .ok (S.errors same) same
  | fail like => exact fun same => .error like same
  | refused lenient q => exact fun _ => .escaped (.inr ⟨lenient, rfl⟩)
  | shift => exact Simulation.shift_agrees
  | foldWhile start again rounds ih =>
    intro b b' same
    change S.Agrees _ (Parser.foldBelow _ _ b.remaining _ b) (Parser.foldBelow _ _ b'.remaining _ b')
    rw [(S.sees same).remaining]
    exact Simulation.foldBelow_agrees again ih start same
  | recovering _ recovery ih => exact fun same => Simulation.recovering_agrees (ih same) recovery
  | scope kind inside recovery ih => exact fun same => Simulation.scope_agrees same kind ih recovery
  | docs kinds =>
    intro b b' same
    have taken {b b' : Buffer} (same : S.same b b') : S.Agrees Eq ((Parser.shiftKinds kinds).run b)
        ((Parser.shiftKinds kinds).run b') := by
      refine Simulation.repeatWhile_agrees (fun b b' h => ?_) Simulation.shift_agrees same
      simp only [h.hasNext, M.kind_eq h.current]
    exact (Simulation.scope_agrees same .whitespace taken .statement).mono fun both =>
      ⟨S.docs_of_node both.node, both.value⟩
  | reportMissing like => exact fun same => Simulation.reportMissing_agrees same like
  | adoptDocs docs => exact fun same => .of_ok fun run run' => ⟨rfl, S.adoptDocs same docs run run'⟩
  | detach moves node => exact fun same => .of_ok fun run run' => ⟨rfl, S.detach moves same node run run'⟩
  | attach moves node => exact fun same => .of_ok fun run run' => ⟨rfl, S.attach moves same node run run'⟩
  | encloseInError encloses node misplaced =>
    exact fun same => .of_ok fun run run' => ⟨rfl, S.encloseInError encloses same node misplaced run run'⟩

end SmithyIdl
