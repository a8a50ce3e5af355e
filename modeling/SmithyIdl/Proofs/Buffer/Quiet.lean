import SmithyIdl.Proofs.Buffer.Located
import SmithyIdl.Proofs.Buffer.Nearsighted

/-! # At most one problem before a brace

A problem is reported with all tokens up to the next one that can begin a statement or end a block. Where no such token
comes before a closing brace, the report goes up to the brace. So before the brace is taken there is no room for a
further one. -/

namespace SmithyIdl

open SmithyIdl.Parser (Steady Unfailing)

namespace Buffer

variable {b b' b'' : Buffer} {o e : TokenId}

/-- Between the tokens `o` and `e` no recovery stops. -/
structure Quiet (b : Buffer) (o e : TokenId) : Prop where
  between : ∀ k, o < k → k < e → Parser.startsStatement (b.tokenAt k) = false
  left : e < b.eof

theorem Quiet.leads (h : b.Quiet o e) (leads : b.Leads b') : b'.Quiet o e where
  between k behind before := leads.tokenAt_eq k ▸ h.between k behind before
  left := leads.eof ▸ h.left

theorem Quiet.startsStatement_eq {k : TokenId} {t : Token} (h : b.Quiet o e) (behind : o < k) (before : k < e)
    (here : b.tree.tokens[k]? = some t) : Parser.startsStatement t = false := by
  have quiet := h.between k behind before
  rwa [tokenAt, Nat.min_eq_left (Nat.le_of_lt (Nat.lt_trans before h.left)), here] at quiet

/-- Unless the token `e` was taken, at most one problem was counted, and then just the tokens before `e` were. -/
def Settles (e : TokenId) (b b' : Buffer) : Prop :=
  b'.cursor ≤ e → b'.errors = b.errors ∨ b'.errors = b.errors + 1 ∧ b.cursor < e ∧ b'.cursor = e

namespace Settles

theorem of_errors (same : b'.errors = b.errors) : b.Settles e b' := fun _ => .inl same

theorem refl : b.Settles e b := .of_errors rfl

theorem trans (h : b.Settles e b') (h' : b'.Settles e b'') (leads : b.Leads b') (leads' : b'.Leads b'') :
    b.Settles e b'' := fun before => by
  have onward := leads.cursor
  have onward' := leads'.cursor
  have first := h (Nat.le_trans onward' before)
  have second := h' before
  omega

end Settles

end Buffer

namespace Parser

variable {α σ : Type} {p : Parser α} {b b' : Buffer} {o e : TokenId}

theorem shift_errors (run : shift.run b = .ok () b') : b'.errors = b.errors := by
  obtain ⟨-, t, -, rfl⟩ := shift_ok run
  rfl

theorem recover_ok (run : (recover .statement).run b = .ok () b') :
    b'.errors = b.errors ∧ (b'.hasNext = false ∨ startsStatement b'.current = true) := by
  obtain ⟨errors, ended⟩ := foldWhile_ok (I := fun _ b₁ => b₁.errors = b.errors)
    (fun _ _ _ _ same _ taken => (shift_errors taken).trans same) rfl run
  exact ⟨errors, (Bool.and_eq_false_iff.mp ended).imp_right fun start => by simpa using start⟩

/-- A report counts one problem. It takes the token that comes and stops where a statement can begin. -/
theorem report_stops {cause : SyntaxError} (run : (report cause .statement).run b = .ok () b') :
    b'.errors = b.errors + 1 ∧ (b.hasNext = true → b.cursor < b'.cursor) ∧
      (b'.hasNext = false ∨ startsStatement b'.current = true) := by
  unfold report at run
  obtain ⟨node, b₁, added, run⟩ := bind_eq_ok.mp run
  obtain ⟨-, -, cursor, errors⟩ := addError_ok added
  have same := (Steady.ok added).hasNext_of_same cursor
  rw [run_bind_of_ok (run_hasNext b₁), run_ite] at run
  by_cases next : b₁.hasNext = true
  · rw [if_pos next] at run
    obtain ⟨_, b₂, pushed, run⟩ := bind_eq_ok.mp run
    cases pushed
    obtain ⟨_, b₃, taken, run⟩ := bind_eq_ok.mp run
    obtain ⟨_, b₄, recovered, popped⟩ := bind_eq_ok.mp run
    cases popped
    obtain ⟨errors₄, stops⟩ := recover_ok recovered
    refine ⟨errors₄.trans ((shift_errors taken).trans errors), fun _ => ?_, stops⟩
    have first := shift_cursor taken
    have onward := (Steady.ok recovered).cursor
    dsimp only at first
    change b.cursor < b₄.cursor
    omega
  · rw [if_neg next] at run
    cases run
    exact ⟨errors, fun more => absurd (same.trans more) next, .inl (eq_false_of_ne_true next)⟩

/-- What is reported before the brace takes just the tokens up to it. -/
theorem report_settles {cause : SyntaxError} (quiet : b.Quiet o e) (behind : o ≤ b.cursor)
    (run : (report cause .statement).run b = .ok () b') (before : b'.cursor ≤ e) :
    b'.errors = b.errors + 1 ∧ b.cursor < e ∧ b'.cursor = e := by
  obtain ⟨errors, onward, stops⟩ := report_stops run
  have leads := Steady.ok run
  have left := quiet.left
  have next : b.hasNext = true := Buffer.hasNext_iff.mpr (Nat.lt_of_le_of_lt (Nat.le_trans leads.cursor before) left)
  have next' : b'.hasNext = true := Buffer.hasNext_iff.mpr (leads.eof ▸ Nat.lt_of_le_of_lt before left)
  have onward := onward next
  have start : startsStatement b'.current = true := stops.resolve_left (by simp [next'])
  refine ⟨errors, Nat.lt_of_lt_of_le onward before, Nat.le_antisymm before (Nat.le_of_not_lt fun short => ?_)⟩
  rw [Buffer.current_eq, (quiet.leads leads).between _ (Nat.lt_of_le_of_lt behind onward) short] at start
  cases start

theorem foldBelow_settles {more : σ → Buffer → Bool} {round : σ → Parser σ} [∀ s, Steady (round s)]
    (rounds : ∀ s {b b'}, b.Quiet o e → o ≤ b.cursor → ((round s).run b).buffer? = some b' → b.Settles e b')
    {left : Nat} {s : σ} (quiet : b.Quiet o e) (behind : o ≤ b.cursor)
    (run : (foldBelow more round left s b).buffer? = some b') : b.Settles e b' := by
  induction left using Nat.strongRecOn generalizing s b with
  | ind left ih =>
    rw [foldBelow] at run
    by_cases go : more s b = true
    · rw [if_pos go] at run
      cases taken : round s b with
      | ok s₁ b₁ =>
        simp only [taken] at run
        by_cases fewer : b₁.remaining < left
        · rw [if_pos fewer] at run
          have first : ((round s).run b).buffer? = some b₁ := by rw [Parser.run, taken]; rfl
          have leads : b.Leads b₁ := Steady.leads first
          exact (rounds s quiet behind first).trans
            (ih _ fewer (quiet.leads leads) (Nat.le_trans behind leads.cursor) run) leads (Steady.leads_foldBelow run)
        · rw [if_neg fewer] at run
          cases run
      | error cause b₁ =>
        simp only [taken] at run
        cases run
        exact rounds s quiet behind (by rw [Parser.run, taken]; rfl)
      | fault why =>
        simp only [taken] at run
        cases run
    · rw [if_neg go] at run
      cases run
      exact .refl

theorem settles_of_ok [Unfailing p] (keeps : ∀ {a}, p.run b = .ok a b' → b.Settles e b')
    (run : (p.run b).buffer? = some b') : b.Settles e b' := by
  cases taken : p.run b with
  | ok a b₁ =>
    rw [taken] at run
    cases run
    exact keeps taken
  | error cause b₁ => exact absurd taken Unfailing.not_error
  | fault why =>
    rw [taken] at run
    cases run

theorem detach_errors {d : NodeId} (run : (detach d).run b = .ok () b') : b'.errors = b.errors := by
  rcases detach_edit run with ⟨-, rfl⟩ | ⟨p, found, t, -, -, rfl⟩ <;> rfl

theorem attach_errors {d : NodeId} (run : (attach d).run b = .ok () b') : b'.errors = b.errors := by
  obtain ⟨t, -, rfl⟩ := attach_ok run
  rfl

theorem closeNode_errors {d : NodeId} (run : (closeNode d).run b = .ok () b') : b'.errors = b.errors := by
  rw [closeNode_ok run]

/-- By induction on the steps. Only a failure that is caught is counted, and it is reported. -/
theorem Nearsighted.settles (near : Nearsighted False p) (quiet : b.Quiet o e) (behind : o ≤ b.cursor)
    (run : (p.run b).buffer? = some b') : b.Settles e b' := by
  induction near generalizing b b' with
  | pure | ask | fail =>
    cases run
    exact .refl
  | bind first next ihFirst ihNext =>
    have := first.steady
    rcases buffer?_bind.mp run with ⟨cause, failed⟩ | ⟨a, b₁, taken, run⟩
    · exact ihFirst quiet behind (by rw [failed]; rfl)
    · have := (next a).steady
      have leads := Steady.ok taken
      exact (ihFirst quiet behind (by rw [taken]; rfl)).trans
        (ihNext a (quiet.leads leads) (Nat.le_trans behind leads.cursor) run) leads (Steady.leads run)
  | look _ _ next ih => exact ih _ quiet behind run
  | abort => cases run
  | shift => exact settles_of_ok (fun run => .of_errors (shift_errors run)) run
  | foldWhile _ rounds s ih =>
    have := fun s => (rounds s).steady
    exact foldBelow_settles (fun s _ _ => ih s) quiet behind run
  | recovering inside ih =>
    have := inside.steady
    refine settles_of_ok (fun run => ?_) run
    rcases recovering_ok run with ⟨a, -, taken⟩ | ⟨-, cause, b₁, failed, reported⟩
    · exact ih quiet behind (by rw [taken]; rfl)
    · have leads := Steady.error failed
      have reports : b₁.Settles e b' := fun before =>
        .inr (report_settles (quiet.leads leads) (Nat.le_trans behind leads.cursor) reported before)
      exact (ih quiet behind (by rw [failed]; rfl)).trans reports leads (Steady.ok reported)
  | openNode => exact settles_of_ok (fun run => .of_errors (openNode_ok run).2.2.2) run
  | closeNode => exact settles_of_ok (fun run => .of_errors (closeNode_errors run)) run
  | detach => exact settles_of_ok (fun run => .of_errors (detach_errors run)) run
  | attach => exact settles_of_ok (fun run => .of_errors (attach_errors run)) run
  | reportMissing allowed | encloseInError allowed => exact allowed.elim

end Parser

end SmithyIdl
