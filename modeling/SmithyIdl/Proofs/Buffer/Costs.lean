import SmithyIdl.Proofs.Buffer.Eats
import SmithyIdl.Proofs.Buffer.Edits
import SmithyIdl.Proofs.Buffer.Scopes

/-! # What the nodes of a tree cost

Every token that is taken pays for 16 nodes, its own leaf among them. The debt of a buffer counts the nodes that the
tokens before the cursor have not paid for. A rule that finds a token left takes it and is then out of debt, so the
rounds of a repetition never add up, however many there are. Only what is opened at the end of the text stays unpaid. -/

namespace SmithyIdl

namespace Buffer

/-- The nodes that were made beyond 16 for each token before the cursor. -/
def debt (b : Buffer) : Int := b.tree.size - 16 * b.cursor

/-- The debt behind the report of a failure. Its node takes a token where one is left. -/
def debtReported (b : Buffer) : Int := b.debt + if b.hasNext then -14 else 1

variable {b b' : Buffer}

theorem debtReported_le : b.debtReported ≤ b.debt + 1 := by
  rw [debtReported]
  split <;> omega

theorem debtReported_of_next (next : b.hasNext = true) : b.debtReported = b.debt - 14 := by
  rw [debtReported, if_pos next]
  rfl

theorem debt_of_same (size : b'.tree.size = b.tree.size) (cursor : b'.cursor = b.cursor) : b'.debt = b.debt := by
  rw [debt, debt, size, cursor]

end Buffer

/-- The debt behind the outcome is at most `d`. A failure may cost one more, once it is reported. -/
structure Outcome.Owes {α : Type} (o : Outcome α) (d : Int) : Prop where
  ok : ∀ {a b}, o = .ok a b → b.debt ≤ d
  error : ∀ {e b}, o = .error e b → b.debtReported ≤ d + 1

namespace Outcome.Owes

variable {α : Type} {o : Outcome α} {b : Buffer} {c d : Int}

theorem mono (h : o.Owes c) (le : c ≤ d) : o.Owes d where
  ok left := Int.le_trans (h.ok left) le
  error left := Int.le_trans (h.error left) (by omega)

theorem of_ok {a : α} (h : b.debt ≤ d) : (Outcome.ok a b).Owes d where
  ok left := by
    cases left
    exact h
  error left := nomatch left

theorem of_error {e : SyntaxError} (h : b.debtReported ≤ d + 1) : (Outcome.error e b : Outcome α).Owes d where
  ok left := nomatch left
  error left := by
    cases left
    exact h

theorem of_fault {why : Fault} : (Outcome.fault why : Outcome α).Owes d where
  ok left := nomatch left
  error left := nomatch left

end Outcome.Owes

namespace Parser

variable {α β σ : Type} {p q : Parser α} {f : α → Parser β} {b b' : Buffer} {c d k l s t : Int}

/-- From `b` on, the debt grows by `c` nodes at most. -/
def CostsFrom (c : Int) (p : Parser α) (b : Buffer) : Prop := (p.run b).Owes (b.debt + c)

/-- From every buffer on, the debt grows by `k` nodes at most. -/
class Costs (p : Parser α) (k : outParam Int) : Prop where
  least : 0 ≤ k
  costs : ∀ {b : Buffer}, b.EndsWithEof → CostsFrom k p b

/-- Where a token is left, the debt shrinks by `s` nodes at least, and by no more than what the token pays. -/
class Pays (p : Parser α) (s : outParam Int) : Prop where
  most : s ≤ 15
  pays : ∀ {b : Buffer}, b.EndsWithEof → b.hasNext = true → CostsFrom (-s) p b

/-- The parser takes no token and makes no node. -/
class Idle (p : Parser α) : Prop where
  same : ∀ {b b' : Buffer}, (p.run b).buffer? = some b' → b'.tree.size = b.tree.size ∧ b'.cursor = b.cursor

/-! ### Parsers that make nothing -/

namespace Idle

theorem ok [Idle p] {a : α} (h : p.run b = .ok a b') : b'.tree.size = b.tree.size ∧ b'.cursor = b.cursor :=
  same (p := p) (by rw [h]; rfl)

theorem error [Idle p] {e : SyntaxError} (h : p.run b = .error e b') :
    b'.tree.size = b.tree.size ∧ b'.cursor = b.cursor := same (p := p) (by rw [h]; rfl)

instance of_looks [Looks p] : Idle p where
  same h := by
    obtain rfl := Looks.same h
    exact ⟨rfl, rfl⟩

instance bind [Idle p] [∀ a, Idle (f a)] : Idle (p >>= f) where
  same h := by
    rcases buffer?_bind.mp h with ⟨e, failed⟩ | ⟨a, b₁, first, rest⟩
    · exact error failed
    · obtain ⟨size, cursor⟩ := ok first
      obtain ⟨size', cursor'⟩ := same rest
      exact ⟨size'.trans size, cursor'.trans cursor⟩

instance ite {cond : Prop} [Decidable cond] [Idle p] [Idle q] : Idle (if cond then p else q) := by
  by_cases holds : cond
  · rw [if_pos holds]
    infer_instance
  · rw [if_neg holds]
    infer_instance

instance current : Idle Parser.current := @of_looks _ _ (.ask _)

instance hasNext : Idle Parser.hasNext := @of_looks _ _ (.ask _)

instance isAt (kind : TokenKind) : Idle (Parser.isAt kind) := @of_looks _ _ (.ask _)

instance errorCount : Idle Parser.errorCount := @of_looks _ _ (.ask _)

instance abort (why : Fault) : Idle (Parser.abort why : Parser α) := ⟨nofun⟩

instance push (node : NodeId) : Idle (Parser.push node) := ⟨fun h => Option.some.inj h ▸ ⟨rfl, rfl⟩⟩

instance pop : Idle Parser.pop := ⟨fun h => Option.some.inj h ▸ ⟨rfl, rfl⟩⟩

theorem onTree {g : SyntaxTree → Except Fault (α × SyntaxTree)}
    (keep : ∀ {t a t'}, g t = .ok (a, t') → t'.size = t.size) : Idle (Parser.onTree g) where
  same {b b'} h := by
    cases run : (Parser.onTree g).run b with
    | ok a b₁ =>
      rw [run] at h
      cases h
      obtain ⟨t, edit, rfl⟩ := onTree_ok run
      exact ⟨keep edit, rfl⟩
    | error e b₁ => exact absurd run Unfailing.not_error
    | fault why =>
      rw [run] at h
      cases h

instance append (parent node : NodeId) : Idle (Parser.onTree fun t => (t.append parent node).map ((), ·)) :=
  onTree fun {t a t'} h => by
    cases edit : t.append parent node with
    | error why =>
      rw [edit] at h
      cases h
    | ok t₁ =>
      rw [edit] at h
      cases h
      exact SyntaxTree.size_append edit

instance remove (parent node : NodeId) : Idle (Parser.onTree fun t => t.remove parent node) :=
  onTree SyntaxTree.size_remove

instance reading (r : Reading α) [SyntaxTree.Still r] : Idle (Parser.onTree r.run) :=
  onTree fun h => (SyntaxTree.Still.keeps (r := r) h).size_eq

instance attach (node : NodeId) : Idle (Parser.attach node) := by
  unfold Parser.attach
  infer_instance

instance detach (node : NodeId) : Idle (Parser.detach node) := by
  have behind : ∀ parent : Option NodeId, Idle (match parent with
      | some parent => do let _ ← Parser.onTree fun t => t.remove parent node
      | none => return) := fun parent => by cases parent <;> infer_instance
  unfold Parser.detach
  infer_instance

instance adoptDocs (docs : Option NodeId) : Idle (Parser.adoptDocs docs) := by
  unfold Parser.adoptDocs
  cases docs with
  | none => infer_instance
  | some node =>
    have behind : ∀ n : Nat, Idle (match n with
        | 0 => do
          Parser.detach node
          Parser.attach node
        | n => Parser.abort (.docsNotFirst n)) := fun n => by split <;> infer_instance
    infer_instance

instance closeNode (node : NodeId) : Idle (Parser.closeNode node) := by
  unfold Parser.closeNode
  infer_instance

end Idle

/-! ### Costs from a buffer -/

namespace CostsFrom

theorem mono (h : CostsFrom c p b) (le : c ≤ d) : CostsFrom d p b := Outcome.Owes.mono h (by omega)

/-- What makes nothing costs nothing. -/
theorem idle [Idle p] (least : 0 ≤ c) : CostsFrom c p b where
  ok left := by
    obtain ⟨size, cursor⟩ := Idle.ok left
    rw [Buffer.debt_of_same size cursor]
    omega
  error {e b'} left := by
    obtain ⟨size, cursor⟩ := Idle.error left
    have := b'.debtReported_le
    rw [Buffer.debt_of_same size cursor] at this
    omega

theorem bind (first : CostsFrom c p b) (next : ∀ {a b'}, p.run b = .ok a b' → CostsFrom d (f a) b') (gains : 0 ≤ d) :
    CostsFrom (c + d) (p >>= f) b where
  ok left := by
    obtain ⟨a, b₁, run, rest⟩ := bind_eq_ok.mp left
    have := first.ok run
    have := (next run).ok rest
    omega
  error left := by
    rcases bind_eq_error.mp left with failed | ⟨a, b₁, run, rest⟩
    · have := first.error failed
      omega
    · have := first.ok run
      have := (next run).error rest
      omega

theorem bind_unfailing [Unfailing p] (first : CostsFrom c p b)
    (next : ∀ {a b'}, p.run b = .ok a b' → CostsFrom d (f a) b') : CostsFrom (c + d) (p >>= f) b where
  ok left := by
    obtain ⟨a, b₁, run, rest⟩ := bind_eq_ok.mp left
    have := first.ok run
    have := (next run).ok rest
    omega
  error left := by
    rcases bind_eq_error.mp left with failed | ⟨a, b₁, run, rest⟩
    · exact absurd failed Unfailing.not_error
    · have := first.ok run
      have := (next run).error rest
      omega

/-- Behind a part that makes nothing the rest decides. Where that part fails, the token pays. -/
theorem bind_idle [Idle p] [Steady p] (token : b.hasNext = true) (most : -15 ≤ c)
    (rest : ∀ {a b'}, b.Leads b' → b'.cursor = b.cursor → CostsFrom c (f a) b') : CostsFrom c (p >>= f) b where
  ok left := by
    obtain ⟨a, b₁, run, left⟩ := bind_eq_ok.mp left
    obtain ⟨size, cursor⟩ := Idle.ok run
    rw [← Buffer.debt_of_same size cursor]
    exact (rest (Steady.ok run) cursor).ok left
  error {e b'} left := by
    rcases bind_eq_error.mp left with failed | ⟨a, b₁, run, left⟩
    · obtain ⟨size, cursor⟩ := Idle.error failed
      have token' := ((Steady.error failed).hasNext_of_same cursor).trans token
      rw [Buffer.debtReported_of_next token', Buffer.debt_of_same size cursor]
      omega
    · obtain ⟨size, cursor⟩ := Idle.ok run
      rw [← Buffer.debt_of_same size cursor]
      exact (rest (Steady.ok run) cursor).error left

/-- A question about the buffer is answered there. -/
theorem ask {g : Buffer → β} {f : β → Parser α} (h : CostsFrom c (f (g b)) b) : CostsFrom c (Parser.ask g >>= f) b := h

theorem ite {cond : Prop} [Decidable cond] (pos : cond → CostsFrom c p b) (neg : ¬cond → CostsFrom c q b) :
    CostsFrom c (if cond then p else q) b := by
  by_cases holds : cond
  · rw [if_pos holds]
    exact pos holds
  · rw [if_neg holds]
    exact neg holds

theorem fail {problem : Problem} (token : b.hasNext = true) (most : -15 ≤ c) :
    CostsFrom c (Parser.fail problem : Parser α) b := by
  refine .of_error ?_
  rw [Buffer.debtReported_of_next token]
  omega

theorem shift : CostsFrom (-15) Parser.shift b where
  ok left := by
    obtain ⟨-, t, edit, rfl⟩ := shift_ok left
    have size : t.size = b.tree.size + 1 := (SyntaxTree.size_append edit).trans (SyntaxTree.size_add _)
    simp only [Buffer.debt, size]
    omega
  error left := absurd left Unfailing.not_error

end CostsFrom

/-! ### Repetitions -/

section
variable {more : σ → Buffer → Bool} {round : σ → Parser σ}

/-- No round of the repetition adds to the debt. -/
class Settles (more : σ → Buffer → Bool) (round : σ → Parser σ) : Prop where
  settles : ∀ {s : σ} {b : Buffer}, b.EndsWithEof → more s b = true → CostsFrom 0 (round s) b

theorem Settles.of_pays [NeedsNext more] (gain : 0 ≤ t) [∀ s, Pays (round s) t] : Settles more round where
  settles ends go := (Pays.pays ends (NeedsNext.hasNext ends go)).mono (by omega)

variable [∀ s, Steady (round s)] [Settles more round]

theorem owes_foldBelow (left : Nat) (s : σ) (ends : b.EndsWithEof) : (foldBelow more round left s b).Owes b.debt := by
  -- The tokens left bound the rounds; each leaves no more debt than it found.
  induction left using Nat.strongRecOn generalizing s b with
  | ind left ih =>
    rw [foldBelow]
    by_cases go : more s b = true
    · rw [if_pos go]
      have owes : (round s b).Owes (b.debt + 0) := Settles.settles ends go
      rw [Int.add_zero] at owes
      cases taken : round s b with
      | ok s' after =>
        dsimp only
        by_cases fewer : after.remaining < left
        · rw [if_pos fewer]
          have leads : b.Leads after := Steady.ok (p := round s) taken
          exact (ih _ fewer s' (leads.endsWithEof ends)).mono (owes.ok taken)
        · rw [if_neg fewer]
          exact .of_fault
      | error e after => exact .of_error (owes.error taken)
      | fault why => exact .of_fault
    · rw [if_neg go]
      exact .of_ok (Int.le_refl _)

theorem CostsFrom.foldWhile (s : σ) (ends : b.EndsWithEof) : CostsFrom 0 (Parser.foldWhile more round s) b :=
  (owes_foldBelow b.remaining s ends).mono (by omega)

/-- A repetition that begins a round pays what the round pays. -/
theorem CostsFrom.foldWhile_of_round {s : σ} (ends : b.EndsWithEof) (go : more s b = true)
    (first : CostsFrom c (round s) b) : CostsFrom c (Parser.foldWhile more round s) b := by
  rw [CostsFrom, run, Parser.foldWhile, foldBelow, if_pos go]
  rw [CostsFrom, run] at first
  cases taken : round s b with
  | ok s' after =>
    dsimp only
    by_cases fewer : after.remaining < b.remaining
    · rw [if_pos fewer]
      have leads : b.Leads after := Steady.ok (p := round s) taken
      exact (owes_foldBelow _ s' (leads.endsWithEof ends)).mono (first.ok taken)
    · rw [if_neg fewer]
      exact .of_fault
  | error e after => exact .of_error (first.error taken)
  | fault why => exact .of_fault

end

/-! ### Steps -/

instance : Nonempty Token := ⟨.nothing⟩

instance : Nonempty TokenKind := ⟨.eof⟩

instance : Nonempty TreeKind := ⟨.idl⟩

instance : Nonempty ByteRange := ⟨.empty 0⟩

instance : Nonempty SyntaxError := ⟨(Buffer.ofText "" "" 0).syntaxError .unexpectedEnd⟩

instance : Nonempty (Closed α) := ⟨⟨SyntaxTree.root, none⟩⟩

namespace Costs

instance idle [Idle p] : Costs p 0 := ⟨Int.le_refl 0, fun _ => .idle (Int.le_refl 0)⟩

theorem le [Costs p k] (le : k ≤ l) : Costs p l := ⟨Int.le_trans (least p) le, fun ends => (costs ends).mono le⟩

instance bind [Nonempty α] [Costs p k] [Steady p] [∀ a, Costs (f a) l] : Costs (p >>= f) (k + l) := by
  obtain ⟨a⟩ := ‹Nonempty α›
  have gains : 0 ≤ l := least (f a)
  exact ⟨Int.add_nonneg (least p) gains, fun ends =>
    (costs ends).bind (fun run => costs ((Steady.ok run).endsWithEof ends)) gains⟩

instance ite {cond : Prop} [Decidable cond] [Costs p k] [Costs q l] : Costs (if cond then p else q) (max k l) where
  least := by
    have := least p
    omega
  costs ends := .ite (fun _ => (costs ends).mono (by omega)) fun _ => (costs ends).mono (by omega)

instance shift : Costs Parser.shift 0 := ⟨Int.le_refl 0, fun _ => CostsFrom.shift.mono (by decide)⟩

instance next : Costs Parser.next 0 := by
  unfold Parser.next
  exact le (by decide)

instance consumeAny : Costs Parser.consumeAny 0 := by
  unfold Parser.consumeAny
  exact le (by decide)

instance consume (kind : TokenKind) : Costs (Parser.consume kind) 0 := by
  unfold Parser.consume
  exact le (by decide)

instance foldWhile {more : σ → Buffer → Bool} {round : σ → Parser σ} [∀ s, Steady (round s)] [Settles more round]
    (s : σ) : Costs (Parser.foldWhile more round s) 0 := ⟨Int.le_refl 0, fun ends => .foldWhile s ends⟩

instance repeatWhile {more : Buffer → Bool} {round : Parser Unit} [Steady round]
    [Settles (fun (_ : Unit) b => more b) fun _ => round] : Costs (Parser.repeatWhile more round) 0 :=
  inferInstanceAs (Costs (Parser.foldWhile (fun _ b => more b) (fun _ => round) ()) 0)

end Costs

namespace Pays

theorem le [Pays p s] (le : t ≤ s) : Pays p t where
  most := Int.le_trans le (most p)
  pays ends token := (Pays.pays ends token).mono (by omega)

instance bind [Nonempty α] [Pays p s] [Steady p] [∀ a, Costs (f a) k] : Pays (p >>= f) (s - k) := by
  obtain ⟨a⟩ := ‹Nonempty α›
  have gains : 0 ≤ k := Costs.least (f a)
  have most := most p
  refine ⟨by omega, fun ends token => ?_⟩
  have first := (Pays.pays (p := p) ends token).bind (f := f) (d := k)
    (fun run => Costs.costs ((Steady.ok run).endsWithEof ends)) gains
  exact first.mono (by omega)

/-- Behind a part that makes nothing the rest pays. -/
instance bind_idle [Nonempty α] [Idle p] [Steady p] [∀ a, Pays (f a) s] : Pays (p >>= f) s := by
  obtain ⟨a⟩ := ‹Nonempty α›
  have most : s ≤ 15 := most (f a)
  refine ⟨most, fun ends token => .bind_idle token (by omega) fun leads same => ?_⟩
  exact Pays.pays (leads.endsWithEof ends) ((leads.hasNext_of_same same).trans token)

instance ite {cond : Prop} [Decidable cond] [Pays p s] [Pays q t] : Pays (if cond then p else q) (min s t) where
  most := by
    have := most p
    omega
  pays ends token := .ite (fun _ => (Pays.pays ends token).mono (by omega))
    fun _ => (Pays.pays ends token).mono (by omega)

instance fail (problem : Problem) : Pays (Parser.fail problem : Parser α) 15 :=
  ⟨Int.le_refl _, fun _ token => .fail token (Int.le_refl _)⟩

instance shift : Pays Parser.shift 15 := ⟨Int.le_refl _, fun _ _ => .shift⟩

instance next : Pays Parser.next 15 := by
  unfold Parser.next
  exact le (by decide)

instance consumeAny : Pays Parser.consumeAny 15 := by
  unfold Parser.consumeAny
  exact le (by decide)

end Pays

/-! ### Nodes -/

namespace Costs

instance addError (mark : Mark) : Costs (Parser.addError mark) 1 where
  least := by decide
  costs {b} _ := by
    refine ⟨fun left => ?_, fun left => absurd left Unfailing.not_error⟩
    obtain ⟨-, t, edit, rfl⟩ := addError_edit left
    have size : t.size = b.tree.size + 1 := (SyntaxTree.size_append edit).trans (SyntaxTree.size_add _)
    simp only [Buffer.debt, size]
    omega

instance openNode (kind : TreeKind) : Costs (Parser.openNode kind) 1 where
  least := by decide
  costs {b} _ := by
    refine ⟨fun left => ?_, fun left => absurd left Unfailing.not_error⟩
    obtain ⟨-, t, edit, rfl⟩ := openNode_edit left
    have size : t.size = b.tree.size + 1 := (SyntaxTree.size_append edit).trans (SyntaxTree.size_add _)
    simp only [Buffer.debt, size]
    omega

instance reportMissing (problem : Problem) : Costs (Parser.reportMissing problem) 1 := by
  unfold Parser.reportMissing
  exact le (by decide)

instance encloseInError (node : NodeId) (problem : Problem) : Costs (Parser.encloseInError node problem) 1 := by
  unfold Parser.encloseInError
  exact le (by decide)

instance shiftWhile (kinds : Token → Bool) : Costs (Parser.shiftWhile kinds) 0 := by
  have : Settles (fun (_ : Unit) b => b.hasNext && kinds b.current) fun _ => Parser.shift :=
    have : NeedsNext fun (_ : Unit) b => b.hasNext && kinds b.current := needsNext_and fun _ b => kinds b.current
    .of_pays (t := 15) (by decide)
  unfold Parser.shiftWhile
  infer_instance

instance shiftKinds (kinds : TokenKind → Bool) : Costs (Parser.shiftKinds kinds) 0 := by
  unfold Parser.shiftKinds
  infer_instance

instance recover (recovery : Recovery) : Costs (Parser.recover recovery) 0 := by
  cases recovery <;> (unfold Parser.recover; infer_instance)

end Costs

namespace CostsFrom

theorem limited (h : CostsFrom c p b) (least : 0 ≤ c ∨ b.hasNext = true ∧ -15 ≤ c) :
    CostsFrom c (Parser.limited p) b := by
  have refused : CostsFrom c (Parser.fail .tooDeep : Parser α) b := by
    rcases least with least | ⟨token, least⟩
    · exact .idle least
    · exact .fail token least
  exact .ask (.ite (fun _ => refused) fun _ => h)

theorem report {e : SyntaxError} {recovery : Recovery} (ends : b.EndsWithEof)
    (run : (Parser.report e recovery).run b = .ok () b') : b'.debt ≤ b.debtReported := by
  unfold Parser.report at run
  obtain ⟨node, b₁, added, run⟩ := bind_eq_ok.mp run
  have leads := Steady.ok added
  have made := (Costs.costs (p := Parser.addError (markOf e)) ends).ok added
  have next : b₁.hasNext = b.hasNext := leads.hasNext_of_same (addError_ok added).2.2.1
  obtain ⟨more, b₂, asked, run⟩ := bind_eq_ok.mp run
  cases asked
  rw [Buffer.debtReported, ← next]
  cases token : b₁.hasNext with
  | false =>
    rw [token] at run
    cases run
    exact made
  | true =>
    rw [token, run_ite, if_pos rfl] at run
    have rest : Pays (do
        Parser.push node
        Parser.shift
        Parser.recover recovery
        Parser.pop) 15 := .le (by decide)
    have paid := (rest.pays (leads.endsWithEof ends) token).ok run
    rw [if_pos rfl]
    omega

theorem recovering [Steady p] {recovery : Recovery} (ends : b.EndsWithEof) (h : CostsFrom c p b) :
    CostsFrom (c + 1) (Parser.recovering recovery p) b := by
  refine ⟨fun left => ?_, fun left => absurd left Unfailing.not_error⟩
  obtain ⟨a, -, run⟩ | ⟨-, e, b₁, failed, reported⟩ := recovering_ok left
  · have := h.ok run
    omega
  · have := h.error failed
    have := report ((Steady.error failed).endsWithEof ends) reported
    omega

/-- A node costs itself, and the node of a failure inside of it. -/
theorem scope [Steady p] (kind : TreeKind) (recovery : Recovery) (ends : b.EndsWithEof)
    (least : 0 ≤ c ∨ b.hasNext = true ∧ -15 ≤ c)
    (inside : ∀ {b'}, b.Leads b' → b'.cursor = b.cursor → CostsFrom c p b') :
    CostsFrom (c + 2) (Parser.scope kind p recovery) b := by
  refine ⟨fun left => ?_, fun left => absurd left Unfailing.not_error⟩
  unfold Parser.scope at left
  obtain ⟨node, b₁, opened, left⟩ := bind_eq_ok.mp left
  obtain ⟨value, b₂, caught, left⟩ := bind_eq_ok.mp left
  obtain ⟨_, b₃, closed, done⟩ := bind_eq_ok.mp left
  cases done
  have leads := Steady.ok opened
  have same : b₁.cursor = b.cursor := (Parser.openNode_ok opened).2.2.1
  have least : 0 ≤ c ∨ b₁.hasNext = true ∧ -15 ≤ c := by rwa [leads.hasNext_of_same same]
  have made := (Costs.costs (p := Parser.openNode kind) ends).ok opened
  have spent := (recovering (leads.endsWithEof ends) (limited (inside leads same) least)).ok caught
  obtain ⟨size, cursor⟩ := Idle.ok closed
  rw [Buffer.debt_of_same size cursor]
  omega

end CostsFrom

namespace Costs

instance report (e : SyntaxError) (recovery : Recovery) : Costs (Parser.report e recovery) 1 where
  least := by decide
  costs ends := by
    refine ⟨fun left => ?_, fun left => absurd left Unfailing.not_error⟩
    exact Int.le_trans (CostsFrom.report ends left) Buffer.debtReported_le

instance recovering [Costs p k] [Steady p] (recovery : Recovery) : Costs (Parser.recovering recovery p) (k + 1) where
  least := by
    have := least p
    omega
  costs ends := .recovering ends (costs ends)

instance scope [Costs p k] [Steady p] (kind : TreeKind) (recovery : Recovery) :
    Costs (Parser.scope kind p recovery) (k + 2) where
  least := by
    have := least p
    omega
  costs ends := .scope kind recovery ends (.inl (least p)) fun leads _ => costs (leads.endsWithEof ends)

instance within {body : Parser Unit} [Costs body k] [Steady body] (kind : TreeKind) :
    Costs (Parser.within kind body) (k + 2) := by
  unfold Parser.within
  exact le (by omega)

end Costs

namespace Pays

instance scope [Pays p s] [Steady p] (kind : TreeKind) (recovery : Recovery) :
    Pays (Parser.scope kind p recovery) (s - 2) where
  most := by
    have := most p
    omega
  pays ends token := by
    have := most p
    have := CostsFrom.scope kind recovery ends (.inr ⟨token, by omega⟩) fun leads same =>
      Pays.pays (p := p) (leads.endsWithEof ends) ((leads.hasNext_of_same same).trans token)
    exact this.mono (by omega)

instance within {body : Parser Unit} [Pays body s] [Steady body] (kind : TreeKind) :
    Pays (Parser.within kind body) (s - 2) := by
  unfold Parser.within
  exact le (by omega)

end Pays

/-! ### Where a token is known to be left -/

/-- What is done only where a token is left does not cost anything if it pays there. -/
theorem Costs.of_guard {β : Type} {g : Buffer → β} {cond : β → Prop} [∀ a, Decidable (cond a)]
    (next : ∀ {b : Buffer}, b.EndsWithEof → cond (g b) → b.hasNext = true) (gain : 0 ≤ s) [Pays p s] [Costs q k] :
    Costs (Parser.ask g >>= fun a => if cond a then p else q) k where
  least := least q
  costs ends := by
    have := least q
    exact .ask (.ite (fun holds => (Pays.pays ends (next ends holds)).mono (by omega)) fun _ => costs ends)

/-- What follows a token that has to come does not cost anything if it pays there. -/
theorem Costs.of_expectAny {kinds : TokenSet} {f : TokenKind → Parser β} (ne : kinds.contains .eof = false)
    (gain : 0 ≤ s) [∀ kind, Pays (f kind) s] : Costs (expectAny kinds >>= f) 0 where
  least := Int.le_refl 0
  costs {b} ends := by
    by_cases token : b.hasNext = true
    · exact (Pays.pays (p := expectAny kinds >>= f) ends token).mono (by omega)
    · refine (CostsFrom.idle (c := 0) (Int.le_refl 0)).bind (fun found => ?_) (Int.le_refl 0)
      obtain ⟨-, rfl, among⟩ := expectAny_ok found
      refine absurd (ends.hasNext fun eof => ?_) token
      rw [eof, ne] at among
      cases among

theorem Costs.of_expect {kind : TokenKind} {f : Unit → Parser β} (ne : kind ≠ .eof) (gain : 0 ≤ s)
    [∀ a, Pays (f a) s] : Costs (expect kind >>= f) 0 where
  least := Int.le_refl 0
  costs {b} ends := by
    by_cases token : b.hasNext = true
    · exact (Pays.pays (p := expect kind >>= f) ends token).mono (by omega)
    · refine (CostsFrom.idle (c := 0) (Int.le_refl 0)).bind (fun found => ?_) (Int.le_refl 0)
      obtain ⟨-, here⟩ := expect_ok found
      exact absurd (ends.hasNext (here ▸ ne)) token

/-- Taking tokens of a class pays where one comes. -/
theorem CostsFrom.shiftKinds {kinds : TokenKind → Bool} (ends : b.EndsWithEof) (token : b.hasNext = true)
    (here : kinds b.current.kind = true) : CostsFrom (-15) (Parser.shiftKinds kinds) b := by
  have : Settles (fun (_ : Unit) b => b.hasNext && kinds b.current.kind) fun _ => Parser.shift :=
    have : NeedsNext fun (_ : Unit) b => b.hasNext && kinds b.current.kind := needsNext_and fun _ b => kinds b.current.kind
    .of_pays (t := 15) (by decide)
  exact .foldWhile_of_round ends (Bool.and_eq_true_iff.mpr ⟨token, here⟩) .shift

end Parser

end SmithyIdl
