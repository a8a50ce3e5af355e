import SmithyIdl.Proofs.Buffer.Scopes

/-! # Runs on known tokens

Where it is known which tokens come, it is known how many of them a parser takes and with which value it succeeds,
whatever the tree is. Faults are not looked at here; that there are none follows from what the buffer shows. -/

namespace SmithyIdl

open SmithyIdl.Parser (Recovery Closed Steady)

/-- A success of which `Q` holds, unless it was a fault. -/
def Outcome.Gives {α : Type} (Q : α → Buffer → Prop) : Outcome α → Prop
  | ok a b => Q a b
  | error _ _ => False
  | fault _ => True

namespace Buffer

/-- From `k` tokens ahead up to `m` tokens ahead the tokens of a word come. -/
inductive Comes (b : Buffer) : Nat → List Token → Nat → Prop where
  | nil {k : Nat} : b.Comes k [] k
  | cons {k m : Nat} {t : Token} {ts : List Token} (here : b.peek k = t) (left : b.cursor + k < b.eof)
      (rest : b.Comes (k + 1) ts m) : b.Comes k (t :: ts) m

namespace Comes

variable {b : Buffer} {k m : Nat} {t : Token} {v w : List Token}

theorem peek (h : b.Comes k (t :: w) m) : b.peek k = t := by
  obtain _ | ⟨here, -, -⟩ := h
  exact here

theorem append_iff : b.Comes k (v ++ w) m ↔ ∃ j, b.Comes k v j ∧ b.Comes j w m := by
  induction v generalizing k with
  | nil => exact ⟨fun h => ⟨k, .nil, h⟩, fun ⟨_, .nil, h⟩ => h⟩
  | cons t v ih =>
    constructor
    · rintro (_ | ⟨here, left, rest⟩)
      obtain ⟨j, front, back⟩ := ih.mp rest
      exact ⟨j, .cons here left front, back⟩
    · rintro ⟨j, _ | ⟨here, left, front⟩, back⟩
      exact .cons here left (ih.mpr ⟨j, front, back⟩)

/-- Looking past tokens of a class ends at the first token of another class. -/
theorem lookPast {p : TokenKind → Bool} (h : b.Comes k w m) (all : ∀ t ∈ w, p t.kind = true)
    (other : p (b.peek m).kind = false) : b.lookPast k p = b.peek m := by
  induction h with
  | nil => rw [Buffer.lookPast, if_neg fun h => by rw [other] at h; exact absurd h.2 Bool.false_ne_true]
  | cons here left rest ih =>
    obtain ⟨first, all⟩ := List.forall_mem_cons.mp all
    rw [Buffer.lookPast, if_pos ⟨left, by rwa [here]⟩]
    exact ih all other

end Comes

/-- As far as there are only tokens of a class, a word of such tokens comes. -/
theorem exists_comes {b : Buffer} {kinds : TokenKind → Bool} {k m : Nat} (upTo : k ≤ m) (left : b.cursor + m ≤ b.eof)
    (all : ∀ j, k ≤ j → j < m → kinds (b.peek j).kind = true) : ∃ w, b.Comes k w m ∧ ∀ t ∈ w, kinds t.kind = true := by
  rcases Nat.eq_or_lt_of_le upTo with rfl | less
  · exact ⟨[], .nil, fun _ among => nomatch among⟩
  · obtain ⟨w, comes, inside⟩ := exists_comes less left fun j behind => all j (Nat.le_of_succ_le behind)
    have here : b.cursor + k < b.eof := Nat.lt_of_lt_of_le (Nat.add_lt_add_left less _) left
    exact ⟨_, .cons rfl here comes, List.forall_mem_cons.mpr ⟨all k (Nat.le_refl k) less, inside⟩⟩
termination_by m - k

/-- `b` stands `k` tokens behind `b₀` and has `d` open nodes, and no problem was counted between them. -/
structure Behind (b₀ : Buffer) (k d : Nat) (b : Buffer) : Prop where
  leads : b₀.Leads b
  cursor : b.cursor = b₀.cursor + k
  openNodes : b.openNodes.length = d
  errors : b.errors = b₀.errors

namespace Behind

variable {b₀ b : Buffer} {k d : Nat}

theorem start (b : Buffer) : b.Behind 0 b.openNodes.length b := ⟨.refl b, rfl, rfl, rfl⟩

theorem peek (h : b₀.Behind k d b) (j : Nat) : b.peek j = b₀.peek (k + j) := by
  rw [Buffer.peek, Buffer.peek, h.leads.tokens, h.leads.eof, h.cursor, Nat.add_assoc]

theorem current (h : b₀.Behind k d b) : b.current = b₀.peek k := h.peek 0

theorem hasNext (h : b₀.Behind k d b) : b.hasNext = decide (b₀.cursor + k < b₀.eof) := by
  rw [Buffer.hasNext, h.cursor, h.leads.eof]

theorem lookPast (h : b₀.Behind k d b) (j : Nat) (p : TokenKind → Bool) : b.lookPast j p = b₀.lookPast (k + j) p := by
  induction j using Buffer.lookPast.induct b p with
  | case1 j more ih =>
    have more' : b₀.cursor + (k + j) < b₀.eof ∧ p (b₀.peek (k + j)).kind = true := by
      rwa [h.cursor, h.leads.eof, h.peek, Nat.add_assoc] at more
    rw [Buffer.lookPast, if_pos more, ih, Buffer.lookPast.eq_def b₀ (k + j), if_pos more', Nat.add_assoc]
  | case2 j stop =>
    rw [Buffer.lookPast, if_neg stop, h.peek, Buffer.lookPast, if_neg]
    rwa [h.cursor, h.leads.eof, h.peek, Nat.add_assoc] at stop

/-- Only the number of open nodes is changed. -/
theorem opens (h : b₀.Behind k d b) (nodes : List NodeId) :
    b₀.Behind k nodes.length { b with openNodes := nodes } :=
  ⟨⟨h.leads.tree, h.leads.maxDepth, h.leads.cursor, h.leads.errors, h.leads.counted⟩, h.cursor, rfl, h.errors⟩

end Behind

end Buffer

namespace Parser

variable {α β σ : Type} {b₀ b : Buffer} {d k k₁ k₂ : Nat} {p : Parser α} {f : α → Parser β} {Q : α → Prop} {R : β → Prop}

/-! ### Outcomes -/

section
variable {A : α → Buffer → Prop} {B : β → Buffer → Prop}

theorem gives_bind (first : (p.run b).Gives A) (next : ∀ a b', p.run b = .ok a b' → A a b' → ((f a).run b').Gives B) :
    ((p >>= f).run b).Gives B := by
  rw [run_bind]
  cases taken : p.run b with
  | ok a b' =>
    rw [taken] at first
    exact next a b' taken first
  | error e b' =>
    rw [taken] at first
    exact first
  | fault why => trivial

/-- Where there is no fault, there is a success. -/
theorem exists_ok_of_gives {E : Buffer → Prop} {C : α → Buffer → Prop} (gives : (p.run b).Gives A) (ensures : p.Ensures b C E) :
    ∃ a b', p.run b = .ok a b' ∧ A a b' ∧ C a b' := by
  rw [Ensures] at ensures
  cases taken : p.run b with
  | ok a b' =>
    rw [taken] at gives ensures
    exact ⟨a, b', rfl, gives, ensures⟩
  | error e b' =>
    rw [taken] at gives
    exact gives.elim
  | fault why =>
    rw [taken] at ensures
    exact ensures.elim

theorem gives_of_ok [Unfailing p] (h : ∀ a b', p.run b = .ok a b' → A a b') : (p.run b).Gives A := by
  cases taken : p.run b with
  | ok a b' => exact h a b' taken
  | error e b' => exact absurd taken Unfailing.not_error
  | fault why => trivial

theorem foldWhile_gives {more : σ → Buffer → Bool} {round : σ → Parser σ} {s : σ} {C D : σ → Buffer → Prop}
    (go : more s b = true) (first : ((round s).run b).Gives C)
    (next : ∀ s₁ b₁, C s₁ b₁ → ((foldWhile more round s₁).run b₁).Gives D) :
    ((foldWhile more round s).run b).Gives D := by
  rw [run] at first
  rw [run, foldWhile, foldBelow, if_pos go]
  cases taken : round s b with
  | ok s₁ b₁ =>
    rw [taken] at first
    dsimp only
    split
    · exact next s₁ b₁ first
    · trivial
  | error e b₁ =>
    rw [taken] at first
    exact first
  | fault why => trivial

theorem recovering_gives (recovery : Recovery) (h : (p.run b).Gives A) :
    ((recovering recovery p).run b).Gives fun r b' => ∃ a ∈ r, A a b' := by
  unfold recovering
  rw [run_bind, run_attempt]
  cases taken : p.run b with
  | ok a b' =>
    rw [taken] at h
    exact ⟨a, rfl, h⟩
  | error e b' =>
    rw [taken] at h
    exact h.elim
  | fault why => trivial

end

/-! ### Steps -/

/-- With `d` open nodes and `k` tokens behind `b₀`, the parser succeeds `k₁` tokens behind it. -/
def Takes (b₀ : Buffer) (d k k₁ : Nat) (p : Parser α) (Q : α → Prop) : Prop :=
  ∀ ⦃b⦄, b₀.Behind k d b → (p.run b).Gives fun a b' => Q a ∧ b₀.Behind k₁ d b'

namespace Takes

theorem ok {b' : Buffer} {a : α} (h : Takes b₀ d k k₁ p Q) (behind : b₀.Behind k d b) (run : p.run b = .ok a b') :
    Q a ∧ b₀.Behind k₁ d b' := by
  have gives := h behind
  rwa [run] at gives

theorem pure {a : α} (h : Q a) : Takes b₀ d k k (Pure.pure a) Q := fun _ behind => ⟨h, behind⟩

theorem bind (first : Takes b₀ d k k₁ p Q) (next : ∀ a, Q a → Takes b₀ d k₁ k₂ (f a) R) :
    Takes b₀ d k k₂ (p >>= f) R :=
  fun _ behind => gives_bind (first behind) fun a _ _ h => next a h.1 h.2

/-- What the buffer shows is known. -/
theorem ask {g : Buffer → α} {a : α} (known : ∀ {b}, b₀.Behind k d b → g b = a) : Takes b₀ d k k (Parser.ask g) (· = a) :=
  fun _ behind => ⟨known behind, behind⟩

/-! ### Tokens -/

theorem shift : Takes b₀ d k (k + 1) Parser.shift fun _ => True := fun b behind =>
  gives_of_ok fun _ b' run => by
    have leads := Steady.ok run
    obtain ⟨-, t, -, rfl⟩ := shift_ok run
    exact ⟨trivial, behind.leads.trans leads, congrArg (· + 1) behind.cursor, behind.openNodes, behind.errors⟩

theorem current : Takes b₀ d k k Parser.current (· = b₀.peek k) := .ask fun behind => behind.current

theorem errorCount : Takes b₀ d k k Parser.errorCount (· = b₀.errors) := .ask fun behind => behind.errors

theorem consumeAny (left : b₀.cursor + k < b₀.eof) : Takes b₀ d k (k + 1) Parser.consumeAny fun _ => True := by
  have more : Takes b₀ d k k Parser.hasNext (· = true) := .ask fun behind => behind.hasNext.trans (decide_eq_true left)
  unfold Parser.consumeAny Parser.next
  refine .bind (Q := fun _ => True) (.bind more fun next next' => ?_) fun _ _ => .pure trivial
  rw [if_pos next']
  exact .bind .current fun _ _ => .bind .shift fun _ _ => .pure trivial

theorem expectAny {kinds : TokenSet} (here : kinds.contains (b₀.peek k).kind = true) :
    Takes b₀ d k k (Parser.expectAny kinds) (· = (b₀.peek k).kind) := by
  unfold Parser.expectAny
  refine .bind .current fun token same => ?_
  rw [same, if_pos here]
  exact .pure rfl

theorem expect {kind : TokenKind} (here : (b₀.peek k).kind = kind) :
    Takes b₀ d k k (Parser.expect kind) fun _ => True :=
  .bind (.expectAny (by rw [here, TokenSet.contains_single, decide_eq_true rfl])) fun _ _ => .pure trivial

theorem consume {kind : TokenKind} (left : b₀.cursor + k < b₀.eof) (here : (b₀.peek k).kind = kind) :
    Takes b₀ d k (k + 1) (Parser.consume kind) fun _ => True :=
  .bind (.expect here) fun _ _ => .consumeAny left

theorem isAt (kind : TokenKind) : Takes b₀ d k k (Parser.isAt kind) (· = decide ((b₀.peek k).kind = kind)) :=
  .ask fun behind => by rw [Buffer.isAt, behind.current]

theorem isAtKeyword (name : String) :
    Takes b₀ d k k (Parser.isAtKeyword name) (· = (b₀.peek k).isIdentifier name) :=
  .ask fun behind => by rw [Buffer.isAtKeyword, behind.current]

/-! ### Repetitions -/

section
variable {more : σ → Buffer → Bool} {round : σ → Parser σ} {s : σ} {S : σ → Prop}

theorem stop (done : ∀ {b}, b₀.Behind k d b → more s b = false) (h : S s) :
    Takes b₀ d k k (foldWhile more round s) S := by
  intro b behind
  rw [foldWhile_stop (done behind)]
  exact ⟨h, behind⟩

theorem again (go : ∀ {b}, b₀.Behind k d b → more s b = true) {I : σ → Prop} (first : Takes b₀ d k k₁ (round s) I)
    (rest : ∀ s, I s → Takes b₀ d k₁ k₂ (foldWhile more round s) S) : Takes b₀ d k k₂ (foldWhile more round s) S :=
  fun _ behind => foldWhile_gives (go behind) (first behind) fun s₁ _ h => rest s₁ h.1 h.2

end

/-- All tokens of a class that come are taken. -/
theorem shiftKinds {kinds : TokenKind → Bool} {w : List Token} (comes : b₀.Comes k w k₁)
    (all : ∀ t ∈ w, kinds t.kind = true) (other : kinds (b₀.peek k₁).kind = false) :
    Takes b₀ d k k₁ (Parser.shiftKinds kinds) fun _ => True := by
  induction comes with
  | nil =>
    refine .stop (fun behind => ?_) trivial
    dsimp only
    rw [behind.current, other, Bool.and_false]
  | cons here left _ ih =>
    obtain ⟨first, all⟩ := List.forall_mem_cons.mp all
    refine .again (fun behind => ?_) .shift fun _ _ => ih all other
    dsimp only
    rw [behind.current, here, first, behind.hasNext, decide_eq_true left, Bool.and_true]

theorem shiftKinds_none {kinds : TokenKind → Bool} (other : kinds (b₀.peek k).kind = false) :
    Takes b₀ d k k (Parser.shiftKinds kinds) fun _ => True := .shiftKinds .nil nofun other

/-! ### Scopes -/

theorem openNode (kind : TreeKind) (behind : b₀.Behind k d b) :
    ((Parser.openNode kind).run b).Gives fun _ => b₀.Behind k (d + 1) :=
  gives_of_ok fun i b' run => by
    obtain ⟨-, -, cursor, errors⟩ := openNode_ok run
    refine ⟨behind.leads.trans (Steady.ok run), cursor.trans behind.cursor, ?_, errors.trans behind.errors⟩
    rw [KeepsOpen.openNode_ok run, List.length_cons, behind.openNodes]

theorem closeNode (i : NodeId) (behind : b₀.Behind k (d + 1) b) :
    ((Parser.closeNode i).run b).Gives fun _ => b₀.Behind k d :=
  gives_of_ok fun _ b' run => by
    obtain rfl := closeNode_ok run
    have closed := behind.opens b.openNodes.tail
    rwa [List.length_tail, behind.openNodes, Nat.add_sub_cancel] at closed

theorem limited (room : d ≤ b₀.maxDepth) (h : Takes b₀ d k k₁ p Q) : Takes b₀ d k k₁ (Parser.limited p) Q := by
  intro b behind
  have allowed : ¬ b.isTooDeep = true := by
    rw [Buffer.isTooDeep, behind.leads.maxDepth, behind.openNodes, decide_eq_true_eq]
    omega
  unfold Parser.limited
  rw [run_bind_of_ok (run_ask _ b), run_ite, if_neg allowed]
  exact h behind

/-- Where it is known that what runs in a node succeeds, nothing is reported. -/
theorem scope (room : d < b₀.maxDepth) (kind : TreeKind) (recovery : Recovery) (h : Takes b₀ (d + 1) k k₁ p Q) :
    Takes b₀ d k k₁ (Parser.scope kind p recovery) fun c => ∃ a ∈ c.value, Q a := fun _ behind =>
  gives_bind (openNode kind behind) fun i _ _ opened =>
    gives_bind (recovering_gives recovery (h.limited room opened)) fun _ _ _ ⟨a, same, value, inside⟩ =>
      gives_bind (closeNode i inside) fun _ _ _ closed => ⟨⟨a, same, value⟩, closed⟩

theorem within {body : Parser Unit} (room : d < b₀.maxDepth) (kind : TreeKind)
    (h : Takes b₀ (d + 1) k k₁ body fun _ => True) : Takes b₀ d k k₁ (Parser.within kind body) fun _ => True :=
  .bind (h.scope room kind .statement) fun _ _ => .pure trivial

end Takes

end Parser

end SmithyIdl
