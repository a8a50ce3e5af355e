import SmithyIdl.Proofs.Buffer.Steady
import SmithyIdl.Proofs.Token.Likeness

/-! # Runs in lockstep

Two runs of a parser can differ in the names of the nodes that they make, in the places of the tokens that come, in
how many errors were counted before and in the limit on open nodes. A parser whose steps do not depend on any of these
runs in lockstep with itself: `Lockstep M R p q` says so of `p` and `q`, step by step, where `M` says what is matched
and `R` how the two values belong together. What two runs have in common, or what one run keeps, then follows by
induction on the steps. -/

namespace SmithyIdl

open SmithyIdl.Parser (Recovery Closed Steady)

/-- What two runs have in common. -/
structure Matching extends Likeness where
  /-- The nodes of documentation comments. -/
  docs : NodeId → NodeId → Prop
  /-- All other nodes that a scope opens. -/
  node : NodeId → NodeId → Prop
  errors : Nat → Nat → Prop
  /-- Whether the second run may go on where too many nodes are open in the first one. -/
  lenient : Prop
  /-- Whether traits may be taken out and put in again. -/
  moves : Prop
  /-- Whether traits may be put into an error node. -/
  encloses : Prop
  errors_lt : ∀ {m m' n n'}, errors m m' → errors n n' → (m < n ↔ m' < n')

namespace Matching

theorem lt_iff_of_eq {m m' n n' : Nat} (same : m = m') (same' : n = n') : m < n ↔ m' < n' := by rw [same, same']

/-- A run matched with itself, where something is known of the nodes that scopes open. -/
def alone (docs node : NodeId → Prop) (moves encloses : Prop) : Matching where
  toLikeness := .same
  docs i i' := i' = i ∧ docs i
  node i i' := i' = i ∧ node i
  errors := Eq
  lenient := False
  moves := moves
  encloses := encloses
  errors_lt := lt_iff_of_eq

theorem alone_rel {known : NodeId → Prop} {node? node?' : Option NodeId} :
    Option.Rel (fun i i' => i' = i ∧ known i) node? node?' ↔ node?' = node? ∧ ∀ i ∈ node?, known i := by
  refine ⟨fun related => ?_, fun ⟨same, h⟩ => ?_⟩
  · cases related with
    | none => exact ⟨rfl, nofun⟩
    | some both =>
      obtain ⟨rfl, h⟩ := both
      exact ⟨rfl, fun i hi => Option.some.inj hi ▸ h⟩
  · subst same
    cases node?' with
    | none => exact .none
    | some i => exact .some ⟨rfl, h i rfl⟩

/-- A run matched with itself. -/
abbrev self : Matching := alone (fun _ => True) (fun _ => True) True True

variable (M : Matching)

/-- How many more nodes may be open in the two runs. -/
def room (n n' : Nat) : Prop := n' = n ∨ M.lenient ∧ n ≤ n'

/-- The same tokens come. -/
structure Sees (b b' : Buffer) : Prop where
  remaining : b'.remaining = b.remaining
  peek : ∀ k, M.token (b.peek k) (b'.peek k)

variable {M} {t t' : Token} {b b' : Buffer}

theorem errors_eq {m m' n n' : Nat} (h : M.errors m m') (h' : M.errors n n') : m = n ↔ m' = n' := by
  have below := M.errors_lt h h'
  have above := M.errors_lt h' h
  omega

theorem alone_sees (docs node : NodeId → Prop) (moves encloses : Prop) (b : Buffer) :
    (alone docs node moves encloses).Sees b b :=
  ⟨rfl, fun _ => rfl⟩

namespace Sees

variable (h : M.Sees b b')
include h

theorem hasNext : b'.hasNext = b.hasNext := by
  have left := h.remaining
  rw [Buffer.remaining, Buffer.remaining] at left
  rw [Bool.eq_iff_iff, Buffer.hasNext_iff, Buffer.hasNext_iff]
  omega

theorem current : M.token b.current b'.current := h.peek 0

theorem isAt (kind : TokenKind) : b'.isAt kind = b.isAt kind := by
  rw [Buffer.isAt, Buffer.isAt, M.kind_eq h.current]

theorem isAtKeyword (name : String) : b'.isAtKeyword name = b.isAtKeyword name := by
  rw [Buffer.isAtKeyword, Buffer.isAtKeyword, Token.isIdentifier, Token.isIdentifier, M.kind_eq h.current]
  by_cases identifier : b.current.kind = .identifier
  · rw [M.name_eq h.current identifier]
  · simp only [decide_eq_false identifier, Bool.false_and]

/-- The tokens that are left bound how far both look. -/
theorem lookPast (k : Nat) (kinds : TokenKind → Bool) : M.token (b.lookPast k kinds) (b'.lookPast k kinds) := by
  have left := h.remaining
  rw [Buffer.remaining, Buffer.remaining] at left
  rw [Buffer.lookPast.eq_def b, Buffer.lookPast.eq_def b']
  have same : (b'.cursor + k < b'.eof ∧ kinds (b'.peek k).kind = true) ↔
      (b.cursor + k < b.eof ∧ kinds (b.peek k).kind = true) := by
    rw [M.kind_eq (h.peek k)]
    refine and_congr_left fun _ => ?_
    omega
  by_cases more : b.cursor + k < b.eof ∧ kinds (b.peek k).kind = true
  · rw [if_pos more, if_pos (same.mpr more)]
    exact lookPast (k + 1) kinds
  · rw [if_neg more, if_neg (mt same.mp more)]
    exact h.peek k
termination_by b.eof - (b.cursor + k)

end Sees

end Matching

/-- The nodes belong together, and so do the values. -/
structure Parser.Closed.Both {α β : Type} (node : NodeId → NodeId → Prop) (R : α → β → Prop) (c : Closed α)
    (c' : Closed β) : Prop where
  node : node c.node c'.node
  value : Option.Rel R c.value c'.value

/-! ### Steps -/

namespace TreeKind

/-- Whether nodes of a kind are those of a rule. Whitespace is moved where it documents something. -/
@[reducible]
def isRule : TreeKind → Bool
  | whitespace => false
  | _ => true

/-- What holds by computing. -/
class Computed (b : Bool) : Prop where
  holds : b = true

instance : Computed true := ⟨rfl⟩

/-- The kind is that of a rule. -/
class OfRule (kind : TreeKind) : Prop where
  ne : kind ≠ .whitespace

instance (kind : TreeKind) [h : Computed kind.isRule] : OfRule kind := ⟨by
  rintro rfl
  cases h.holds⟩

instance OfRule.ite {c : Prop} [Decidable c] {kind kind' : TreeKind} [OfRule kind] [OfRule kind'] :
    OfRule (if c then kind else kind') := by
  split <;> infer_instance

end TreeKind

/-- The two parsers take the same steps, and their values belong together. -/
class inductive Lockstep (M : Matching) : {α β : Type} → outParam (α → β → Prop) → Parser α → Parser β → Prop where
  | pure {α β : Type} {R : α → β → Prop} {a : α} {a' : β} (h : R a a') : Lockstep M R (Pure.pure a) (Pure.pure a')
  | bind {α β γ δ : Type} {R : α → β → Prop} {S : γ → δ → Prop} {p : Parser α} {q : Parser β} {f : α → Parser γ}
      {g : β → Parser δ} [∀ a, Steady (f a)] (first : Lockstep M R p q)
      (next : ∀ a a', R a a' → Lockstep M S (f a) (g a')) : Lockstep M S (p >>= f) (q >>= g)
  | ask {α β : Type} {R : α → β → Prop} {f : Buffer → α} {g : Buffer → β}
      (h : ∀ b b', M.Sees b b' → R (f b) (g b')) : Lockstep M R (Parser.ask f) (Parser.ask g)
  | room : Lockstep M M.room (Parser.ask fun b => b.maxDepth - b.openNodes.length)
      (Parser.ask fun b => b.maxDepth - b.openNodes.length)
  | errorCount : Lockstep M M.errors Parser.errorCount Parser.errorCount
  | fail {α β : Type} {R : α → β → Prop} {problem problem' : Problem} (h : problem.Like M.toLikeness problem') :
      Lockstep M R (Parser.fail problem) (Parser.fail problem')
  | refused {α β : Type} {R : α → β → Prop} (h : M.lenient) (q : Parser β) :
      Lockstep M R (Parser.fail .tooDeep : Parser α) q
  | shift : Lockstep M Eq Parser.shift Parser.shift
  | foldWhile {σ σ' : Type} {S : σ → σ' → Prop} {more : σ → Buffer → Bool} {more' : σ' → Buffer → Bool}
      {round : σ → Parser σ} {round' : σ' → Parser σ'} {s : σ} {s' : σ'} [∀ s, Steady (round s)] (start : S s s')
      (again : ∀ s s', S s s' → ∀ b b', M.Sees b b' → more' s' b' = more s b)
      (rounds : ∀ s s', S s s' → Lockstep M S (round s) (round' s')) :
      Lockstep M S (Parser.foldWhile more round s) (Parser.foldWhile more' round' s')
  | recovering {α β : Type} {R : α → β → Prop} {p : Parser α} {q : Parser β} (inside : Lockstep M R p q)
      (recovery : Recovery) : Lockstep M (Option.Rel R) (Parser.recovering recovery p) (Parser.recovering recovery q)
  | scope {α β : Type} {R : α → β → Prop} {p : Parser α} {q : Parser β} (kind : TreeKind) [TreeKind.OfRule kind]
      (inside : Lockstep M R p q) (recovery : Recovery) :
      Lockstep M (Closed.Both M.node R) (Parser.scope kind p recovery) (Parser.scope kind q recovery)
  | docs (kinds : TokenKind → Bool) : Lockstep M (Closed.Both M.docs Eq)
      (Parser.scope .whitespace (Parser.shiftKinds kinds)) (Parser.scope .whitespace (Parser.shiftKinds kinds))
  | reportMissing {problem problem' : Problem} (h : problem.Like M.toLikeness problem') :
      Lockstep M Eq (Parser.reportMissing problem) (Parser.reportMissing problem')
  | adoptDocs {d d' : NodeId} (h : M.docs d d') :
      Lockstep M Eq (Parser.adoptDocs (some d)) (Parser.adoptDocs (some d'))
  | detach {d d' : NodeId} (moves : M.moves) (h : M.node d d') : Lockstep M Eq (Parser.detach d) (Parser.detach d')
  | attach {d d' : NodeId} (moves : M.moves) (h : M.node d d') : Lockstep M Eq (Parser.attach d) (Parser.attach d')
  | encloseInError {d d' : NodeId} {problem : Problem} (encloses : M.encloses) (h : M.node d d')
      (misplaced : problem.encloses = true) :
      Lockstep M Eq (Parser.encloseInError d problem) (Parser.encloseInError d' problem)

/-- What a look at the tokens to come gives, wherever they stand. -/
class Matching.Shown (M : Matching) {α : Type} (f : Buffer → α) : Prop where
  same : ∀ {b b' : Buffer}, M.Sees b b' → f b' = f b

namespace Matching.Shown

variable {M : Matching}

instance hasNext : M.Shown Buffer.hasNext := ⟨fun h => h.hasNext⟩

instance isAt (kind : TokenKind) : M.Shown fun b => b.isAt kind := ⟨fun h => h.isAt kind⟩

instance isAtKeyword (name : String) : M.Shown fun b => b.isAtKeyword name := ⟨fun h => h.isAtKeyword name⟩

instance not (f : Buffer → Bool) [M.Shown f] : M.Shown fun b => !f b := ⟨fun h => congrArg (!·) (Shown.same h)⟩

instance and (f g : Buffer → Bool) [M.Shown f] [M.Shown g] : M.Shown fun b => f b && g b :=
  ⟨fun h => by rw [Shown.same (f := f) h, Shown.same (f := g) h]⟩

instance or (f g : Buffer → Bool) [M.Shown f] [M.Shown g] : M.Shown fun b => f b || g b :=
  ⟨fun h => by rw [Shown.same (f := f) h, Shown.same (f := g) h]⟩

instance const {α : Type} (a : α) : M.Shown fun _ => a := ⟨fun _ => rfl⟩

instance lookPast (k : Nat) (kinds : TokenKind → Bool) (kind : TokenKind) :
    M.Shown fun b => decide ((b.lookPast k kinds).kind = kind) :=
  ⟨fun h => by rw [M.kind_eq (h.lookPast k kinds)]⟩

end Matching.Shown

namespace Lockstep

variable {M : Matching} {α β γ σ : Type} {R : α → β → Prop}

theorem steady {p : Parser α} {q : Parser β} (h : Lockstep M R p q) : Steady p := by
  induction h <;> infer_instance

/-! ### Values that are the same -/

instance pure_eq (a : α) : Lockstep M Eq (Pure.pure a) (Pure.pure a) := .pure rfl

instance bind_eq {S : β → γ → Prop} {p q : Parser α} {f : α → Parser β} {g : α → Parser γ} [∀ a, Steady (f a)]
    [first : Lockstep M Eq p q] [next : ∀ a, Lockstep M S (f a) (g a)] : Lockstep M S (p >>= f) (q >>= g) :=
  .bind first fun a _ same => same ▸ next a

theorem seq {S : β → γ → Prop} {p q : Parser α} {f : α → Parser β} {g : α → Parser γ} [∀ a, Steady (f a)]
    [first : Lockstep M Eq p q] (next : ∀ a, Lockstep M S (f a) (g a)) : Lockstep M S (p >>= f) (q >>= g) :=
  bind_eq

instance ite {c : Prop} [Decidable c] {p p' : Parser α} {q q' : Parser β} [yes : Lockstep M R p q]
    [no : Lockstep M R p' q'] : Lockstep M R (if c then p else p') (if c then q else q') := by
  by_cases h : c
  · rw [if_pos h, if_pos h]
    exact yes
  · rw [if_neg h, if_neg h]
    exact no

theorem of_ite {c : Prop} [Decidable c] {p p' : Parser α} {q q' : Parser β} (yes : c → Lockstep M R p q)
    (no : ¬ c → Lockstep M R p' q') : Lockstep M R (if c then p else p') (if c then q else q') := by
  by_cases h : c
  · rw [if_pos h, if_pos h]
    exact yes h
  · rw [if_neg h, if_neg h]
    exact no h

instance ask_eq (f : Buffer → α) [M.Shown f] : Lockstep M Eq (Parser.ask f) (Parser.ask f) :=
  .ask fun _ _ h => (Matching.Shown.same h).symm

theorem fail_plain {problem : Problem} (h : problem.isPlain = true) :
    Lockstep M Eq (Parser.fail problem : Parser α) (Parser.fail problem) := .fail (.plain h)

/-! ### Tokens -/

instance hasNext : Lockstep M Eq Parser.hasNext Parser.hasNext := ask_eq _

instance isAt (kind : TokenKind) : Lockstep M Eq (Parser.isAt kind) (Parser.isAt kind) := ask_eq _

instance isAtKeyword (name : String) : Lockstep M Eq (Parser.isAtKeyword name) (Parser.isAtKeyword name) := ask_eq _

instance current : Lockstep M M.token Parser.current Parser.current := .ask fun _ _ h => h.current

theorem peek (k : Nat) : Lockstep M M.token (Parser.ask (·.peek k)) (Parser.ask (·.peek k)) :=
  .ask fun _ _ h => h.peek k

instance next : Lockstep M Eq Parser.next Parser.next := by
  unfold Parser.next
  have taken (kind : TokenKind) : Lockstep M Eq (do
      Parser.shift
      return kind) (do
      Parser.shift
      return kind) := by
    have := Lockstep.shift (M := M)
    infer_instance
  refine seq fun more => of_ite (fun _ => ?_) fun _ => fail_plain rfl
  refine .bind current fun t t' h => ?_
  rw [M.kind_eq h]
  exact taken t.kind

instance consumeAny : Lockstep M Eq Parser.consumeAny Parser.consumeAny := by
  unfold Parser.consumeAny
  infer_instance

instance expectAny (kinds : TokenSet) : Lockstep M Eq (Parser.expectAny kinds) (Parser.expectAny kinds) := by
  unfold Parser.expectAny
  have (cause : Option LexError) (token : Token) : Steady (match cause with
      | some cause => Parser.fail (.lexical cause)
      | none => Parser.fail (.expected kinds token) : Parser TokenKind) := by cases cause <;> infer_instance
  refine .bind current fun t t' h => ?_
  have both := M.error_isSome h
  rw [M.kind_eq h]
  refine of_ite (fun _ => .pure rfl) fun _ => ?_
  cases told : t.error? with
  | some cause =>
    rw [told] at both
    obtain ⟨cause', told'⟩ := Option.isSome_iff_exists.mp both
    rw [told']
    exact .fail (.lexical h told told')
  | none =>
    rw [told] at both
    rw [Option.not_isSome_iff_eq_none.mp (ne_true_of_eq_false both)]
    exact .fail (.expected kinds h)

instance expect (kind : TokenKind) : Lockstep M Eq (Parser.expect kind) (Parser.expect kind) := by
  unfold Parser.expect
  infer_instance

instance consume (kind : TokenKind) : Lockstep M Eq (Parser.consume kind) (Parser.consume kind) := by
  unfold Parser.consume
  infer_instance

/-! ### Repetitions -/

instance foldWhile_eq {more : σ → Buffer → Bool} {round : σ → Parser σ} {s : σ} [∀ s, Steady (round s)]
    [∀ s, M.Shown (more s)] [rounds : ∀ s, Lockstep M Eq (round s) (round s)] :
    Lockstep M Eq (Parser.foldWhile more round s) (Parser.foldWhile more round s) :=
  .foldWhile rfl (fun _ _ same _ _ h => same ▸ Matching.Shown.same h) fun s _ same => same ▸ rounds s

instance repeatWhile {more : Buffer → Bool} {round : Parser Unit} [Steady round] [M.Shown more]
    [Lockstep M Eq round round] :
    Lockstep M Eq (Parser.repeatWhile more round) (Parser.repeatWhile more round) := by
  unfold Parser.repeatWhile
  infer_instance

theorem shiftWhile {kinds : Token → Bool} (h : ∀ t t', M.token t t' → kinds t' = kinds t) :
    Lockstep M Eq (Parser.shiftWhile kinds) (Parser.shiftWhile kinds) := by
  have : M.Shown fun b : Buffer => kinds b.current := ⟨fun seen => h _ _ seen.current⟩
  have := Lockstep.shift (M := M)
  exact repeatWhile

instance shiftKinds (kinds : TokenKind → Bool) : Lockstep M Eq (Parser.shiftKinds kinds) (Parser.shiftKinds kinds) :=
  shiftWhile fun _ _ h => congrArg kinds (M.kind_eq h)

/-! ### Scopes -/

/-- The value of a scope, without its node. -/
theorem scope_value {p : Parser α} {q : Parser β} {f : Option α → Parser γ} {g : Option β → Parser σ} {S : γ → σ → Prop}
    [∀ a, Steady (f a)] (kind : TreeKind) [TreeKind.OfRule kind] (recovery : Recovery) (inside : Lockstep M R p q)
    (next : ∀ a a', Option.Rel R a a' → Lockstep M S (f a) (g a')) :
    Lockstep M S (Parser.scope kind p recovery >>= fun c => f c.value)
      (Parser.scope kind q recovery >>= fun c => g c.value) :=
  .bind (.scope kind inside recovery) fun _ _ both => next _ _ both.value

instance within (kind : TreeKind) [TreeKind.OfRule kind] {body body' : Parser Unit}
    [inside : Lockstep M Eq body body'] : Lockstep M Eq (Parser.within kind body) (Parser.within kind body') :=
  .bind (.scope kind inside .statement) fun _ _ _ => .pure rfl

instance within_whitespace (kinds : TokenKind → Bool) : Lockstep M Eq (Parser.within .whitespace (Parser.shiftKinds kinds))
    (Parser.within .whitespace (Parser.shiftKinds kinds)) :=
  .bind (.docs kinds) fun _ _ _ => .pure rfl

end Lockstep

end SmithyIdl
