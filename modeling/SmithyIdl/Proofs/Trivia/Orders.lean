import SmithyIdl.Proofs.Buffer.Lockstep
import SmithyIdl.Proofs.Buffer.Runs
import SmithyIdl.Proofs.Trivia.Orderly

/-! # Parsers that keep trivia orderly

In a clean run such a parser adds orderly trees below the innermost open node, and nothing else is changed. As no tree
stands alone, the tokens of what is added are those between the cursors. -/

namespace SmithyIdl

/-- All tokens from `k` up to `i` are of certain kinds. -/
def Only (ts : Array Token) (kinds : TokenKind → Bool) (k i : TokenId) : Prop :=
  ∀ m, k ≤ m → m < i → kinds (kindAt ts m) = true

namespace Only

variable {ts : Array Token} {kinds kinds' : TokenKind → Bool} {i j k : TokenId}

theorem refl : Only ts kinds k k := fun _ le lt => absurd lt (Nat.not_lt.mpr le)

theorem trans (h : Only ts kinds k j) (h' : Only ts kinds j i) : Only ts kinds k i := fun m le lt => by
  rcases Nat.lt_or_ge m j with before | behind
  · exact h m le before
  · exact h' m behind lt

theorem mono (h : Only ts kinds k i) (imp : ∀ kind, kinds kind = true → kinds' kind = true) : Only ts kinds' k i :=
  fun m le lt => imp _ (h m le lt)

theorem single (h : kinds (kindAt ts k) = true) : Only ts kinds k (k + 1) := fun m le lt => by
  obtain rfl : m = k := Nat.le_antisymm (Nat.le_of_lt_succ lt) le
  exact h

end Only

/-- The buffer, over the tokens of a text, shows a view without trees that stand alone. -/
structure Buffer.Gathers (b : Buffer) (ts : Array Token) (v : View) : Prop where
  lexed : ∃ text, ts = (tokens text).toArray
  shown : b.Shows v
  tokens : b.tree.tokens = ts
  alone : v.loose = .nil

theorem range_behind {c d : Nat} {l : List Nat} (h : List.range c ++ l = List.range d) :
    l = List.range' c (d - c) := by
  have drop := congrArg (List.drop c) h
  rwa [List.drop_left' List.length_range, List.range_eq_range', List.drop_range', Nat.mul_one, Nat.zero_add] at drop

namespace Buffer.Gathers

variable {b b' : Buffer} {ts : Array Token} {v w : View} {F : Forest}

theorem kindAt_cursor (h : b.Gathers ts v) : kindAt ts b.cursor = b.current.kind :=
  h.tokens ▸ Buffer.kindAt_cursor h.shown.cursor

/-- What is added takes the tokens between the cursors. -/
theorem range_append (h : b.Gathers ts v) (h' : b'.Gathers ts (v.grow F)) :
    List.range b.cursor ++ F.tokens = List.range b'.cursor := by
  rw [← h.shown.tokens_whole h.alone, ← h'.shown.tokens_whole h'.alone, View.tokens_grow]

theorem tokens_grown (h : b.Gathers ts v) (h' : b'.Gathers ts (v.grow F)) :
    F.tokens = List.range' b.cursor (b'.cursor - b.cursor) := range_behind (h.range_append h')

theorem head_grown (h : b.Gathers ts v) (h' : b'.Gathers ts (v.grow F)) (lt : b.cursor < b'.cursor) :
    F.tokens.head? = some b.cursor := by
  rw [h.tokens_grown h', List.head?_range', if_neg (Nat.sub_ne_zero_of_lt lt)]

/-- The tree may be another one. -/
theorem of_shows (h : b.Gathers ts v) (tokens : b'.tree.tokens = b.tree.tokens) (shown : b'.Shows w)
    (alone : w.loose = .nil) : b'.Gathers ts w := ⟨h.lexed, shown, tokens.trans h.tokens, alone⟩

end Buffer.Gathers

namespace Parser

variable {α β σ : Type} {p q : Parser α} {f : α → Parser β} {b b' : Buffer} {ts : Array Token} {v : View}

/-- A clean run from `b` adds orderly trees below the innermost open node. -/
def OrdersFrom (p : Parser α) (b : Buffer) : Prop :=
  ∀ ⦃ts v a b'⦄, b.Gathers ts v → p.run b = .ok a b' → b'.errors = b.errors →
    ∃ F, b'.Gathers ts (v.grow F) ∧ F.Orderly ts

/-- A parser whose clean runs add orderly trees only. -/
class Orders (p : Parser α) : Prop extends Steady p where
  orders : ∀ b, p.OrdersFrom b

/-- A token that is taken is the last child. -/
theorem shift_gathers (h : b.Gathers ts v) (run : shift.run b = .ok () b') :
    b'.Gathers ts (v.grow (.leaf b.tree.size b.cursor .nil)) ∧ b'.cursor = b.cursor + 1 := by
  obtain ⟨b₁, run₁, shown⟩ := run_shift h.shown (shift_ok run).1
  obtain rfl : b₁ = b' := (Outcome.ok.inj (run₁.symm.trans run)).2
  exact ⟨h.of_shows (Steady.ok run).tokens shown h.alone, shift_cursor run⟩

namespace OrdersFrom

theorem pure {a : α} : (Pure.pure a : Parser α).OrdersFrom b := fun _ v _ _ h run _ => by
  cases run
  exact ⟨.nil, v.grow_nil.symm ▸ h, trivial⟩

theorem fail {problem : Problem} : (Parser.fail problem : Parser α).OrdersFrom b := fun _ _ _ _ _ run => nomatch run

theorem bind [Steady p] [∀ a, Steady (f a)] (h : p.OrdersFrom b)
    (next : ∀ a b₁, p.run b = .ok a b₁ → (f a).OrdersFrom b₁) : (p >>= f).OrdersFrom b := by
  intro ts v c b' gathers run clean
  obtain ⟨a, b₁, first, rest⟩ := bind_eq_ok.mp run
  obtain ⟨clean₁, clean₂⟩ := (Steady.ok first).clean (Steady.ok rest) clean
  obtain ⟨F, gathers₁, orderly⟩ := h gathers first clean₁
  obtain ⟨G, gathers', orderly'⟩ := next a b₁ first gathers₁ rest clean₂
  exact ⟨F ++ G, v.grow_grow F G ▸ gathers', Forest.orderly_append.mpr ⟨orderly, orderly'⟩⟩

theorem ask_bind {g : Buffer → α} (h : (f (g b)).OrdersFrom b) : (Parser.ask g >>= f).OrdersFrom b :=
  fun _ _ _ _ gathers run clean => h gathers run clean

theorem ite {c : Prop} [Decidable c] (pos : c → p.OrdersFrom b) (neg : ¬ c → q.OrdersFrom b) :
    (if c then p else q).OrdersFrom b := by
  by_cases hc : c
  · rw [if_pos hc]
    exact pos hc
  · rw [if_neg hc]
    exact neg hc

theorem look_bind [Steady p] [Looks p] [∀ a, Steady (f a)] (next : ∀ a, p.run b = .ok a b → (f a).OrdersFrom b) :
    (p >>= f).OrdersFrom b := by
  intro ts v c b' gathers run clean
  obtain ⟨a, b₁, first, rest⟩ := bind_eq_ok.mp run
  obtain rfl := Looks.ok first
  exact next a first gathers rest clean

end OrdersFrom

/-! ### Scopes -/

/-- In a clean run of a scope its body runs where the node is open, and the node is closed behind it. -/
theorem scope_shows [Steady p] {kind : TreeKind} {recovery : Recovery} {r : Closed α} (h : b.Shows v)
    (run : (scope kind p recovery).run b = .ok r b') (clean : b'.errors = b.errors) :
    ∃ a b₁ b₂, r = ⟨b.tree.size, some a⟩ ∧ b₁.Shows (v.enter b.tree.size (.plain kind)) ∧ b.Leads b₁ ∧
      b₁.cursor = b.cursor ∧ p.run b₁ = .ok a b₂ ∧ b₂.errors = b₁.errors ∧ b'.tree = b₂.tree ∧
      b'.cursor = b₂.cursor ∧ b'.peek = b₂.peek ∧
      ∀ {w name w₀}, b₂.Shows w → w.names = name :: View.names w₀ → b'.Shows w.leave := by
  obtain ⟨node, a, b₁, b₂, opened, -, inner, clean₂, rfl, rfl⟩ := exists_scope run clean
  obtain ⟨rfl, -, same, -⟩ := openNode_ok opened
  obtain ⟨b₁', opened', shown⟩ := run_openNode h kind
  obtain rfl : b₁' = b₁ := (Outcome.ok.inj (opened'.symm.trans opened)).2
  exact ⟨a, b₁', b₂, rfl, shown, Steady.ok opened, same, inner, clean₂, rfl, rfl, rfl, fun shown names => shown.closed names⟩

theorem within_shows {kind : TreeKind} {body : Parser Unit} [Steady body] (h : b.Shows v)
    (run : (within kind body).run b = .ok () b') (clean : b'.errors = b.errors) :
    ∃ b₁ b₂, b₁.Shows (v.enter b.tree.size (.plain kind)) ∧ b.Leads b₁ ∧ b₁.cursor = b.cursor ∧
      body.run b₁ = .ok () b₂ ∧ b₂.errors = b₁.errors ∧ b'.tree = b₂.tree ∧
      b'.cursor = b₂.cursor ∧ b'.peek = b₂.peek ∧
      ∀ {w name w₀}, b₂.Shows w → w.names = name :: View.names w₀ → b'.Shows w.leave := by
  obtain ⟨r, closed⟩ := exists_of_within run
  obtain ⟨_, b₁, b₂, -, rest⟩ := scope_shows h closed clean
  exact ⟨b₁, b₂, rest⟩

theorem scope_gathers [Steady p] {kind : TreeKind} {recovery : Recovery} {r : Closed α} (h : b.Gathers ts v)
    (run : (scope kind p recovery).run b = .ok r b') (clean : b'.errors = b.errors) :
    ∃ a b₁ b₂, r = ⟨b.tree.size, some a⟩ ∧ b₁.Gathers ts (v.enter b.tree.size (.plain kind)) ∧ b.Leads b₁ ∧
      b₁.cursor = b.cursor ∧ p.run b₁ = .ok a b₂ ∧ b₂.errors = b₁.errors ∧ b'.cursor = b₂.cursor ∧ b'.peek = b₂.peek ∧
      ∀ {w name w₀}, b₂.Gathers ts w → w.names = name :: View.names w₀ → b'.Gathers ts w.leave := by
  obtain ⟨a, b₁, b₂, rfl, shown, leads, same, inner, clean₂, tree, cursor, peek, close⟩ := scope_shows h.shown run clean
  refine ⟨a, b₁, b₂, rfl, h.of_shows leads.tokens shown h.alone, leads, same, inner, clean₂, cursor, peek,
    fun gathers names => gathers.of_shows (congrArg SyntaxTree.tokens tree) (close gathers.shown names) ?_⟩
  rw [View.leave_loose]
  exact gathers.alone

theorem within_gathers {kind : TreeKind} {body : Parser Unit} [Steady body] (h : b.Gathers ts v)
    (run : (within kind body).run b = .ok () b') (clean : b'.errors = b.errors) :
    ∃ b₁ b₂, b₁.Gathers ts (v.enter b.tree.size (.plain kind)) ∧ b.Leads b₁ ∧ b₁.cursor = b.cursor ∧
      body.run b₁ = .ok () b₂ ∧ b₂.errors = b₁.errors ∧ b'.cursor = b₂.cursor ∧ b'.peek = b₂.peek ∧
      ∀ {w name w₀}, b₂.Gathers ts w → w.names = name :: View.names w₀ → b'.Gathers ts w.leave := by
  obtain ⟨r, closed⟩ := exists_of_within run
  obtain ⟨_, b₁, b₂, -, rest⟩ := scope_gathers h closed clean
  exact ⟨b₁, b₂, rest⟩

/-- A node about whose children something is said. -/
theorem OrdersFrom.scope_node [Steady p] {kind : TreeKind} {recovery : Recovery}
    (inside : ∀ b₁, b.Leads b₁ → b₁.cursor = b.cursor → ∀ ⦃ts v a b₂⦄, b₁.Gathers ts v → p.run b₁ = .ok a b₂ →
      b₂.errors = b₁.errors → ∃ F, b₂.Gathers ts (v.grow F) ∧ F.Orderly ts ∧ OrderlyNode ts kind F) :
    (Parser.scope kind p recovery).OrdersFrom b := by
  intro ts v r b' h run clean
  obtain ⟨a, b₁, b₂, rfl, gathers, leads, same, inner, clean₂, -, -, close⟩ := scope_gathers h run clean
  obtain ⟨F, gathers₂, orderly, node⟩ := inside b₁ leads same gathers inner clean₂
  have closed := close gathers₂ (View.enter_names ..)
  rw [View.enter_grow_leave] at closed
  exact ⟨_, closed, fun _ => ⟨node, orderly⟩, trivial⟩

theorem OrdersFrom.scope [Steady p] {kind : TreeKind} {recovery : Recovery} (plain : kind.isPlain = true)
    (inside : ∀ b₁, b.Leads b₁ → b₁.cursor = b.cursor → p.OrdersFrom b₁) :
    (Parser.scope kind p recovery).OrdersFrom b := by
  refine .scope_node fun b₁ leads same ts v a b₂ h run clean => ?_
  obtain ⟨F, gathers, orderly⟩ := inside b₁ leads same h run clean
  exact ⟨F, gathers, orderly, .of_plain plain⟩

theorem OrdersFrom.within {kind : TreeKind} {body : Parser Unit} [Steady body] (plain : kind.isPlain = true)
    (inside : ∀ b₁, b.Leads b₁ → b₁.cursor = b.cursor → body.OrdersFrom b₁) :
    (Parser.within kind body).OrdersFrom b := by
  unfold Parser.within
  exact .bind (.scope plain inside) fun _ _ _ => .pure

namespace Orders

instance pure (a : α) : Orders (Pure.pure a : Parser α) := ⟨fun _ => .pure⟩

instance ask (g : Buffer → α) : Orders (Parser.ask g) where
  orders b _ v _ _ h run _ := by
    cases run
    exact ⟨.nil, v.grow_nil.symm ▸ h, trivial⟩

instance fail (problem : Problem) : Orders (Parser.fail problem : Parser α) := ⟨fun _ => .fail⟩

theorem of_looks [Steady p] [Looks p] : Orders p where
  orders b _ v _ _ h run _ := by
    obtain rfl := Looks.ok run
    exact ⟨.nil, v.grow_nil.symm ▸ h, trivial⟩

instance bind [Orders p] [∀ a, Orders (f a)] : Orders (p >>= f) := ⟨fun b => .bind (orders b) fun _ b₁ _ => orders b₁⟩

theorem seq [Orders p] (h : ∀ a, Orders (f a)) : Orders (p >>= f) := inferInstance

instance ite {c : Prop} [Decidable c] [Orders p] [Orders q] : Orders (if c then p else q) :=
  ⟨fun b => .ite (fun _ => orders b) fun _ => orders b⟩

instance foldWhile {more : σ → Buffer → Bool} {round : σ → Parser σ} [∀ s, Orders (round s)] (s : σ) :
    Orders (Parser.foldWhile more round s) where
  orders b ts v a b' h run clean := by
    let I : σ → Buffer → Prop := fun _ b₁ => ∃ F, b₁.Gathers ts (v.grow F) ∧ F.Orderly ts
    have rounds : ∀ s b₁ s' b₂, b.Leads b₁ → I s b₁ → more s b₁ = true → (round s).run b₁ = .ok s' b₂ →
        b₂.errors = b₁.errors → I s' b₂ := by
      intro s b₁ s' b₂ _ ⟨F, gathers, orderly⟩ _ run₂ clean₂
      obtain ⟨G, gathers', orderly'⟩ := orders b₁ gathers run₂ clean₂
      exact ⟨F ++ G, v.grow_grow F G ▸ gathers', Forest.orderly_append.mpr ⟨orderly, orderly'⟩⟩
    have first : I s b := ⟨.nil, v.grow_nil.symm ▸ h, trivial⟩
    exact (foldWhile_clean rounds first run clean).1

/-- The first step of a clean run is clean, and so is the rest. -/
theorem bind_clean [Orders p] [∀ a, Steady (f a)] {c : β} (h : b.Gathers ts v) (run : (p >>= f).run b = .ok c b')
    (clean : b'.errors = b.errors) : ∃ a b₁ F, p.run b = .ok a b₁ ∧ b₁.errors = b.errors ∧ b₁.Gathers ts (v.grow F) ∧
      F.Orderly ts ∧ (f a).run b₁ = .ok c b' ∧ b'.errors = b₁.errors := by
  obtain ⟨a, b₁, first, rest⟩ := bind_eq_ok.mp run
  obtain ⟨clean₁, clean₂⟩ := (Steady.ok first).clean (Steady.ok rest) clean
  obtain ⟨F, gathers, orderly⟩ := orders b h first clean₁
  exact ⟨a, b₁, F, first, clean₁, gathers, orderly, rest, clean₂⟩

/-! ### Tokens -/

instance hasNext : Orders Parser.hasNext := .ask _

instance current : Orders Parser.current := .ask _

instance isAt (kind : TokenKind) : Orders (Parser.isAt kind) := .ask _

instance isAtKeyword (name : String) : Orders (Parser.isAtKeyword name) := .ask _

instance errorCount : Orders Parser.errorCount := .ask _

instance expect (kind : TokenKind) : Orders (Parser.expect kind) := .of_looks

instance shift : Orders Parser.shift where
  orders b ts v a b' h run _ := by
    obtain ⟨gathers, -⟩ := shift_gathers h run
    exact ⟨_, gathers, trivial⟩

instance next : Orders Parser.next := by
  unfold Parser.next
  infer_instance

instance consumeAny : Orders Parser.consumeAny := by
  unfold Parser.consumeAny
  infer_instance

instance consume (kind : TokenKind) : Orders (Parser.consume kind) := by
  unfold Parser.consume
  infer_instance

/-! ### Nodes -/

/-- Below a lower node nothing is asked. -/
instance scope_lower [Grows p] (kind : TreeKind) [lower : TreeKind.Computed kind.isLower] (recovery : Recovery) :
    Orders (Parser.scope kind p recovery) where
  orders b ts v r b' h run _ := by
    obtain ⟨F, shown⟩ := (scope_grows h.shown).holds run
    exact ⟨_, h.of_shows (Steady.ok run).tokens shown h.alone,
      Forest.orderly_lower lower.holds⟩

instance scope [Orders p] (kind : TreeKind) [plain : TreeKind.Computed kind.isPlain] (recovery : Recovery) :
    Orders (Parser.scope kind p recovery) :=
  ⟨fun _ => .scope plain.holds fun b₁ _ _ => orders b₁⟩

instance within_lower (kind : TreeKind) [TreeKind.Computed kind.isLower] (body : Parser Unit) [Grows body] :
    Orders (Parser.within kind body) := by
  unfold Parser.within
  infer_instance

instance within (kind : TreeKind) [TreeKind.Computed kind.isPlain] (body : Parser Unit) [Orders body] :
    Orders (Parser.within kind body) := by
  unfold Parser.within
  infer_instance

end Orders

end Parser

end SmithyIdl
