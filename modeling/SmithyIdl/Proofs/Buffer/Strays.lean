import SmithyIdl.Proofs.Buffer.Quiet

/-! # Where a run can end

Of a run from some token on it is said at which tokens it can end and at which it can fail. Where no recovery stops before
a closing brace that begins its line, what fails before this brace is reported with all tokens up to it, and goes on
there. -/

namespace SmithyIdl

open SmithyIdl.Parser

namespace Buffer

variable {b₀ b b' : Buffer} {d : Nat} {k : TokenId}

/-- `b` is `b₀` or behind it and has `d` open nodes. -/
structure Stands (b₀ : Buffer) (d : Nat) (b : Buffer) : Prop where
  leads : b₀.Leads b
  openNodes : b.openNodes.length = d

namespace Stands

theorem start (b : Buffer) : b.Stands b.openNodes.length b := ⟨.refl b, rfl⟩

theorem step (h : b₀.Stands d b) (leads : b.Leads b') (same : b'.openNodes = b.openNodes) : b₀.Stands d b' :=
  ⟨h.leads.trans leads, same ▸ h.openNodes⟩

theorem current (h : b₀.Stands d b) : b.current = b₀.tokenAt b.cursor := by rw [current_eq, h.leads.tokenAt_eq]

theorem isAt (h : b₀.Stands d b) (kind : TokenKind) : b.isAt kind = decide ((b₀.tokenAt b.cursor).kind = kind) := by
  rw [Buffer.isAt, h.current]

theorem hasNext (h : b₀.Stands d b) : b.hasNext = decide (b.cursor < b₀.eof) := by rw [Buffer.hasNext, h.leads.eof]

end Stands

theorem peek_eq (b : Buffer) (j : Nat) : b.peek j = b.tokenAt (b.cursor + j) := rfl

/-- A look past the tokens of a class goes no further than to a token of another class. -/
theorem lookPast_within (b : Buffer) (kinds : TokenKind → Bool) (before : b.cursor ≤ k) (stops : kinds (b.tokenAt k).kind = false) :
    ∃ i, b.cursor ≤ i ∧ i ≤ k ∧ b.lookPast 0 kinds = b.tokenAt i ∧
      ∀ l, b.cursor ≤ l → l < i → kinds (b.tokenAt l).kind = true := by
  obtain ⟨m, -, same, passed⟩ := b.exists_lookPast 0 kinds
  refine ⟨b.cursor + m, Nat.le_add_right _ m, Nat.le_of_not_lt fun further => ?_, same, fun l onward short => ?_⟩
  · have among := (passed (k - b.cursor) (Nat.zero_le _) (by omega)).2
    rw [peek_eq, Nat.add_sub_of_le before, stops] at among
    cases among
  · have among := (passed (l - b.cursor) (Nat.zero_le _) (by omega)).2
    rwa [peek_eq, Nat.add_sub_of_le onward] at among

end Buffer

namespace Parser

variable {α β σ : Type} {b₀ b b' : Buffer} {d : Nat} {c k o e : TokenId} {p : Parser α} {f : α → Parser β}
  {W V : TokenId → Prop} {A C : α → TokenId → Prop} {D : β → TokenId → Prop}

/-! ### Reports -/

theorem recover_before (before : b.cursor ≤ e) (start : startsStatement (b.tokenAt e) = true)
    (run : (recover .statement).run b = .ok () b') : b'.cursor ≤ e := by
  refine (foldWhile_ok (I := fun _ b₁ => b.Leads b₁ ∧ b₁.cursor ≤ e) (fun _ b₁ _ b₂ h more taken => ?_)
    ⟨.refl b, before⟩ run).1.2
  have other : b₁.cursor ≠ e := fun here => by
    have stops : startsStatement b₁.current = false := by simpa using (Bool.and_eq_true_iff.mp more).2
    rw [Buffer.current_eq, here, h.1.tokenAt_eq, start] at stops
    cases stops
  exact ⟨h.1.trans (Steady.ok taken), shift_cursor taken ▸ Nat.lt_of_le_of_ne h.2 other⟩

/-- A report that begins before a token at which a statement can begin does not go past it. -/
theorem report_before {cause : SyntaxError} (before : b.cursor < e) (start : startsStatement (b.tokenAt e) = true)
    (run : (report cause .statement).run b = .ok () b') : b'.cursor ≤ e := by
  unfold report at run
  obtain ⟨node, b₁, added, run⟩ := bind_eq_ok.mp run
  obtain ⟨-, -, cursor, -⟩ := addError_ok added
  rw [run_bind_of_ok (run_hasNext b₁), run_ite] at run
  split at run
  · obtain ⟨_, b₂, pushed, run⟩ := bind_eq_ok.mp run
    obtain ⟨_, b₃, taken, run⟩ := bind_eq_ok.mp run
    obtain ⟨_, b₄, recovered, popped⟩ := bind_eq_ok.mp run
    have leads : b.Leads b₃ := (Steady.ok added).trans ((Steady.ok pushed).trans (Steady.ok taken))
    have first := shift_cursor taken
    have within : b₄.cursor ≤ e := by
      cases pushed
      dsimp only at first
      exact recover_before (by omega) (leads.tokenAt_eq e ▸ start) recovered
    cases popped
    exact within
  · cases run
    omega

/-! ### Runs -/

/-- From the token `c` on and with `d` open nodes, the parser succeeds where `C` holds of its value and of the token to come
    then, or it fails at a token of `W`. -/
structure Halts (b₀ : Buffer) (W : TokenId → Prop) (d : Nat) (c : TokenId) (p : Parser α) (C : α → TokenId → Prop) :
    Prop where
  ok : ∀ {b a b'}, b₀.Stands d b → b.cursor = c → p.run b = .ok a b' → b₀.Stands d b' ∧ C a b'.cursor
  error : ∀ {b cause b'}, b₀.Stands d b → b.cursor = c → p.run b = .error cause b' → b₀.Stands d b' ∧ W b'.cursor

namespace Halts

theorem of_unfailing [Unfailing p] (h : ∀ {b a b'}, b₀.Stands d b → b.cursor = c → p.run b = .ok a b' →
    b₀.Stands d b' ∧ C a b'.cursor) : Halts b₀ W d c p C :=
  ⟨h, fun _ _ run => absurd run Unfailing.not_error⟩

theorem mono (h : Halts b₀ V d c p A) (weaken : ∀ a c', A a c' → C a c') (fails : ∀ c', V c' → W c') :
    Halts b₀ W d c p C where
  ok stands here run := (h.ok stands here run).imp_right (weaken _ _)
  error stands here run := (h.error stands here run).imp_right (fails _)

theorem pure {a : α} (h : C a c) : Halts b₀ W d c (Pure.pure a) C :=
  of_unfailing fun stands here run => by
    cases run
    exact ⟨stands, here ▸ h⟩

theorem bind (first : Halts b₀ W d c p A) (next : ∀ a c', A a c' → Halts b₀ W d c' (f a) D) :
    Halts b₀ W d c (p >>= f) D where
  ok stands here run := by
    obtain ⟨a, b₁, taken, run⟩ := bind_eq_ok.mp run
    obtain ⟨stands₁, ends⟩ := first.ok stands here taken
    exact (next a _ ends).ok stands₁ rfl run
  error stands here run := by
    rcases bind_eq_error.mp run with failed | ⟨a, b₁, taken, run⟩
    · exact first.error stands here failed
    · obtain ⟨stands₁, ends⟩ := first.ok stands here taken
      exact (next a _ ends).error stands₁ rfl run

theorem fail {problem : Problem} (h : W c) : Halts b₀ W d c (Parser.fail problem : Parser α) C where
  ok _ _ run := by cases run
  error stands here run := by
    cases run
    exact ⟨stands, here ▸ h⟩

/-- What is seen where the token `c` is to come. -/
theorem ask {g : Buffer → α} (h : ∀ {b}, b₀.Stands d b → b.cursor = c → C (g b) c) :
    Halts b₀ W d c (Parser.ask g) C :=
  of_unfailing fun stands here run => by
    cases run
    exact ⟨stands, here.symm ▸ h stands here⟩

theorem current : Halts b₀ W d c Parser.current fun t c' => c' = c ∧ t = b₀.tokenAt c :=
  .ask fun stands here => ⟨rfl, here ▸ stands.current⟩

theorem isAt (kind : TokenKind) :
    Halts b₀ W d c (Parser.isAt kind) fun a c' => c' = c ∧ a = decide ((b₀.tokenAt c).kind = kind) :=
  .ask fun stands here => ⟨rfl, here ▸ stands.isAt kind⟩

theorem shift : Halts b₀ W d c Parser.shift fun _ c' => c' = c + 1 :=
  of_unfailing fun stands here run => ⟨stands.step (Steady.ok run) (KeepsOpen.ok run), here ▸ shift_cursor run⟩

theorem consumeAny (left : c < b₀.eof) : Halts b₀ W d c Parser.consumeAny fun _ c' => c' = c + 1 := by
  have next : Halts b₀ W d c Parser.hasNext fun next c' => c' = c ∧ next = true :=
    .ask fun stands here => ⟨rfl, stands.hasNext.trans (decide_eq_true (here ▸ left))⟩
  unfold Parser.consumeAny Parser.next
  refine .bind (A := fun _ c' => c' = c + 1) (.bind next ?_) fun _ _ there => .pure there
  rintro more c' ⟨rfl, rfl⟩
  rw [if_pos rfl]
  refine .bind .current ?_
  rintro token c' ⟨rfl, -⟩
  exact .bind .shift fun _ _ there => .pure there

theorem expectAny {kinds : TokenSet} (h : W c) : Halts b₀ W d c (Parser.expectAny kinds) fun kind c' =>
    c' = c ∧ kind = (b₀.tokenAt c).kind ∧ kinds.contains kind = true := by
  unfold Parser.expectAny
  refine .bind .current ?_
  rintro token c' ⟨rfl, rfl⟩
  by_cases among : kinds.contains (b₀.tokenAt c').kind = true
  · rw [if_pos among]
    exact .pure ⟨rfl, rfl, among⟩
  · rw [if_neg among]
    split <;> exact .fail h

theorem expect {kind : TokenKind} (h : W c) :
    Halts b₀ W d c (Parser.expect kind) fun _ c' => c' = c ∧ (b₀.tokenAt c).kind = kind := by
  refine .bind (.expectAny h) ?_
  rintro kind' c' ⟨rfl, rfl, among⟩
  rw [TokenSet.contains_single, decide_eq_true_eq] at among
  exact .pure ⟨rfl, among.symm⟩

theorem consume {kind : TokenKind} (h : W c) (left : c < b₀.eof) :
    Halts b₀ W d c (Parser.consume kind) fun _ c' => c' = c + 1 ∧ (b₀.tokenAt c).kind = kind := by
  refine .bind (.expect h) ?_
  rintro _ c' ⟨rfl, kind⟩
  exact (consumeAny left).mono (fun _ _ there => ⟨there, kind⟩) fun _ => id

theorem adoptDocs (docs : Option NodeId) : Halts b₀ W d c (Parser.adoptDocs docs) fun _ c' => c' = c :=
  of_unfailing fun stands here run => ⟨stands.step (Steady.ok run) (KeepsOpen.ok run), here ▸ adoptDocs_cursor run⟩

/-! ### Repetitions -/

section
variable {more : σ → Buffer → Bool} {round : σ → Parser σ} {g : σ → TokenId → Bool} {I : σ → TokenId → Prop} {s : σ}
  (shows : ∀ s b, b₀.Stands d b → more s b = g s b.cursor)
  (rounds : ∀ s c, I s c → g s c = true → Halts b₀ W d c (round s) I)
include shows rounds

/-- By induction on the tokens that are left. -/
theorem foldBelow {left : Nat} (stands : b₀.Stands d b) (start : I s b.cursor) :
    (∀ s' b', foldBelow more round left s b = .ok s' b' → b₀.Stands d b' ∧ I s' b'.cursor ∧ g s' b'.cursor = false) ∧
      ∀ cause b', foldBelow more round left s b = .error cause b' → b₀.Stands d b' ∧ W b'.cursor := by
  induction left using Nat.strongRecOn generalizing s b with
  | ind left ih =>
    rw [Parser.foldBelow, shows s b stands]
    by_cases goes : g s b.cursor = true
    · rw [if_pos goes]
      have halts := rounds s _ start goes
      cases taken : round s b with
      | ok s₁ b₁ =>
        obtain ⟨stands₁, next⟩ := halts.ok stands rfl taken
        dsimp only
        split
        · next fewer => exact ih _ fewer stands₁ next
        · simp
      | error cause b₁ =>
        dsimp only
        refine ⟨nofun, fun cause' b' same => ?_⟩
        obtain ⟨rfl, rfl⟩ := Outcome.error.inj same
        exact halts.error stands rfl taken
      | fault why => simp
    · rw [if_neg goes]
      refine ⟨fun s' b' same => ?_, by simp⟩
      obtain ⟨rfl, rfl⟩ := Outcome.ok.inj same
      exact ⟨stands, start, eq_false_of_ne_true goes⟩

/-- What every round keeps holds at the end. -/
theorem foldWhile (start : I s c) :
    Halts b₀ W d c (Parser.foldWhile more round s) fun s' c' => I s' c' ∧ g s' c' = false where
  ok stands here run := (foldBelow shows rounds stands (here ▸ start)).1 _ _ run
  error stands here run := (foldBelow shows rounds stands (here ▸ start)).2 _ _ run

end

/-- No token of another class is taken. -/
theorem shiftKinds {kinds : TokenKind → Bool} (before : c ≤ k) (stops : kinds (b₀.tokenAt k).kind = false) :
    Halts b₀ W d c (Parser.shiftKinds kinds) fun _ c' => c ≤ c' ∧ c' ≤ k := by
  refine (foldWhile (g := fun _ c' => decide (c' < b₀.eof) && kinds (b₀.tokenAt c').kind) (I := fun _ c' => c ≤ c' ∧ c' ≤ k)
    (fun _ b stands => ?_) (fun _ c' h goes => ?_) ⟨Nat.le_refl c, before⟩).mono (fun _ _ h => h.1) fun _ => id
  · dsimp only
    rw [stands.hasNext, stands.current]
  have other : c' ≠ k := fun here => by
    rw [here, stops, Bool.and_false] at goes
    cases goes
  refine shift.mono (fun _ c'' there => ?_) fun _ => id
  subst there
  exact ⟨Nat.le_succ_of_le h.1, Nat.lt_of_le_of_ne h.2 other⟩

/-! ### Scopes -/

theorem limited (room : d ≤ b₀.maxDepth) (h : Halts b₀ W d c p C) : Halts b₀ W d c (Parser.limited p) C := by
  have allowed : Halts b₀ W d c (Parser.ask Buffer.isTooDeep) fun deep c' => c' = c ∧ deep = false :=
    .ask fun stands _ => ⟨rfl, by rw [Buffer.isTooDeep, stands.leads.maxDepth, stands.openNodes]; simpa using room⟩
  unfold Parser.limited
  refine .bind allowed ?_
  rintro deep c' ⟨rfl, rfl⟩
  rwa [if_neg Bool.false_ne_true]

/-- What failed before the closing brace is reported up to it. -/
theorem recovering (quiet : b₀.Quiet o e) (start : startsStatement (b₀.tokenAt e) = true)
    (inside : ∀ c, V c → o ≤ c ∧ c < e) (h : Halts b₀ V d c p C) : Halts b₀ W d c (Parser.recovering .statement p) fun r c' =>
      (∃ a ∈ r, C a c') ∨ r = none ∧ c' = e ∧ ∃ c, V c :=
  of_unfailing fun stands here run => by
    rcases recovering_ok run with ⟨a, rfl, taken⟩ | ⟨rfl, cause, b₁, failed, reported⟩
    · exact (h.ok stands here taken).imp_right fun ends => .inl ⟨a, rfl, ends⟩
    · obtain ⟨stands₁, fails⟩ := h.error stands here failed
      obtain ⟨behind, before⟩ := inside _ fails
      have within := report_before before (stands₁.leads.tokenAt_eq e ▸ start) reported
      have settles := report_settles (quiet.leads stands₁.leads) behind reported within
      exact ⟨stands₁.step (Steady.ok reported) (KeepsOpen.ok reported), .inr ⟨rfl, settles.2.2, _, fails⟩⟩

/-- What runs in a new node ends as it does alone, or a failure in it was reported. -/
theorem scope (room : d < b₀.maxDepth) (quiet : b₀.Quiet o e) (start : startsStatement (b₀.tokenAt e) = true)
    (inside : ∀ c, V c → o ≤ c ∧ c < e) {kind : TreeKind} (h : Halts b₀ V (d + 1) c p C) :
    Halts b₀ W d c (Parser.scope kind p) fun r c' => (∃ a ∈ r.value, C a c') ∨ r.value = none ∧ c' = e ∧ ∃ c, V c :=
  of_unfailing fun stands here run => by
    unfold Parser.scope at run
    obtain ⟨node, b₁, opened, run⟩ := bind_eq_ok.mp run
    obtain ⟨value, b₂, caught, run⟩ := bind_eq_ok.mp run
    obtain ⟨_, b₃, closed, done⟩ := bind_eq_ok.mp run
    cases done
    have stands₁ : b₀.Stands (d + 1) b₁ :=
      ⟨stands.leads.trans (Steady.ok opened), by rw [KeepsOpen.openNode_ok opened, List.length_cons, stands.openNodes]⟩
    obtain ⟨stands₂, ends⟩ := (recovering (W := W) quiet start inside (h.limited room)).ok stands₁
      ((openNode_ok opened).2.2.1.trans here) caught
    have leads := stands₂.leads.trans (Steady.ok closed)
    cases closeNode_ok closed
    exact ⟨⟨leads, by rw [List.length_tail, stands₂.openNodes, Nat.add_one_sub_one]⟩, ends⟩

end Halts

end Parser

end SmithyIdl
