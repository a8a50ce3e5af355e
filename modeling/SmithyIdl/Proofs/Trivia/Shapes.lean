import SmithyIdl.Proofs.Trivia.Members

/-! # Trivia in shapes

The members of a shape stand in braces. The properties of an operation are no members; behind the name of one, a
documentation comment stands before a colon only. -/

set_option synthInstance.maxSize 2000

namespace SmithyIdl

open SmithyIdl.Parser

/-- Behind an opening brace and trivia nothing is for what comes. -/
theorem trail_of_brace {ts : Array Token} {i j : TokenId} (brace : kindAt ts j = .lbrace) (lt : j < i)
    (trivia : Only ts TokenKind.isTrivia (j + 1) i) : Trail ts j i i where
  before := lt
  upTo := Nat.le_refl i
  last := by rw [brace]; rfl
  trivia := fun m => trivia m
  begins := fun lt => absurd lt (Nat.lt_irrefl i)
  opens := fun _ => rfl
  none := fun other => absurd brace other

namespace Grammar

variable {b b' : Buffer} {ts : Array Token} {v : View}

/-! ### Braces -/

theorem braced_orders {kind : TreeKind} {contents : Parser Unit} [Steady contents] (plain : kind.isPlain = true)
    (here : b.current.kind = .lbrace) (inside : OrdersInBraces contents) : (braced kind contents).OrdersFrom b := by
  refine .within plain fun b₁ leads same ts v r b' h run clean => ?_
  obtain ⟨_, b₂, T, taken, -, h₂, orderlyT, run, clean⟩ := Orders.bind_clean h run clean
  obtain ⟨_, b₃, W, white, clean₃, h₃, orderlyW, run, clean⟩ := Orders.bind_clean h₂ run clean
  have next := shift_cursor (consumeAny_ok taken)
  obtain ⟨-, -, -, only, -⟩ := whitespace_skips h₂ white clean₃
  have brace : kindAt ts b₁.cursor = .lbrace := by rw [h.kindAt_cursor, leads.current_of_same same, here]
  rw [next] at only
  have trail := trail_of_brace brace (Nat.lt_of_lt_of_le (next ▸ Nat.lt_succ_self _) (Steady.ok white).cursor) only
  rw [← h₃.tokens] at trail
  obtain ⟨C, h₄, orderlyC⟩ := (inside trail).bind (fun _ b₄ _ => Orders.orders b₄) h₃ run clean
  rw [View.grow_grow, View.grow_grow] at h₄
  exact ⟨_, h₄, Forest.orderly_append.mpr ⟨orderlyT, Forest.orderly_append.mpr ⟨orderlyW, orderlyC⟩⟩⟩

/-- The head of a shape ends before the opening brace. -/
theorem isAt_of_headUpToBrace (run : headUpToBrace.run b = .ok () b') : b'.current.kind = .lbrace := by
  unfold headUpToBrace at run
  obtain ⟨_, b₁, -, run⟩ := bind_eq_ok.mp run
  obtain ⟨_, b₂, -, run⟩ := bind_eq_ok.mp run
  obtain ⟨_, b₃, -, run⟩ := bind_eq_ok.mp run
  obtain ⟨rfl, here⟩ := expect_ok run
  exact here

theorem headed_orders {kind : TreeKind} {contents : Parser Unit} [Steady contents] (plain : kind.isPlain = true)
    (inside : OrdersInBraces contents) : Orders (headUpToBrace >>= fun _ => braced kind contents) where
  toSteady := by
    unfold braced
    infer_instance
  orders b :=
    have : Steady (braced kind contents) := by
      unfold braced
      infer_instance
    .bind (Orders.orders b) fun _ _ run => braced_orders plain (isAt_of_headUpToBrace run) inside

/-! ### Shapes with members -/

instance enumStatement_orders : Orders enumStatement := headed_orders rfl (membersOf_orders enumMember_passesOn)

instance listStatement_orders : Orders listStatement := headed_orders rfl listMember_orders.optional

instance mapStatement_orders : Orders mapStatement := headed_orders rfl keyAndValue_orders.optional

theorem memberBlock_orders {container wrapper : TreeKind} {slot : MemberSlot} (plain : container.isPlain = true)
    (plain' : wrapper.isPlain = true) : Orders (memberBlock container wrapper slot) where
  toSteady := inferInstance
  orders b := by
    unfold memberBlock
    refine .look_bind fun _ found => braced_orders plain (expect_ok found).2 (membersOf_orders ?_)
    exact memberIn_passesOn plain' (blockMember_passesOn slot)

instance structureRest_orders : Orders structureRest := by
  have : Orders (memberBlock .structureMembers .structureMember .inStructure) := memberBlock_orders rfl rfl
  unfold structureRest
  infer_instance

instance structureStatement_orders : Orders structureStatement := by
  unfold structureStatement
  infer_instance

instance unionStatement_orders : Orders unionStatement := by
  have : Orders (memberBlock .unionMembers .unionMember .inUnion) := memberBlock_orders rfl rfl
  unfold unionStatement
  infer_instance

/-! ### Operations -/

theorem consume_gathers {kind : TokenKind} (h : b.Gathers ts v) (run : (consume kind).run b = .ok () b') :
    b.current.kind = kind ∧ b'.Gathers ts (v.grow (.leaf b.tree.size b.cursor .nil)) := by
  unfold consume at run
  obtain ⟨_, b₁, found, run⟩ := bind_eq_ok.mp run
  obtain ⟨_, b₂, taken, done⟩ := bind_eq_ok.mp run
  cases done
  obtain ⟨rfl, here⟩ := expect_ok found
  exact ⟨here, (shift_gathers h (next_ok taken)).1⟩

/-- Up to the sign of an inline structure there is whitespace only, if that is what was looked for. -/
theorem ne_docComment_of_definesInline {s : TokenId} (h : b.Gathers ts v) (inline : definesInline b = true)
    (trivia : Only ts TokenKind.isTrivia (b.cursor + 1) s) (inside : s ≤ b.eof) :
    ∀ m, b.cursor < m → m < s → kindAt ts m ≠ .docComment := by
  intro m lower upper doc
  obtain ⟨n, le, found, all⟩ := b.exists_lookPast 1 TokenKind.isWhitespace
  have sign : (b.peek n).kind = .walrus := found ▸ of_decide_eq_true inline
  have kind_peek {k : Nat} (lt : b.cursor + k < s) : (b.peek k).kind = kindAt ts (b.cursor + k) := by
    rw [← h.tokens, Buffer.peek, Nat.min_eq_left (Nat.le_trans (Nat.le_of_lt lt) inside), kindAt]
  obtain ⟨d, rfl⟩ := Nat.exists_eq_add_of_le (Nat.le_of_lt lower)
  rcases Nat.lt_or_ge d n with before | behind
  · have white := (all d (Nat.lt_add_right_iff_pos.mp lower) before).2
    rw [kind_peek upper, doc] at white
    cases white
  · have lt : b.cursor + n < s := Nat.lt_of_le_of_lt (Nat.add_le_add_left behind _) upper
    have other := trivia (b.cursor + n) (Nat.add_le_add_left le _) lt
    rw [← kind_peek lt, sign] at other
    cases other

/-- The inline structure begins with its sign. -/
theorem inlineStructure_gathers (h : b.Gathers ts v) (run : inlineStructure.run b = .ok () b')
    (clean : b'.errors = b.errors) : b.current.kind = .walrus ∧
      ∃ id inner, b'.Gathers ts (v.grow (.branch id (.plain .inlineStructure) inner .nil)) ∧ inner.Orderly ts ∧
        inner.tokens.head? = some b.cursor := by
  unfold inlineStructure at run
  obtain ⟨_, b₁, found, stated⟩ := bind_eq_ok.mp run
  obtain ⟨rfl, here⟩ := expect_ok found
  obtain ⟨b₂, b₃, h₂, leads, same, inner, clean₂, -, -, close⟩ := within_gathers h stated clean
  obtain ⟨F, h₃, orderly⟩ := Orders.orders b₂ h₂ inner clean₂
  have closed' := close h₃ (View.enter_names ..)
  rw [View.enter_grow_leave] at closed'
  have lt : b₂.cursor < b₃.cursor :=
    Eats.eats h₂.shown.ends (h₂.shown.ends.hasNext (by rw [leads.current_of_same same, here]; decide)) inner
  exact ⟨here, _, F, closed', orderly, same ▸ h₂.head_grown h₃ lt⟩

theorem keyword_cursor {b₁ : Buffer} (h : b.Gathers ts v) (run : keyword.run b = .ok () b₁)
    (clean : b₁.errors = b.errors) : b₁.cursor = b.cursor + 1 := by
  obtain ⟨b₂, b₃, -, -, same, taken, -, cursor, -⟩ := within_gathers h run clean
  rw [cursor, shift_cursor (consumeAny_ok taken), same]

/-- Behind the name of an input or output comes a colon, or the sign of an inline structure. -/
theorem operationTarget_signed (h : b.Gathers ts v) (run : operationTarget.run b = .ok () b')
    (clean : b'.errors = b.errors) : ∃ F, b'.Gathers ts (v.grow F) ∧ F.Orderly ts ∧ Signed ts F := by
  unfold operationTarget at run
  obtain ⟨inline, b₁, hask, run⟩ := bind_eq_ok.mp run
  cases hask
  obtain ⟨_, b₁, K, named, clean₁, h₁, orderlyK, run, clean⟩ := Orders.bind_clean h run clean
  obtain ⟨_, b₂, W, white, clean₂, h₂, orderlyW, run, clean⟩ := Orders.bind_clean h₁ run clean
  have behind := keyword_cursor h named clean₁
  obtain ⟨-, -, -, only, -⟩ := whitespace_skips h₁ white clean₂
  rw [behind] at only
  have lt₁ : b.cursor < b₁.cursor := behind ▸ Nat.lt_succ_self _
  have lt : b.cursor < b₂.cursor := Nat.lt_of_lt_of_le lt₁ (Steady.ok white).cursor
  have head (R : Forest) : (K ++ W ++ R).tokens.head? = some b.cursor := by
    rw [Forest.append_assoc, Forest.tokens_append, List.head?_append, h.head_grown h₁ lt₁]
    rfl
  rw [View.grow_grow] at h₂
  have orderly := Forest.orderly_append.mpr ⟨orderlyK, orderlyW⟩
  by_cases inline : definesInline b = true
  · rw [if_pos inline] at run
    obtain ⟨sign, id, inner, h₃, orderlyI, first⟩ := inlineStructure_gathers h₂ run clean
    rw [View.grow_grow] at h₃
    have inside : b₂.cursor ≤ b.eof := by
      rw [← (Steady.ok named).eof, ← (Steady.ok white).eof]
      exact h₂.shown.cursor
    refine ⟨_, h₃, Forest.orderly_append.mpr ⟨orderly, fun _ => ⟨trivial, orderlyI⟩, trivial⟩, b.cursor, b₂.cursor,
      head _, lt, only, .inr ⟨h₂.kindAt_cursor.trans sign, ?_, _, id, inner, rfl, first⟩⟩
    exact ne_docComment_of_definesInline h inline only inside
  · rw [if_neg inline] at run
    obtain ⟨_, b₃, coloned, run⟩ := bind_eq_ok.mp run
    have rest : Steady (do
      whitespace
      shapeId false) := inferInstance
    obtain ⟨-, clean₄⟩ := (Steady.ok coloned).clean (rest.ok run) clean
    obtain ⟨sign, h₃⟩ := consume_gathers h₂ coloned
    obtain ⟨R, h₄, orderlyR⟩ := (Orders.seq fun _ => shapeId_orders false).orders b₃ h₃ run clean₄
    rw [View.grow_grow, View.grow_grow, ← Forest.append_assoc] at h₄
    have kind := h₂.kindAt_cursor.trans sign
    refine ⟨_, h₄, ?_, b.cursor, b₂.cursor, ?_, lt, only, .inl ⟨kind, ?_⟩⟩
    · exact Forest.orderly_append.mpr ⟨Forest.orderly_append.mpr ⟨orderly, trivial⟩, orderlyR⟩
    · rw [Forest.append_assoc]
      exact head _
    · simp [kind]

theorem operationTarget_orders {kind : TreeKind} (operand : kind = .operationInput ∨ kind = .operationOutput) :
    Orders (within kind operationTarget) where
  toSteady := inferInstance
  orders b := by
    unfold within
    refine .bind (.scope_node fun b₁ _ _ ts v _ b₂ h run clean => ?_) fun _ _ _ => .pure
    obtain ⟨F, h', orderly, signed⟩ := operationTarget_signed h run clean
    exact ⟨F, h', orderly, by rcases operand with rfl | rfl <;> exact signed⟩

instance propertyOfName_orders (name : String) : Orders (propertyOfName name) := by
  unfold propertyOfName propertyOf?
  split
  · next found =>
    split at found <;> cases found
    · exact operationTarget_orders (.inl rfl)
    · exact operationTarget_orders (.inr rfl)
    · infer_instance
  · infer_instance

instance operationProperty_orders (seen : List String) : Orders (operationProperty seen) := by
  dsimp only [operationProperty]
  infer_instance

instance operationStatement_orders : Orders operationStatement := headed_orders rfl fun _ _ _ => Orders.orders _

/-! ### Shape bodies -/

instance simpleStatement_grows : Grows simpleStatement := by
  unfold simpleStatement
  infer_instance

instance entityStatement_grows : Grows entityStatement := by
  unfold entityStatement
  infer_instance

instance shapeOfType_orders (type : String) : Orders (shapeOfType type) := by
  unfold shapeOfType
  split
  · next form _ =>
    cases form <;> (dsimp only [ShapeForm.kind, ShapeForm.statement]; infer_instance)
  · infer_instance

instance shapeBody_orders : Orders shapeBody := by
  unfold shapeBody
  infer_instance

end Grammar

end SmithyIdl
