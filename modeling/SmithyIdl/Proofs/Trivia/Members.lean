import SmithyIdl.Proofs.Buffer.Edits
import SmithyIdl.Proofs.Grammar.Statements
import SmithyIdl.Proofs.Trivia.Lasts

/-! # Documentation comments of members

A member adopts the documentation comments before it and hands on those behind it. Only the first member of a shape is
handed none: the trivia behind the opening brace is taken as a whole. -/

set_option synthInstance.maxSize 2000

namespace SmithyIdl

open SmithyIdl.Parser

namespace Grammar

/-! ### Rules without statements, members or operations

Nothing of interest stands below the nodes of whitespace, values, traits and heads. -/

instance spaces_orders : Orders spaces := by
  unfold spaces
  infer_instance

instance someSpaces_orders : Orders someSpaces := by
  unfold someSpaces
  infer_instance

instance whitespace_orders : Orders whitespace := by
  unfold whitespace
  infer_instance

instance keyword_orders : Orders keyword := by
  unfold keyword
  infer_instance

instance shapeId_orders (allowMember : Bool) : Orders (shapeId allowMember) := by
  dsimp only [shapeId]
  infer_instance

instance nodeValueWithin_orders (n : Nat) : Orders (nodeValueWithin n) := by
  cases n <;> (unfold nodeValueWithin; infer_instance)

instance nodeValue_orders : Orders nodeValue := by
  unfold nodeValue
  infer_instance

instance traitStatements_orders : Orders traitStatements := by
  unfold traitStatements
  have : NeedsNext fun (_ : Unit) b => b.isAt .atSign := needsNext_isAt (by decide)
  infer_instance

instance memberTraits_orders : Orders memberTraits := by
  unfold memberTraits
  infer_instance

instance typedName_orders : Orders typedName := by
  unfold typedName
  infer_instance

instance mixins_orders : Orders mixins := by
  unfold mixins
  infer_instance

instance structureResource_orders : Orders structureResource := by
  unfold structureResource
  infer_instance

instance headUpToBrace_orders : Orders headUpToBrace := by
  unfold headUpToBrace
  infer_instance

instance memberName_orders : Orders memberName := by
  unfold memberName
  infer_instance

end Grammar

/-- Orderly trees were added below the innermost node of a view, and the documentation comments at their end are handed
    on. -/
def Buffer.HandsOn (b : Buffer) (ts : Array Token) (v : View) (docs : Option NodeId) : Prop :=
  ∃ G G' j k, b.Due ts (v.grow G) (v.grow G') docs j k ∧ G.Orderly ts ∧ G'.Orderly ts

/-- The same, where the first token that is taken from `b` on is no trivia. -/
def Buffer.HandsOnFrom (b b' : Buffer) (ts : Array Token) (v : View) (docs : Option NodeId) : Prop :=
  (kindAt ts b.cursor).isTrivia = false ∧ ∃ (R : Forest) (b₁ : Buffer), b₁.Gathers ts (v.grow R) ∧
    b.cursor < b₁.cursor ∧ R.Orderly ts ∧ b'.HandsOn ts (v.grow R) docs

namespace Buffer.HandsOn

variable {b b' : Buffer} {ts : Array Token} {v : View} {F : Forest} {docs : Option NodeId}

theorem behind (h : b.HandsOn ts (v.grow F) docs) (orderly : F.Orderly ts) : b.HandsOn ts v docs := by
  obtain ⟨G, G', j, k, due, first, second⟩ := h
  rw [View.grow_grow, View.grow_grow] at due
  exact ⟨F ++ G, F ++ G', j, k, due, Forest.orderly_append.mpr ⟨orderly, first⟩,
    Forest.orderly_append.mpr ⟨orderly, second⟩⟩

theorem gathers (h : b.HandsOn ts v docs) : ∃ F, b.Gathers ts (v.grow F) ∧ F.Orderly ts := by
  obtain ⟨G, G', j, k, due, orderly, -⟩ := h
  exact ⟨G, due.gathers, orderly⟩

/-- Behind an opening brace nothing is handed on. -/
theorem start {j : TokenId} (gathers : b.Gathers ts v) (trail : Trail ts j b.cursor b.cursor) :
    b.HandsOn ts v none :=
  ⟨.nil, .nil, j, b.cursor, by simpa using Buffer.Due.start gathers trail, trivial, trivial⟩

theorem close {kind : TreeKind} {id : NodeId} (h : b.HandsOn ts ((v.enter id (.plain kind)).grow F) docs)
    (closes : ∀ {w name w₀}, b.Gathers ts w → w.names = name :: View.names w₀ → b'.Gathers ts w.leave)
    (same : b'.cursor = b.cursor) (node : ∀ G, G.Orderly ts → OrderlyNode ts kind (F ++ G)) (orderly : F.Orderly ts) :
    b'.HandsOn ts v docs := by
  obtain ⟨G, G', j, k, due, first, second⟩ := h
  have left := due.leave (closes due.gathers (View.enter_names ..)) same
  rw [View.grow_grow, View.grow_grow, View.enter_grow_leave, View.enter_grow_leave] at left
  have whole {H : Forest} (h : H.Orderly ts) : (Forest.branch id (.plain kind) (F ++ H) .nil).Orderly ts :=
    ⟨fun _ => ⟨node H h, Forest.orderly_append.mpr ⟨orderly, h⟩⟩, trivial⟩
  exact ⟨_, _, j, k, left, whole first, whole second⟩

end Buffer.HandsOn

/-- A node of which nothing is said hands on what its body does. -/
theorem Parser.scope_handsOn {α : Type} {p : Parser α} [Steady p] {kind : TreeKind} {recovery : Recovery} {r : Closed α}
    {b b' : Buffer} {ts : Array Token} {v w : View} {g : α → Option NodeId} (plain : kind.isPlain = true)
    (h : b.Gathers ts v) (run : (scope kind p recovery).run b = .ok r b') (clean : b'.errors = b.errors)
    (inside : ∀ b₁ a b₂, b₁.Gathers ts (v.enter b.tree.size (.plain kind)) → b₁.cursor = b.cursor →
      p.run b₁ = .ok a b₂ → b₂.errors = b₁.errors → b₂.HandsOn ts (w.enter b.tree.size (.plain kind)) (g a)) :
    ∃ a, r.value = some a ∧ b'.HandsOn ts w (g a) := by
  obtain ⟨a, b₁, b₂, rfl, gathers, -, same, inner, clean₂, cursor, -, close⟩ := scope_gathers h run clean
  have handed := inside b₁ a b₂ gathers same inner clean₂
  rw [← View.grow_nil (w.enter b.tree.size (.plain kind))] at handed
  exact ⟨a, rfl, handed.close close cursor (fun _ _ => .of_plain plain) trivial⟩

namespace Grammar

section
variable {text : String} {b b' : Buffer} {v v' : View} {docs given : Docs} {j k : TokenId}

/-! ### Behind members -/

theorem valueAssignment_handsOn (h : b.Gathers (tokens text).toArray v) (run : valueAssignment.run b = .ok docs b')
    (clean : b'.errors = b.errors) : b'.HandsOn (tokens text).toArray v docs := by
  unfold valueAssignment at run
  obtain ⟨_, b₁, F₁, -, -, h₁, orderly₁, run, clean⟩ := Orders.bind_clean h run clean
  obtain ⟨_, b₂, F₂, -, -, h₂, orderly₂, run, clean⟩ := Orders.bind_clean h₁ run clean
  obtain ⟨_, b₃, F₃, -, -, h₃, orderly₃, run, clean⟩ := Orders.bind_clean h₂ run clean
  obtain ⟨_, b₄, F₄, value, valued, h₄, orderly₄, run, clean⟩ := Orders.bind_clean h₃ run clean
  obtain ⟨_, b₅, F₅, spaced, clean₅, h₅, orderly₅, run, clean⟩ := Orders.bind_clean h₄ run clean
  obtain ⟨j, before, last⟩ := nodeValue_spellsPart.exists_last value valued h₄
  obtain ⟨settled, other⟩ := TokenKind.isLast_iff.mp last
  obtain ⟨-, -, -, only, -⟩ := spaces_skips h₄ spaced clean₅
  have le := (Steady.ok spaced).cursor
  have blank : Only (tokens text).toArray isBlank (j + 1) b₅.cursor :=
    before ▸ only.mono fun _ space => Bool.or_eq_true_iff.mpr (.inl space)
  have ended {b₆ : Buffer} {F : Forest} (h₆ : b₆.Gathers (tokens text).toArray (v.grow F))
      (orderly : F.Orderly (tokens text).toArray) (lt : j < b₆.cursor)
      (blank : Only (tokens text).toArray isBlank (j + 1) b₆.cursor) (run : endLine.run b₆ = .ok docs b')
      (clean : b'.errors = b₆.errors) : b'.HandsOn (tokens text).toArray v docs := by
    obtain ⟨G, G', k, due, -, first, second, -⟩ := endLine_due h₆ settled other lt blank run clean
    exact Buffer.HandsOn.behind ⟨G, G', j, k, due, first, second⟩ orderly
  have orderly : (F₁ ++ (F₂ ++ (F₃ ++ (F₄ ++ F₅)))).Orderly (tokens text).toArray := by
    simp only [Forest.orderly_append]
    exact ⟨orderly₁, orderly₂, orderly₃, orderly₄, orderly₅⟩
  simp only [View.grow_grow, Forest.append_assoc] at h₅
  have lt : j < b₅.cursor := Nat.lt_of_lt_of_le (before ▸ Nat.lt_succ_self j) le
  obtain ⟨comma, b₆, hask, run⟩ := bind_eq_ok.mp run
  cases hask
  rw [run_ite] at run
  split at run
  · next here =>
    obtain ⟨_, b₆, F₆, taken, -, h₆, orderly₆, run, clean⟩ := Orders.bind_clean h₅ run clean
    have next := shift_cursor (consumeAny_ok taken)
    rw [View.grow_grow] at h₆
    refine ended h₆ (Forest.orderly_append.mpr ⟨orderly, orderly₆⟩) (next ▸ Nat.lt_succ_of_lt lt) ?_ run clean
    rw [next]
    refine blank.trans (.single ?_)
    rw [h₅.kindAt_cursor, of_decide_eq_true here]
    rfl
  · exact ended h₅ orderly lt blank run clean

/-- Behind its target a member has a value or trivia. -/
theorem afterMember_handsOn {takesValue : Bool} (h : b.Gathers (tokens text).toArray v) (behind : b.cursor = j + 1)
    (last : (kindAt (tokens text).toArray j).isLast = true) (run : (afterMember takesValue).run b = .ok docs b')
    (clean : b'.errors = b.errors) : b'.HandsOn (tokens text).toArray v docs := by
  unfold afterMember at run
  obtain ⟨assigns, b₁, hask, run⟩ := bind_eq_ok.mp run
  cases hask
  rw [run_ite] at run
  split at run
  · obtain ⟨r, b₁, closed, done⟩ := bind_eq_ok.mp run
    cases done
    obtain ⟨docs, value, handed⟩ := scope_handsOn (w := v) (g := id) rfl h closed clean
      fun _ _ _ gathers _ inner clean => valueAssignment_handsOn gathers inner clean
    rw [value]
    exact handed
  · obtain ⟨W, k, orderly, le, white, D, gathers, sheds, spans, only, begins⟩ := whitespaceUpToDocs_leaves h run clean
    obtain ⟨settled, other⟩ := TokenKind.isLast_iff.mp last
    have upTo : k ≤ b'.cursor := by
      rcases spans with ⟨-, same⟩ | ⟨-, -, -, lt, -⟩
      · exact Nat.le_of_eq same
      · exact Nat.le_of_lt lt
    rw [behind] at le white
    refine ⟨_, _, j, k, ⟨gathers, ⟨D, sheds, spans⟩, ?_⟩, Forest.orderly_append.mpr ⟨orderly, spans.orderly⟩, orderly⟩
    refine trail_of_quiet settled other le upTo ((white.mono fun _ => isTrivia_of_isWhitespace).trans only) begins ?_
    exact fun m hj hm => not_isLate_of_kind (ne_docComment_of_isWhitespace (white m hj hm))

/-! ### Members -/

theorem isLower_of_memberTargets : ∀ kind ∈ Schema.memberTargets, kind.isLower = true := by decide

theorem memberStart_settled {kind : TokenKind} (h : (TokenSet.ofList [.identifier, .dollar]).contains kind = true) :
    kind.isTrivia = false ∧ kind ≠ .eof := by
  revert h
  cases kind <;> decide

/-- A part that is taken first, and then trivia for what comes. -/
theorem handsOnFrom_of_part {p : Parser Unit} {takesValue : Bool} {c : Unit} {b₁ : Buffer} {R : Forest} [Steady p]
    (start : (kindAt (tokens text).toArray b.cursor).isTrivia = false) (part : SpellsPart b p)
    (taken : p.run b = .ok c b₁) (clean : b₁.errors = b.errors) (h : b₁.Gathers (tokens text).toArray (v.grow R))
    (orderly : R.Orderly (tokens text).toArray) (lt : b.cursor < b₁.cursor)
    (run : (afterMember takesValue).run b₁ = .ok docs b') (clean' : b'.errors = b₁.errors) :
    b.HandsOnFrom b' (tokens text).toArray v docs := by
  obtain ⟨j, behind, last⟩ := part.exists_last taken clean h
  exact ⟨start, R, b₁, h, lt, orderly, afterMember_handsOn h behind last run clean'⟩

theorem memberBody_handsOn {slot : MemberSlot} {m : Option Member} (h : b.Gathers (tokens text).toArray v)
    (run : (memberBody slot).run b = .ok m b') (clean : b'.errors = b.errors) :
    b.HandsOnFrom b' (tokens text).toArray v (m.bind Member.docs) := by
  unfold memberBody at run
  obtain ⟨first, b₁, found, run⟩ := bind_eq_ok.mp run
  obtain ⟨rfl, rfl, among⟩ := expectAny_ok found
  obtain ⟨name, b₁, named, run⟩ := bind_eq_ok.mp run
  obtain rfl := Looks.ok named
  obtain ⟨kind, b₁, chosen, run⟩ := bind_eq_ok.mp run
  obtain ⟨rfl, target, -⟩ := memberKind_ok chosen
  have lower : TreeKind.Computed kind.isLower := ⟨isLower_of_memberTargets kind target⟩
  obtain ⟨_, b₂, R, taken, clean₂, gathers, orderly, run, clean⟩ := Orders.bind_clean h run clean
  obtain ⟨docs, b₃, handed, done⟩ := bind_eq_ok.mp run
  cases done
  obtain ⟨settled, notEnd⟩ := memberStart_settled among
  have lt : b₁.cursor < b₂.cursor := Eats.eats h.shown.ends (h.shown.ends.hasNext notEnd) taken
  refine handsOnFrom_of_part (h.kindAt_cursor ▸ settled) (.within kind fun b₃ leads same => ?_) taken clean₂ gathers
    orderly lt handed clean
  refine memberTarget_spellsPart _ ?_
  rw [leads.peek_of_same same]
  exact upcomingName_ok named

theorem enumBody_handsOn {docs : Docs} (h : b.Gathers (tokens text).toArray v) (run : (do
      expect .identifier
      memberName
      afterMember true).run b = .ok docs b') (clean : b'.errors = b.errors) :
    b.HandsOnFrom b' (tokens text).toArray v docs := by
  obtain ⟨_, b₁, found, rest⟩ := bind_eq_ok.mp run
  obtain ⟨rfl, here⟩ := expect_ok found
  obtain ⟨_, b₂, R, taken, clean₂, gathers, orderly, handed, clean⟩ := Orders.bind_clean h rest clean
  have lt : b₁.cursor < b₂.cursor :=
    Eats.eats h.shown.ends (h.shown.ends.hasNext (by rw [here]; decide)) taken
  refine handsOnFrom_of_part ?_ (memberName_spellsPart here) taken clean₂ gathers orderly lt handed clean
  rw [h.kindAt_cursor, here]
  rfl

/-! ### Behind traits -/

/-- Without a new problem there was none in the traits. -/
theorem memberTraits_sound {sound : Bool} (run : memberTraits.run b = .ok sound b') (clean : b'.errors = b.errors) :
    sound = true := by
  unfold memberTraits at run
  obtain ⟨before, b₁, hask, run⟩ := bind_eq_ok.mp run
  cases hask
  obtain ⟨traits, b₁, -, run⟩ := bind_eq_ok.mp run
  obtain ⟨after, b₂, hask, done⟩ := bind_eq_ok.mp run
  cases hask
  cases done
  exact decide_eq_true clean

/-- Traits come, or nothing is taken. -/
theorem memberTraits_start {sound : Bool} (run : memberTraits.run b = .ok sound b') :
    b.current.kind = .atSign ∨ b' = b := by
  unfold memberTraits at run
  obtain ⟨before, b₁, hask, run⟩ := bind_eq_ok.mp run
  cases hask
  obtain ⟨traits, b₁, found, run⟩ := bind_eq_ok.mp run
  obtain ⟨after, b₂, hask, done⟩ := bind_eq_ok.mp run
  cases hask
  cases done
  cases traits with
  | some d => exact .inl (of_decide_eq_true (isAt_of_traitStatements found))
  | none =>
    unfold traitStatements at found
    obtain ⟨here, b₃, hask, found⟩ := bind_eq_ok.mp found
    cases hask
    rw [run_ite] at found
    split at found
    · obtain ⟨c, b₃, -, done⟩ := bind_eq_ok.mp found
      cases done
    · cases found
      exact .inr rfl

/-- The nodes of members, which adopt the documentation comments before them. -/
def IsMemberNode (kind : TreeKind) : Prop := kind = .shapeMember ∨ kind = .enumMember

theorem IsMemberNode.orderly {kind : TreeKind} (h : IsMemberNode kind) {ts : Array Token} {F : Forest} {i : TokenId}
    (documented : Documented ts F j k i) : OrderlyNode ts kind F := by
  rcases h with rfl | rfl <;> exact ⟨j, k, i, documented⟩

/-- A member adopts the documentation comments that are due, and hands on those behind it. -/
theorem behindTraits_handsOn {α : Type} {body : Parser (Option α)} [Steady body] {kind : TreeKind}
    {g : Option α → Docs} {r : Closed (Option α)} (member : IsMemberNode kind)
    (spec : ∀ {b b' : Buffer} {v m}, b.Gathers (tokens text).toArray v → body.run b = .ok m b' → b'.errors = b.errors →
      b.HandsOnFrom b' (tokens text).toArray v (g m))
    (due : b.Due (tokens text).toArray v v' given j k)
    (run : (scope kind (behindTraits body given)).run b = .ok r b') (clean : b'.errors = b.errors) :
    ∃ m, r.value = some m ∧ b'.HandsOn (tokens text).toArray v' (g m) := by
  obtain ⟨m, b₁, b₂, rfl, h₁, -, same, inner, clean₂, cursor, -, close⟩ := scope_gathers due.gathers run clean
  obtain ⟨D, sheds, spans⟩ := due.docs
  unfold behindTraits at inner
  obtain ⟨_, b₃, adopted, inner⟩ := bind_eq_ok.mp inner
  have rest : Steady (do if ← memberTraits then body else return none) := inferInstance
  obtain ⟨-, clean₃⟩ := (Steady.ok adopted).clean (rest.ok inner) clean₂
  have h₃ := h₁.of_shows (Steady.ok adopted).tokens (sheds.adopted h₁.shown adopted).1
    (sheds.loose.trans due.gathers.alone)
  obtain ⟨sound, b₄, T, traits, clean₄, h₄, orderlyT, inner, clean₅⟩ := Orders.bind_clean h₃ inner clean₃
  obtain rfl := memberTraits_sound traits clean₄
  rw [if_pos rfl] at inner
  obtain ⟨start, R, b₅, h₅, lt, orderlyR, handed⟩ := spec h₄ inner clean₅
  have here : b₃.cursor = b.cursor := (adoptDocs_cursor adopted).trans same
  -- The member begins with its traits, or else with its name.
  have settled : (kindAt (tokens text).toArray b.cursor).isTrivia = false := by
    rcases memberTraits_start traits with sign | rfl
    · rw [← here, h₃.kindAt_cursor, sign]
      rfl
    · rwa [here] at start
  have head (A : Forest) : ((T ++ R) ++ A).tokens.head? = some b.cursor := by
    have first : (T ++ R).tokens.head? = some b.cursor :=
      here ▸ h₃.head_grown (View.grow_grow .. ▸ h₅) (Nat.lt_of_le_of_lt (Steady.ok traits).cursor lt)
    rw [Forest.tokens_append, List.head?_append, first]
    rfl
  have node (A : Forest) (_ : A.Orderly (tokens text).toArray) :
      OrderlyNode (tokens text).toArray kind (D ++ (T ++ R) ++ A) :=
    member.orderly ⟨due.trail, settled, D, (T ++ R) ++ A, Forest.append_assoc .., spans, head A⟩
  have within' : b₂.HandsOn (tokens text).toArray ((v'.enter b.tree.size (.plain kind)).grow (D ++ (T ++ R))) (g m) := by
    simpa using handed
  refine ⟨m, rfl, within'.close close cursor node ?_⟩
  exact Forest.orderly_append.mpr ⟨spans.orderly, Forest.orderly_append.mpr ⟨orderlyT, orderlyR⟩⟩

end

/-! ### Members one after another -/

/-- What is documented adopts the documentation comments that are due, and hands on those behind it. -/
def PassesOn {α : Type} (p : Docs → Parser α) (docs : α → Docs) : Prop :=
  ∀ ⦃b b' ts v v' given j k a⦄, b.Due ts v v' given j k → (p given).run b = .ok a b' → b'.errors = b.errors →
    b'.HandsOn ts v' (docs a)

theorem shapeMember_passesOn (slot : MemberSlot) : PassesOn (shapeMember slot) (·.bind Member.docs) := by
  intro b b' ts v v' given j k m due run clean
  obtain ⟨text, rfl⟩ := due.gathers.lexed
  unfold shapeMember at run
  obtain ⟨r, b₁, closed, done⟩ := bind_eq_ok.mp run
  cases done
  obtain ⟨m, value, handed⟩ :=
    behindTraits_handsOn (g := (·.bind Member.docs)) (.inl rfl) memberBody_handsOn due closed clean
  rw [value]
  exact handed

theorem blockMember_passesOn (slot : MemberSlot) : PassesOn (blockMember slot) id := by
  intro b b' ts v v' given j k docs due run clean
  unfold blockMember at run
  obtain ⟨m, b₁, stated, done⟩ := bind_eq_ok.mp run
  cases done
  exact shapeMember_passesOn slot due stated clean

theorem memberIn_passesOn {kind : TreeKind} {member : Docs → Parser Docs} [∀ docs, Steady (member docs)]
    (plain : kind.isPlain = true) (passes : PassesOn member id) : PassesOn (memberIn kind member) id := by
  intro b b' ts v v' given j k docs due run clean
  unfold memberIn at run
  obtain ⟨r, b₁, closed, done⟩ := bind_eq_ok.mp run
  cases done
  obtain ⟨docs, value, handed⟩ := scope_handsOn (g := id) plain due.gathers closed clean
    fun _ _ _ gathers same => passes (due.enter gathers same)
  rw [value]
  exact handed

theorem enumMember_passesOn : PassesOn (memberIn .enumMember enumMember) id := by
  intro b b' ts v v' given j k docs due run clean
  obtain ⟨text, rfl⟩ := due.gathers.lexed
  unfold memberIn at run
  obtain ⟨r, b₁, closed, done⟩ := bind_eq_ok.mp run
  cases done
  obtain ⟨docs, value, handed⟩ := behindTraits_handsOn (g := id) (.inr rfl) enumBody_handsOn due closed clean
  rw [value]
  exact handed

/-! ### In braces -/

/-- Behind an opening brace and all trivia, a clean run adds orderly trees. -/
def OrdersInBraces (contents : Parser Unit) : Prop :=
  ∀ ⦃b j⦄, Trail b.tree.tokens j b.cursor b.cursor → contents.OrdersFrom b

theorem membersOf_orders {kind : TreeKind} {member : Docs → Parser Docs} [∀ docs, Steady (memberIn kind member docs)]
    (passes : PassesOn (memberIn kind member) id) : OrdersInBraces (membersOf kind member) := by
  intro b j trail ts v _ b' h run clean
  unfold membersOf at run
  obtain ⟨docs, b₁, looped, done⟩ := bind_eq_ok.mp run
  cases done
  rw [h.tokens] at trail
  have rounds : ∀ given b₁ docs b₂, b.Leads b₁ → b₁.HandsOn ts v given → beforeBrace b₁ = true →
      (memberIn kind member given).run b₁ = .ok docs b₂ → b₂.errors = b₁.errors → b₂.HandsOn ts v docs := by
    intro given b₁ docs b₂ _ ⟨G, G', j, k, due, _, orderly⟩ _ run₂ clean₂
    exact (passes due run₂ clean₂).behind orderly
  have first : b.HandsOn ts v none := .start h trail
  exact (foldWhile_clean rounds first looped clean).1.gathers

theorem OrdersInBraces.optional {p : Parser Unit} [Steady p] (h : OrdersInBraces p) : OrdersInBraces (do
    if ← Parser.ask beforeBrace then p
    whitespace) := by
  intro b j trail
  exact .ask_bind (.ite (fun _ => .bind (h trail) fun _ _ _ => Orders.orders _) fun _ => Orders.orders b)

theorem listMember_orders : OrdersInBraces (within .listMember do let _ ← shapeMember .inList none) := by
  intro b j trail
  refine .within rfl fun b₁ leads same ts v _ b' h run clean => ?_
  obtain ⟨m, b₂, stated, done⟩ := bind_eq_ok.mp run
  cases done
  rw [← leads.tokens, ← same, h.tokens] at trail
  exact (shapeMember_passesOn .inList (.start h trail) stated clean).gathers

theorem secondMember_gathers {b b' : Buffer} {ts : Array Token} {v : View} {first : Member}
    (h : b.HandsOn ts v first.docs) (run : (secondMember first).run b = .ok () b') (clean : b'.errors = b.errors) :
    ∃ F, b'.Gathers ts (v.grow F) ∧ F.Orderly ts := by
  unfold secondMember at run
  obtain ⟨more, b₁, hask, run⟩ := bind_eq_ok.mp run
  cases hask
  rw [run_ite] at run
  split at run
  · rw [run_ite] at run
    split at run
    · cases run
    · obtain ⟨_, b₁, stated, done⟩ := bind_eq_ok.mp run
      cases done
      obtain ⟨G, G', j, k, due, -, orderly⟩ := h
      exact ((shapeMember_passesOn .mapSecond due stated clean).behind orderly).gathers
  · cases run
    exact h.gathers

/-- The second member of a map adopts what the first one hands on. -/
theorem keyAndValue_orders : OrdersInBraces keyAndValue := by
  intro b j trail ts v _ b' h run clean
  rw [h.tokens] at trail
  unfold keyAndValue at run
  obtain ⟨m, b₁, stated, run⟩ := bind_eq_ok.mp run
  cases m with
  | none =>
    cases run
    exact (shapeMember_passesOn .mapFirst (.start h trail) stated clean).gathers
  | some first =>
    have steady : Steady (secondMember first) := inferInstance
    obtain ⟨clean₁, clean₂⟩ := (Steady.ok stated).clean (steady.ok run) clean
    exact secondMember_gathers (shapeMember_passesOn .mapFirst (.start h trail) stated clean₁) run clean₂

end Grammar

end SmithyIdl
