import SmithyIdl.Proofs.Buffer.Strays
import SmithyIdl.Proofs.Grammar.Bodies

/-! # A token that no member takes

Members are read up to a token that none of them takes, and at most one of them fails on the way. It is reported up to the
closing brace of the body, where the members end. -/

namespace SmithyIdl.Grammar

open SmithyIdl.Parser

/-- The kinds of the tokens that stand in no member without traits and values. -/
def strayKinds : TokenSet :=
  .ofList [.string, .textBlock, .number, .walrus, .lbrace, .lbracket, .rbracket, .lparen, .rparen, .error]

/-- Behind the opening brace `o` of a body the token `k` is one that no member takes: it is of such a kind, or an equals sign
    that does not stand behind a name and spaces. No sign of a trait, an absolute id or a value comes before it. The body ends
    at the brace `e`, the first place at which a recovery stops. -/
structure Stray (b : Buffer) (o k e : TokenId) : Prop where
  before : k < e
  quiet : b.Quiet o e
  brace : (b.tokenAt e).kind = .rbrace
  column : (b.tokenAt e).start.column = 1
  plain : ∀ i, o < i → i < k → (b.tokenAt i).kind ∉ [TokenKind.atSign, .pound, .equal, .rbrace]
  stray : strayKinds.contains (b.tokenAt k).kind = true ∨ (b.tokenAt k).kind = .equal ∧
    ∀ i < k, (∀ l, i < l → l < k → (b.tokenAt l).kind = .space) → (b.tokenAt i).kind ≠ .identifier

instance (b : Buffer) (o k e : TokenId) : Decidable (Stray b o k e) :=
  decidable_of_iff (k < e ∧ ((∀ i < e, o < i → startsStatement (b.tokenAt i) = false) ∧ e < b.eof) ∧
      (b.tokenAt e).kind = .rbrace ∧ (b.tokenAt e).start.column = 1 ∧
      (∀ i < k, o < i → (b.tokenAt i).kind ∉ [TokenKind.atSign, .pound, .equal, .rbrace]) ∧
      (strayKinds.contains (b.tokenAt k).kind = true ∨ (b.tokenAt k).kind = .equal ∧
        ∀ i < k, (∀ l < k, i < l → (b.tokenAt l).kind = .space) → (b.tokenAt i).kind ≠ .identifier))
    ⟨fun ⟨before, quiet, brace, column, plain, stray⟩ =>
      ⟨before, ⟨fun i behind less => quiet.1 i less behind, quiet.2⟩, brace, column,
        fun i behind less => plain i less behind,
        stray.imp_right fun ⟨equal, alone⟩ => ⟨equal, fun i less spaces => alone i less fun l before behind =>
          spaces l behind before⟩⟩,
    fun h => ⟨h.before, ⟨fun i less behind => h.quiet.between i behind less, h.quiet.left⟩, h.brace, h.column,
        fun i less behind => h.plain i behind less,
        h.stray.imp_right fun ⟨equal, alone⟩ => ⟨equal, fun i less spaces => alone i less fun l behind before =>
          spaces l before behind⟩⟩⟩

/-- Only the tokens matter. -/
theorem Stray.of_tokens {b b' : Buffer} {o k e : TokenId} (h : Stray b o k e) (same : b'.tree.tokens = b.tree.tokens) :
    Stray b' o k e := by
  have eof := Buffer.eof_of_tokens same
  have tokenAt (i : TokenId) : b'.tokenAt i = b.tokenAt i := by rw [Buffer.tokenAt, Buffer.tokenAt, eof, same]
  obtain ⟨before, ⟨between, left⟩, brace, column, plain, stray⟩ := h
  simp only [← tokenAt] at between brace column plain stray
  exact ⟨before, ⟨between, eof ▸ left⟩, brace, column, plain, stray⟩

namespace Stray

variable {b₀ : Buffer} {o k e c : TokenId} {d : Nat} {W : TokenId → Prop}

/-- No token. -/
abbrev Never : TokenId → Prop := fun _ => False

/-- The tokens behind the opening brace, up to the stray one. -/
abbrev UpTo (o k : TokenId) : TokenId → Prop := fun c => o < c ∧ c ≤ k

/-- The tokens between which members are read: those up to the stray one, and the closing brace. -/
abbrev Between (o k e : TokenId) : TokenId → Prop := fun c => UpTo o k c ∨ c = e

/-- The tokens right behind a name. -/
abbrev Behind (b₀ : Buffer) (o k : TokenId) : TokenId → Prop := fun c =>
  UpTo o k c ∧ ∃ i, c = i + 1 ∧ (b₀.tokenAt i).kind = .identifier

theorem upcomingName_halts (up : UpTo o k c) (elided : Bool) : Halts b₀ (UpTo o k) d c (upcomingName elided) fun _ c' =>
    c' = c ∧ (b₀.tokenAt (c + if elided then 1 else 0)).kind = .identifier := by
  have looked : Halts b₀ (UpTo o k) d c (ask (·.peek (if elided then 1 else 0))) fun token c' =>
      c' = c ∧ token = b₀.tokenAt (c + if elided then 1 else 0) :=
    .ask fun stands here => ⟨rfl, by rw [Buffer.peek_eq, stands.leads.tokenAt_eq, here]⟩
  unfold upcomingName
  refine .bind looked ?_
  rintro token c' ⟨rfl, same⟩
  by_cases name : token.kind = .identifier
  · rw [if_pos name]
    exact .pure ⟨rfl, same ▸ name⟩
  · rw [if_neg name]
    exact .fail up

theorem memberKind_halts (up : UpTo o k c) (slot : MemberSlot) (name : String) (elided : Bool) :
    Halts b₀ (UpTo o k) d c (memberKind slot name elided) fun _ c' => c' = c := by
  unfold memberKind
  split
  · exact .pure rfl
  · exact .fail up

variable (h : Stray b₀ o k e)
include h

theorem start : startsStatement (b₀.tokenAt e) = true := by
  rw [startsStatement, h.brace, h.column]
  rfl

theorem lt_eof (up : c ≤ k) : c < b₀.eof := Nat.lt_of_le_of_lt up (Nat.lt_trans h.before h.quiet.left)

/-- The stray token is no part of a member that comes without traits. -/
theorem kind_ne : ∀ kind ∈ [TokenKind.identifier, .dollar, .colon, .dot, .pound, .atSign, .rbrace, .space],
    (b₀.tokenAt k).kind ≠ kind := by
  rcases h.stray with stray | ⟨stray, -⟩
  · generalize (b₀.tokenAt k).kind = kind at stray
    revert stray
    cases kind <;> decide
  · rw [stray]
    decide

theorem lt_of_kind {kind : TokenKind} (up : c ≤ k) (here : (b₀.tokenAt c).kind = kind)
    (other : kind ∈ [TokenKind.identifier, .dollar, .colon, .dot, .pound, .atSign, .rbrace, .space]) : c < k :=
  Nat.lt_of_le_of_ne up fun same => h.kind_ne kind other (same ▸ here)

theorem not_trivia : (b₀.tokenAt k).kind.isTrivia = false := by
  rcases h.stray with stray | ⟨stray, -⟩
  · generalize (b₀.tokenAt k).kind = kind at stray
    revert stray
    cases kind <;> decide
  · rw [stray]
    rfl

/-- Neither traits nor absolute ids come, nor does the body end. -/
theorem plain_kind {kind : TokenKind} (up : UpTo o k c) (other : kind ∈ [TokenKind.atSign, .pound, .rbrace]) :
    (b₀.tokenAt c).kind ≠ kind := by
  intro here
  rcases Nat.eq_or_lt_of_le up.2 with rfl | less
  · exact h.kind_ne kind (by revert other; cases kind <;> decide) here
  · exact h.plain c up.1 less (here ▸ by revert other; cases kind <;> decide)

/-! ### Nodes -/

variable {kind : TreeKind} {p : Parser Unit} {C : TokenId → Prop}

/-- Where nothing fails in a node. -/
theorem within_sound (room : d < b₀.maxDepth) (inside : Halts b₀ Never (d + 1) c p fun _ => C) :
    Halts b₀ W d c (within kind p) fun _ => C := by
  refine .bind (.scope room h.quiet h.start nofun inside) fun r c' ends => .pure ?_
  rcases ends with ⟨-, -, there⟩ | ⟨-, -, _, never⟩
  · exact there
  · exact never.elim

/-- Where something fails in a node, the node ends at the closing brace. -/
theorem scope_up {α : Type} {p : Parser α} {C : α → TokenId → Prop} (room : d < b₀.maxDepth)
    (inside : Halts b₀ (UpTo o k) (d + 1) c p C) :
    Halts b₀ W d c (scope kind p) fun r c' => (∃ a ∈ r.value, C a c') ∨ c' = e :=
  (Halts.scope room h.quiet h.start (fun _ up => ⟨Nat.le_of_lt up.1, Nat.lt_of_le_of_lt up.2 h.before⟩) inside).mono
    (fun _ _ ends => ends.imp_right fun failed => failed.2.1) fun _ => id

theorem within_up (room : d < b₀.maxDepth) (inside : Halts b₀ (UpTo o k) (d + 1) c p fun _ => C) :
    Halts b₀ W d c (within kind p) fun _ c' => C c' ∨ c' = e :=
  .bind (h.scope_up room inside) fun _ _ ends => .pure (ends.imp_left fun ⟨_, _, there⟩ => there)

/-! ### Trivia -/

theorem shiftKinds_halts {kinds : TokenKind → Bool} (trivia : ∀ kind, kinds kind = true → kind.isTrivia = true)
    (here : Between o k e c) : Halts b₀ W d c (shiftKinds kinds) fun _ => Between o k e := by
  have stops {i : TokenId} (other : (b₀.tokenAt i).kind.isTrivia = false) : kinds (b₀.tokenAt i).kind = false :=
    eq_false_of_ne_true fun among => by simp [trivia _ among] at other
  rcases here with ⟨behind, up⟩ | rfl
  · exact (Halts.shiftKinds up (stops h.not_trivia)).mono
      (fun _ _ ends => .inl ⟨Nat.lt_of_lt_of_le behind ends.1, ends.2⟩) fun _ => id
  · exact (Halts.shiftKinds (Nat.le_refl _) (stops (by rw [h.brace]; rfl))).mono
      (fun _ _ ends => .inr (Nat.le_antisymm ends.2 ends.1)) fun _ => id

theorem spaces_halts (room : d < b₀.maxDepth) (up : UpTo o k c) : Halts b₀ W d c spaces fun _ => UpTo o k := by
  unfold spaces
  refine .bind (.isAt .space) ?_
  rintro here c' ⟨rfl, -⟩
  split
  · refine h.within_sound room ((Halts.shiftKinds up.2 (decide_eq_false (h.kind_ne .space (by decide)))).mono
      (fun _ _ ends => ?_) fun _ => id)
    exact ⟨Nat.lt_of_lt_of_le up.1 ends.1, ends.2⟩
  · exact .pure up

theorem whitespace_halts (room : d < b₀.maxDepth) (here : Between o k e c) :
    Halts b₀ W d c whitespace fun _ => Between o k e := by
  unfold whitespace
  refine .bind .current ?_
  rintro token c' ⟨rfl, -⟩
  split
  · exact h.within_sound room (h.shiftKinds_halts (fun _ => id) here)
  · exact .pure here

theorem docComments_halts (room : d < b₀.maxDepth) (here : Between o k e c) :
    Halts b₀ W d c docComments fun _ => Between o k e := by
  unfold docComments
  refine .bind (.isAt .docComment) ?_
  rintro found c' ⟨rfl, -⟩
  split
  · refine .bind (h.scope_up room (h.shiftKinds_halts (fun _ => id) here)) fun r c' ends => .pure ?_
    exact ends.elim (fun ⟨_, _, between⟩ => between) .inr
  · exact .pure here

theorem whitespaceUpToDocs_halts (room : d < b₀.maxDepth) (here : Between o k e c) :
    Halts b₀ W d c whitespaceUpToDocs fun _ => Between o k e := by
  have trivia : ∀ kind : TokenKind, kind.isWhitespace = true → kind.isTrivia = true := fun kind space => by
    rw [TokenKind.isTrivia, space, Bool.true_or]
  unfold whitespaceUpToDocs
  refine .bind .current ?_
  rintro token c' ⟨rfl, -⟩
  dsimp only
  split
  · exact .bind (h.within_sound room (h.shiftKinds_halts trivia here)) fun _ c' here => h.docComments_halts room here
  · exact h.docComments_halts room here

/-! ### Members -/

/-- A name that comes is not the stray token. -/
theorem name_halts (up : UpTo o k c) (name : (b₀.tokenAt c).kind = .identifier) :
    Halts b₀ W d c consumeAny fun _ => Behind b₀ o k := by
  have less := h.lt_of_kind up.2 name (by decide)
  refine (Halts.consumeAny (h.lt_eof up.2)).mono (fun _ c' there => ?_) fun _ => id
  exact ⟨⟨there ▸ Nat.lt_succ_of_lt up.1, there ▸ less⟩, c, there, name⟩

theorem memberName_halts (room : d < b₀.maxDepth) (up : UpTo o k c) (name : (b₀.tokenAt c).kind = .identifier) :
    Halts b₀ W d c memberName fun _ => Behind b₀ o k := h.within_sound room (h.name_halts up name)

theorem startsAbsoluteId_halts (up : UpTo o k c) :
    Halts b₀ W d c (ask startsAbsoluteId) fun absolute c' => c' = c ∧ absolute = false := by
  refine .ask fun {b} stands here => ⟨rfl, decide_eq_false fun pound => ?_⟩
  have stops : isNamespacePart (b.tokenAt k).kind = false := by
    rw [stands.leads.tokenAt_eq, isNamespacePart, decide_eq_false (h.kind_ne .identifier (by decide)),
      decide_eq_false (h.kind_ne .dot (by decide)), Bool.or_false]
  obtain ⟨i, behind, within, seen, -⟩ := b.lookPast_within isNamespacePart (here ▸ up.2) stops
  rw [seen, stands.leads.tokenAt_eq] at pound
  exact h.plain_kind ⟨Nat.lt_of_lt_of_le up.1 (here ▸ behind), within⟩ (by decide) pound

theorem shapeId_halts (room : d < b₀.maxDepth) (up : UpTo o k c) :
    Halts b₀ (UpTo o k) d c (shapeId false) fun _ => Behind b₀ o k := by
  dsimp only [shapeId]
  refine .bind (.expect up) ?_
  rintro _ c' ⟨rfl, name⟩
  refine .bind (h.startsAbsoluteId_halts up) ?_
  rintro absolute c ⟨rfl, rfl⟩
  exact h.within_sound room (.bind (h.name_halts up name) fun _ _ behind => .pure behind)

theorem memberTarget_halts (room : d < b₀.maxDepth) {elided : Bool} (up : UpTo o k c)
    (sign : elided = true → c < k) (name : (b₀.tokenAt (c + if elided then 1 else 0)).kind = .identifier) :
    Halts b₀ (UpTo o k) d c (memberTarget elided) fun _ => Behind b₀ o k := by
  unfold memberTarget
  cases elided with
  | true =>
    refine .bind (.consumeAny (h.lt_eof up.2)) ?_
    rintro _ c' rfl
    exact h.memberName_halts room ⟨Nat.lt_succ_of_lt up.1, sign rfl⟩ name
  | false =>
    refine .bind (h.memberName_halts room up name) fun _ c' named => ?_
    refine .bind (h.spaces_halts room named.1) fun _ c' up => ?_
    refine .bind (.consume up (h.lt_eof up.2)) ?_
    rintro _ c'' ⟨rfl, colon⟩
    have less := h.lt_of_kind up.2 colon (by decide)
    exact .bind (h.spaces_halts room ⟨Nat.lt_succ_of_lt up.1, less⟩) fun _ c' up => h.shapeId_halts room up

/-- No value comes: an equals sign does not stand behind the name. -/
theorem startsAssignment_halts (here : Behind b₀ o k c ∨ c = e) :
    Halts b₀ W d c (ask startsAssignment) fun assigned c' => c' = c ∧ assigned = false := by
  refine .ask fun {b} stands there => ⟨rfl, decide_eq_false fun equal => ?_⟩
  rcases here with ⟨up, i, rfl, name⟩ | rfl
  · have stops : decide ((b.tokenAt k).kind = .space) = false := by
      rw [stands.leads.tokenAt_eq, decide_eq_false (h.kind_ne .space (by decide))]
    obtain ⟨j, behind, within, seen, passed⟩ := b.lookPast_within (· = .space) (there ▸ up.2) stops
    rw [seen, stands.leads.tokenAt_eq] at equal
    rcases Nat.eq_or_lt_of_le within with rfl | less
    · -- The sign is the stray token itself, and then no name and spaces stand before it.
      rcases h.stray with stray | ⟨-, alone⟩
      · rw [equal] at stray
        exact absurd stray (by decide)
      · refine alone i (Nat.lt_of_lt_of_le (Nat.lt_succ_self i) up.2) (fun l onward before => ?_) name
        have space := passed l (there ▸ onward) before
        rwa [stands.leads.tokenAt_eq, decide_eq_true_eq] at space
    · exact h.plain j (Nat.lt_of_lt_of_le up.1 (there ▸ behind)) less (by rw [equal]; decide)
  · have brace : (b.tokenAt c).kind = .rbrace := by rw [stands.leads.tokenAt_eq, h.brace]
    obtain ⟨j, behind, within, seen, -⟩ := b.lookPast_within (· = .space) (Nat.le_of_eq there) (by rw [brace]; rfl)
    rw [seen, Nat.le_antisymm within (there ▸ behind), brace] at equal
    cases equal

theorem afterMember_halts (room : d < b₀.maxDepth) (takesValue : Bool) (here : Behind b₀ o k c ∨ c = e) :
    Halts b₀ W d c (afterMember takesValue) fun _ => Between o k e := by
  unfold afterMember
  cases takesValue with
  | true =>
    refine .bind (.bind (h.startsAssignment_halts here) fun _ c' there => .pure there) ?_
    rintro assigned c' ⟨rfl, rfl⟩
    exact h.whitespaceUpToDocs_halts room (here.imp_left And.left)
  | false => exact h.whitespaceUpToDocs_halts room (here.imp_left And.left)

theorem memberBody_halts (room : d + 1 < b₀.maxDepth) (slot : MemberSlot) (up : UpTo o k c) :
    Halts b₀ (UpTo o k) d c (memberBody slot) fun _ => Between o k e := by
  unfold memberBody
  refine .bind (.expectAny up) ?_
  rintro kind c' ⟨rfl, rfl, -⟩
  have sign : decide ((b₀.tokenAt c').kind = .dollar) = true → c' < k :=
    fun dollar => h.lt_of_kind up.2 (of_decide_eq_true dollar) (by decide)
  refine .bind (upcomingName_halts up _) ?_
  rintro name c ⟨rfl, here⟩
  refine .bind (memberKind_halts up slot name _) ?_
  rintro kind _ rfl
  refine .bind (h.within_up (by omega) (h.memberTarget_halts room up sign here)) fun _ c' ends => ?_
  exact .bind (h.afterMember_halts (by omega) slot.takesValue ends) fun _ _ between => .pure between

theorem memberTraits_halts (up : UpTo o k c) : Halts b₀ W d c memberTraits fun _ c' => c' = c := by
  have none : Halts b₀ W d c traitStatements fun _ c' => c' = c := by
    unfold traitStatements
    refine .bind (.isAt .atSign) ?_
    rintro here c' ⟨rfl, rfl⟩
    rw [decide_eq_false (h.plain_kind up (by decide))]
    exact .pure rfl
  unfold memberTraits
  refine .bind (A := fun _ c' => c' = c) (.ask fun _ _ => rfl) ?_
  rintro before c' rfl
  refine .bind none ?_
  rintro _ c rfl
  refine .bind (A := fun _ c' => c' = c) (.ask fun _ _ => rfl) ?_
  rintro _ c' rfl
  exact .pure rfl

theorem behindTraits_halts {α : Type} {body : Parser (Option α)} (up : UpTo o k c) (docs : Docs)
    (inside : Halts b₀ (UpTo o k) d c body fun _ => Between o k e) :
    Halts b₀ (UpTo o k) d c (behindTraits body docs) fun _ => Between o k e := by
  unfold behindTraits
  refine .bind (.adoptDocs docs) ?_
  rintro _ c' rfl
  refine .bind (h.memberTraits_halts up) ?_
  rintro sound c rfl
  split
  · exact inside
  · exact .pure (.inl up)

theorem blockMember_halts (room : d + 2 < b₀.maxDepth) (slot : MemberSlot) (docs : Docs) (up : UpTo o k c) :
    Halts b₀ W d c (blockMember slot docs) fun _ => Between o k e := by
  unfold blockMember shapeMember
  refine .bind (.bind (h.scope_up (by omega) (h.behindTraits_halts up docs (h.memberBody_halts (by omega) slot up)))
    fun r c' ends => .pure (C := fun _ => Between o k e) ?_) fun _ c' between => .pure between
  exact ends.elim (fun ⟨_, _, between⟩ => between) .inr

theorem enumMember_halts (room : d < b₀.maxDepth) (docs : Docs) (up : UpTo o k c) :
    Halts b₀ (UpTo o k) d c (enumMember docs) fun _ => Between o k e := by
  unfold enumMember
  refine h.behindTraits_halts up docs (.bind (.expect up) ?_)
  rintro _ c' ⟨rfl, name⟩
  exact .bind (h.memberName_halts room up name) fun _ c' behind => h.afterMember_halts room true (.inl behind)

/-! ### Bodies -/

/-- Whatever becomes of the members, they end at the closing brace. By the invariant that all of them end up to the stray
    token or at the brace. -/
theorem membersOf_halts {member : Docs → Parser Docs} {kind : TreeKind} (room : d < b₀.maxDepth)
    (members : ∀ docs c, UpTo o k c → Halts b₀ (UpTo o k) (d + 1) c (member docs) fun _ => Between o k e)
    (here : Between o k e c) : Halts b₀ W d c (membersOf kind member) fun _ c' => c' = e := by
  have shows : ∀ (docs : Docs) b, b₀.Stands d b →
      beforeBrace b = (decide (b.cursor < b₀.eof) && !decide ((b₀.tokenAt b.cursor).kind = .rbrace)) := fun _ b stands => by
    rw [beforeBrace, stands.hasNext, stands.isAt]
  have loop : Halts b₀ W d c (foldWhile (fun _ b => beforeBrace b) (memberIn kind member) none) fun _ c' =>
      Between o k e c' ∧ (decide (c' < b₀.eof) && !decide ((b₀.tokenAt c').kind = .rbrace)) = false := by
    refine .foldWhile (I := fun _ => Between o k e)
      (g := fun _ c => decide (c < b₀.eof) && !decide ((b₀.tokenAt c).kind = .rbrace)) shows (fun docs c here goes => ?_) here
    rcases here with up | rfl
    · refine .bind (h.scope_up room (members docs c up)) fun r c' ends => .pure ?_
      exact ends.elim (fun ⟨_, _, between⟩ => between) .inr
    · rw [h.brace, decide_eq_true rfl, Bool.not_true, Bool.and_false] at goes
      cases goes
  unfold membersOf
  refine .bind loop fun _ c' ends => .pure (ends.1.resolve_left fun up => ?_)
  have more := ends.2
  rw [decide_eq_true (h.lt_eof up.2), decide_eq_false (h.plain_kind up (by decide))] at more
  cases more

theorem upToBrace_halts {contents : Parser Unit} (room : d < b₀.maxDepth) (behind : o < k)
    (inside : ∀ c, Between o k e c → Halts b₀ W d c contents fun _ c' => c' = e) :
    Halts b₀ W d o (upToBrace contents) fun goes c' => goes = true ∧ c' = e := by
  unfold upToBrace
  refine .bind (.consumeAny (h.lt_eof (Nat.le_of_lt behind))) ?_
  rintro _ c' rfl
  refine .bind (h.whitespace_halts room (.inl ⟨Nat.lt_succ_self o, behind⟩)) fun _ c' between => ?_
  exact .bind (inside c' between) fun _ c' there => .pure ⟨rfl, there⟩

end Stray

/-- The bodies that are made of members. -/
def memberBodies : List TreeKind := [.enumMembers, .structureMembers, .unionMembers]

/-- The members of an enumeration, a structure or a union end at the closing brace. -/
theorem Stray.contents_halts {b₀ : Buffer} {o k e : TokenId} {d : Nat} {form : ShapeForm} {x : Braced} (h : Stray b₀ o k e)
    (braced : form.braced? = some x) (members : x.kind ∈ memberBodies) (room : d + 3 < b₀.maxDepth) (behind : o < k) :
    Halts b₀ Never d o x.contents fun goes c' => goes = true ∧ c' = e := by
  cases form
  case simple => cases braced
  case enumeration =>
    cases braced
    refine h.upToBrace_halts (by omega) behind fun c between => h.membersOf_halts (by omega) (fun docs c up => ?_) between
    exact h.enumMember_halts (by omega) docs up
  case struct | union =>
    cases braced
    refine h.upToBrace_halts (by omega) behind fun c between => h.membersOf_halts (by omega) (fun docs c up => ?_) between
    exact h.blockMember_halts (by omega) _ docs up
  all_goals
    cases braced
    exact absurd members (by decide)

end SmithyIdl.Grammar
