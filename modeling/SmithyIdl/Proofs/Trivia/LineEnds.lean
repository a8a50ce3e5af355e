import SmithyIdl.Proofs.Schema.Members
import SmithyIdl.Proofs.Trivia.Handed

/-! # Behind statements and members

The trivia behind a statement or a member goes up to the next token that is none. The documentation comments at its end
are handed on; those before them are in the line of the last token. -/

namespace SmithyIdl.Grammar

open SmithyIdl.Parser SmithyIdl.Schema

variable {b b' : Buffer} {ts : Array Token} {v : View} {docs : Docs} {kinds : TokenKind → Bool} {j k : TokenId}

/-! ### Nodes of trivia -/

theorem shiftKinds_only (run : (shiftKinds kinds).run b = .ok () b') :
    Only b.tree.tokens kinds b.cursor b'.cursor := by
  refine ((foldWhile_ok (I := fun _ b₁ => b.Leads b₁ ∧ Only b.tree.tokens kinds b.cursor b₁.cursor)
    (fun _ b₁ _ b₂ h go shifted => ?_) ⟨.refl b, .refl⟩ run).1).2
  obtain ⟨leads, only⟩ := h
  have leads' := Steady.ok shifted
  obtain ⟨next, t, -, rfl⟩ := shift_ok shifted
  refine ⟨leads.trans leads', only.trans (.single ?_)⟩
  rw [← leads.tokens, Buffer.kindAt_cursor (Nat.le_of_lt (Buffer.hasNext_iff.mp next))]
  exact (Bool.and_eq_true_iff.mp go).2

/-- A node of tokens of certain kinds, up to the first token of another kind. -/
theorem skip_gathers {kind : TreeKind} {r : Closed Unit} (h : b.Gathers ts v) (end' : kinds .eof = false)
    (run : (scope kind (shiftKinds kinds)).run b = .ok r b') (clean : b'.errors = b.errors) :
    ∃ G, b'.Gathers ts (v.grow (.branch r.node (.plain kind) G .nil)) ∧
      G.tokens = List.range' b.cursor (b'.cursor - b.cursor) ∧ Only ts kinds b.cursor b'.cursor ∧
      kinds b'.current.kind = false := by
  obtain ⟨_, b₁, b₂, rfl, gathers, leads, same, inner, -, cursor, peek, close⟩ := scope_gathers h run clean
  obtain ⟨G, shown⟩ := (Grows.grows gathers.shown).holds inner
  have gathers₂ := gathers.of_shows (Steady.ok inner).tokens shown gathers.alone
  have only := shiftKinds_only inner
  have tokens := gathers.tokens_grown gathers₂
  rw [gathers.tokens, same, ← cursor] at only
  rw [same, ← cursor] at tokens
  refine ⟨G, ?_, tokens, only, ?_⟩
  · have closed := close gathers₂ (View.enter_names ..)
    rwa [View.enter_grow_leave] at closed
  · rw [Buffer.current_of_peek peek]
    exact kind_of_shiftKinds gathers.shown.ends end' inner

/-- A node of tokens of certain kinds, or nothing. -/
def Skips (ts : Array Token) (v : View) (b b' : Buffer) (kinds : TokenKind → Bool) (kind : TreeKind) : Prop :=
  ∃ F, b'.Gathers ts (v.grow F) ∧ (F = .nil ∨ ∃ id G, F = .branch id (.plain kind) G .nil) ∧
    Only ts kinds b.cursor b'.cursor ∧ kinds b'.current.kind = false

theorem skips {kind : TreeKind} {c : Prop} [Decidable c] (h : b.Gathers ts v) (end' : kinds .eof = false)
    (here : ¬ c → kinds b.current.kind = false)
    (run : (if c then within kind (shiftKinds kinds) else Pure.pure ()).run b = .ok () b')
    (clean : b'.errors = b.errors) : Skips ts v b b' kinds kind := by
  by_cases hc : c
  · rw [if_pos hc] at run
    obtain ⟨r, closed⟩ := exists_of_within run
    obtain ⟨G, gathers, -, only, settled⟩ := skip_gathers h end' closed clean
    exact ⟨_, gathers, .inr ⟨_, G, rfl⟩, only, settled⟩
  · rw [if_neg hc] at run
    cases run
    exact ⟨.nil, v.grow_nil.symm ▸ h, .inl rfl, .refl, here hc⟩

theorem spaces_skips (h : b.Gathers ts v) (run : spaces.run b = .ok () b') (clean : b'.errors = b.errors) :
    Skips ts v b b' (· = .space) .spaces := by
  unfold spaces at run
  obtain ⟨_, b₁, hask, run⟩ := bind_eq_ok.mp run
  cases hask
  exact skips h rfl eq_false_of_ne_true run clean

theorem whitespace_skips (h : b.Gathers ts v) (run : whitespace.run b = .ok () b') (clean : b'.errors = b.errors) :
    Skips ts v b b' TokenKind.isTrivia .whitespace := by
  unfold whitespace at run
  obtain ⟨_, b₁, hask, run⟩ := bind_eq_ok.mp run
  cases hask
  exact skips h rfl eq_false_of_ne_true run clean

/-! ### Documentation comments -/

/-- Behind the tree `F` stand the documentation comments, from the token `k` on. -/
def Leaves (ts : Array Token) (v : View) (b' : Buffer) (F : Forest) (docs : Docs) (k : TokenId) : Prop :=
  ∃ D, b'.Gathers ts (v.grow (F ++ D)) ∧ (v.grow (F ++ D)).Sheds docs D (v.grow F) ∧ D.IsDocs k b'.cursor ∧
    Only ts TokenKind.isTrivia k b'.cursor ∧ (k < b'.cursor → kindAt ts k = .docComment)

theorem docComments_leaves {F : Forest} (h : b.Gathers ts (v.grow F)) (run : docComments.run b = .ok docs b')
    (clean : b'.errors = b.errors) : Leaves ts v b' F docs b.cursor := by
  unfold docComments at run
  obtain ⟨_, b₁, hask, run⟩ := bind_eq_ok.mp run
  cases hask
  by_cases here : b.isAt .docComment = true
  · rw [run_ite, if_pos here] at run
    obtain ⟨r, b₁, closed, done⟩ := bind_eq_ok.mp run
    cases done
    have some : b.cursor < b'.cursor := by
      have next := h.shown.ends.hasNext_of_isAt here (by decide)
      refine EatsFrom.scope h.shown.ends next (fun b₁ leads same => ?_) closed
      refine .shiftKinds (leads.endsWithEof h.shown.ends) ((leads.hasNext_of_same same).trans next) ?_
      rw [leads.current_of_same same, of_decide_eq_true here]
      rfl
    obtain ⟨G, gathers, tokens, only, -⟩ := skip_gathers h rfl closed clean
    rw [View.grow_grow] at gathers
    refine ⟨_, gathers, ?_, .inr ⟨_, G, rfl, some, tokens⟩, only, fun _ => ?_⟩
    · exact v.grow_grow F _ ▸ .last (v.grow F) r.node
    · rw [h.kindAt_cursor]
      exact of_decide_eq_true here
  · rw [run_ite, if_neg here] at run
    cases run
    exact ⟨.nil, by rwa [Forest.append_nil], ⟨rfl, by rw [Forest.append_nil]⟩, .inl ⟨rfl, rfl⟩, .refl,
      fun lt => absurd lt (Nat.lt_irrefl _)⟩

/-- The whitespace, and behind it the documentation comments. -/
theorem whitespaceUpToDocs_leaves (h : b.Gathers ts v) (run : whitespaceUpToDocs.run b = .ok docs b')
    (clean : b'.errors = b.errors) :
    ∃ W k, W.Orderly ts ∧ b.cursor ≤ k ∧ Only ts TokenKind.isWhitespace b.cursor k ∧ Leaves ts v b' W docs k := by
  dsimp only [whitespaceUpToDocs] at run
  obtain ⟨token, b₁, hask, run⟩ := bind_eq_ok.mp run
  cases hask
  by_cases here : b.current.kind.isWhitespace = true
  · rw [if_pos here] at run
    obtain ⟨_, b₁, white, rest⟩ := bind_eq_ok.mp run
    obtain ⟨r, closed⟩ := exists_of_within white
    obtain ⟨clean₁, clean₂⟩ := (Steady.ok closed).clean (Steady.ok rest) clean
    obtain ⟨G, gathers, -, only, -⟩ := skip_gathers h rfl closed clean₁
    exact ⟨_, _, Forest.orderly_lower rfl, (Steady.ok closed).cursor, only, docComments_leaves gathers rest clean₂⟩
  · rw [if_neg here] at run
    exact ⟨.nil, _, trivial, Nat.le_refl _, .refl, docComments_leaves ((View.grow_nil v).symm ▸ h) run clean⟩

/-! ### Line ends -/

/-- Behind the token that ends the line comes whitespace, and then the documentation comments. -/
theorem breakLine_leaves (h : b.Gathers ts v) (run : breakLine.run b = .ok docs b') (clean : b'.errors = b.errors) :
    ∃ id G G' D k, b'.Gathers ts (v.grow (.branch id (.plain .lineBreak) G .nil)) ∧
      (v.grow (.branch id (.plain .lineBreak) G .nil)).Sheds docs D (v.grow (.branch id (.plain .lineBreak) G' .nil)) ∧
      D.IsDocs k b'.cursor ∧ b.cursor < k ∧ k ≤ b'.cursor ∧ Only ts TokenKind.isWhitespace (b.cursor + 1) k ∧
      Only ts TokenKind.isTrivia k b'.cursor ∧ (k < b'.cursor → kindAt ts k = .docComment) := by
  unfold breakLine at run
  obtain ⟨r, b₁, closed, done⟩ := bind_eq_ok.mp run
  cases done
  obtain ⟨docs, b₁, b₂, rfl, gathers, leads, same, inner, clean₂, cursor, -, close⟩ := scope_gathers h closed clean
  obtain ⟨_, b₃, taken, inner⟩ := bind_eq_ok.mp inner
  obtain ⟨_, b₄, white, commented⟩ := bind_eq_ok.mp inner
  obtain ⟨clean₃, clean₄⟩ := (Steady.ok taken).clean (Steady.ok inner) clean₂
  obtain ⟨-, clean₅⟩ := (Steady.ok white).clean (Steady.ok commented) clean₄
  obtain ⟨T, gathers₃, -⟩ := Orders.orders _ gathers taken clean₃
  obtain ⟨W, shown⟩ := (Grows.grows gathers₃.shown).holds white
  have gathers₄ := gathers₃.of_shows (Steady.ok white).tokens shown gathers.alone
  rw [View.grow_grow] at gathers₄
  obtain ⟨D, gathers₅, sheds, spans, only, begins⟩ := docComments_leaves gathers₄ commented clean₅
  have only' := shiftKinds_only white
  have next := shift_cursor (consumeAny_ok taken)
  rw [gathers₃.tokens, next, same] at only'
  have more := (Steady.ok white).cursor
  have more' := (Steady.ok commented).cursor
  rw [← cursor] at spans only begins more'
  have closed' := close gathers₅ (View.enter_names ..)
  have left := sheds.leave
  rw [View.enter_grow_leave] at closed' left
  rw [View.enter_grow_leave] at left
  exact ⟨_, _, _, D, _, closed', left, spans, by omega, more', only', only, begins⟩

/-- Spaces and commas, which stay in their line. -/
def isBlank (kind : TokenKind) : Bool := kind = .space || kind = .comma

/-- The trail behind a token other than an opening brace, where no documentation comment that is not handed on is
    late. -/
theorem trail_of_quiet {i : TokenId} (last : (kindAt ts j).isTrivia = false) (other : kindAt ts j ≠ .lbrace) (lt : j < k)
    (le : k ≤ i) (trivia : Only ts TokenKind.isTrivia (j + 1) i) (begins : k < i → kindAt ts k = .docComment)
    (quiet : ∀ m, j < m → m < k → ¬ IsLate ts j m) : Trail ts j k i :=
  ⟨lt, le, last, fun m => trivia m, begins, fun brace => absurd brace other, fun _ => quiet⟩

theorem not_isLate_of_kind {m : TokenId} (h : kindAt ts m ≠ .docComment) : ¬ IsLate ts j m := fun late => h late.1

theorem isTrivia_of_isBlank {kind : TokenKind} (h : isBlank kind = true) : kind.isTrivia = true := by
  revert h
  cases kind <;> decide

theorem isTrivia_of_isWhitespace {kind : TokenKind} (h : kind.isWhitespace = true) : kind.isTrivia = true :=
  Bool.or_eq_true_iff.mpr (.inl h)

theorem ne_docComment_of_isWhitespace {kind : TokenKind} (h : kind.isWhitespace = true) : kind ≠ .docComment := by
  rintro rfl
  cases h

/-- What a line is ended with, also without the documentation comments that are handed on: a line break, or nothing
    where the text ends or a line has just begun. -/
def EndsLine (ts : Array Token) (b' : Buffer) (F F' : Forest) : Prop :=
  F.row ts ∈ (sequence [blanks, one .lineBreak]).matches' ∧ F'.row ts ∈ (sequence [blanks, one .lineBreak]).matches' ∨
    F' = F ∧ F.row ts ∈ blanks.matches' ∧ (b'.current.kind = .eof ∨ b'.current.start.column = 1)

/-- The line of the token `j` ends with new children of the innermost node; the documentation comments that are handed
    on are late. -/
def LineEnded (ts : Array Token) (v : View) (b' : Buffer) (docs : Docs) (j : TokenId) : Prop :=
  ∃ F F' k, b'.Due ts (v.grow F) (v.grow F') docs j k ∧ (k < b'.cursor → IsLate ts j k) ∧ F.Orderly ts ∧ F'.Orderly ts ∧
    EndsLine ts b' F F'

section
variable {text : String}

theorem cursor_lt_length (h : b.Gathers (tokens text).toArray v) : b.cursor < (tokens text).length := by
  obtain ⟨_, found, -⟩ := h.shown.ends
  have bound := (Array.getElem?_eq_some_iff.mp found).1
  rw [h.tokens, List.size_toArray] at bound
  exact Nat.lt_of_le_of_lt h.shown.cursor bound

/-- Behind blanks and the token that ends the line of the token `j`, the documentation comments are late. -/
theorem breakLine_due (h : b.Gathers (tokens text).toArray v) (last : (kindAt (tokens text).toArray j).isTrivia = false)
    (other : kindAt (tokens text).toArray j ≠ .lbrace) (lt : j < b.cursor)
    (blank : Only (tokens text).toArray isBlank (j + 1) b.cursor)
    (here : b.current.kind ∈ [TokenKind.newline, .comment, .docComment]) (run : breakLine.run b = .ok docs b')
    (clean : b'.errors = b.errors) :
    ∃ id G G' k, b'.Due (tokens text).toArray (v.grow (.branch id (.plain .lineBreak) G .nil))
      (v.grow (.branch id (.plain .lineBreak) G' .nil)) docs j k ∧
        (k < b'.cursor → IsLate (tokens text).toArray j k) := by
  obtain ⟨id, G, G', D, k, gathers, sheds, spans, behind, upTo, white, only, begins⟩ := breakLine_leaves h run clean
  rw [← h.kindAt_cursor] at here
  have before (m : TokenId) (hj : j < m) (hm : m < b.cursor) : kindAt (tokens text).toArray m = .space ∨
      kindAt (tokens text).toArray m = .comma := by simpa [isBlank] using blank m hj hm
  have quiet (m : TokenId) (hj : j < m) (hm : m < k) : ¬ IsLate (tokens text).toArray j m := by
    rcases Nat.lt_trichotomy m b.cursor with before' | rfl | behind'
    · refine not_isLate_of_kind ?_
      rcases before m hj before' with kind | kind <;> rw [kind] <;> decide
    · rintro ⟨-, late⟩
      rw [start_line_of_spaces hj (cursor_lt_length h) before] at late
      exact Nat.lt_irrefl _ late
    · exact not_isLate_of_kind (ne_docComment_of_isWhitespace (white m behind' hm))
  have ends : (kindAt (tokens text).toArray b.cursor).isTrivia = true := by
    revert here
    cases kindAt (tokens text).toArray b.cursor <;> decide
  have trivia : Only (tokens text).toArray TokenKind.isTrivia (j + 1) b'.cursor :=
    (blank.mono fun _ => isTrivia_of_isBlank).trans
      (.trans (.single ends) ((white.mono fun _ => isTrivia_of_isWhitespace).trans only))
  refine ⟨id, G, G', k, ⟨gathers, ⟨D, sheds, spans⟩, ?_⟩, fun some => ⟨begins some, ?_⟩⟩
  · exact trail_of_quiet last other (Nat.lt_trans lt behind) upTo trivia begins quiet
  · exact stop_line_lt lt behind (Nat.lt_trans some (cursor_lt_length gathers)) before here
      (by rw [begins some]; decide)

/-- Behind blanks the line of the token `j` ends, and the documentation comments that are handed on are late. -/
theorem endLine_due (h : b.Gathers (tokens text).toArray v) (last : (kindAt (tokens text).toArray j).isTrivia = false)
    (other : kindAt (tokens text).toArray j ≠ .lbrace) (lt : j < b.cursor)
    (blank : Only (tokens text).toArray isBlank (j + 1) b.cursor) (run : endLine.run b = .ok docs b')
    (clean : b'.errors = b.errors) :
    LineEnded (tokens text).toArray v b' docs j := by
  unfold endLine at run
  obtain ⟨_, b₁, spaced, run⟩ := bind_eq_ok.mp run
  obtain ⟨token, b₂, hask, run⟩ := bind_eq_ok.mp run
  cases hask
  have steady := lineEnd_steady b₁.current
  obtain ⟨clean₁, clean₂⟩ := (Steady.ok spaced).clean (steady.ok run) clean
  obtain ⟨S, gathers, node, only, -⟩ := spaces_skips h spaced clean₁
  have lt₁ : j < b₁.cursor := Nat.lt_of_lt_of_le lt (Steady.ok spaced).cursor
  have blank₁ := blank.trans (only.mono fun _ space => Bool.or_eq_true_iff.mpr (.inl space))
  have spaces : S.row (tokens text).toArray ∈ blanks.matches' ∧ S.Orderly (tokens text).toArray := by
    obtain rfl | ⟨id, G, rfl⟩ := node
    · exact ⟨.inl rfl, trivial⟩
    · exact ⟨.inr rfl, Forest.orderly_lower rfl⟩
  -- Where no line break comes, nothing but blanks stands behind `j`.
  have goesOn (stop : b₁.current.kind = .eof ∨ b₁.current.start.column = 1) :
      LineEnded (tokens text).toArray v b₁ none j := by
    have nothing : ¬ b₁.cursor < b₁.cursor := Nat.lt_irrefl _
    refine ⟨S, S, b₁.cursor, .start gathers ?_, fun some => absurd some nothing, spaces.2, spaces.2,
      .inr ⟨rfl, spaces.1, stop⟩⟩
    refine trail_of_quiet last other lt₁ (Nat.le_refl _) (blank₁.mono fun _ => isTrivia_of_isBlank)
      (fun some => absurd some nothing) fun m hj hm => not_isLate_of_kind fun doc => ?_
    have kind := blank₁ m hj hm
    rw [doc] at kind
    cases kind
  have breaks (here : b₁.current.kind ∈ [TokenKind.newline, .comment, .docComment])
      (run : breakLine.run b₁ = .ok docs b') : LineEnded (tokens text).toArray v b' docs j := by
    obtain ⟨id, G, G', k, due, late⟩ := breakLine_due gathers last other lt₁ blank₁ here run clean₂
    rw [View.grow_grow, View.grow_grow] at due
    have nodes (H : Forest) : (S ++ .branch id (.plain .lineBreak) H .nil).row (tokens text).toArray ∈
        (sequence [blanks, one .lineBreak]).matches' := by
      rw [Forest.row_append]
      exact Language.append_mem_mul spaces.1 ((matches_sequence_one (one .lineBreak)).ge rfl)
    have orderly (H : Forest) : (S ++ .branch id (.plain .lineBreak) H .nil).Orderly (tokens text).toArray :=
      Forest.orderly_append.mpr ⟨spaces.2, Forest.orderly_lower rfl⟩
    exact ⟨_, _, k, due, late, orderly G, orderly G', .inl ⟨nodes G, nodes G'⟩⟩
  split at run
  · next here => exact breaks (by rw [here]; decide) run
  · next here => exact breaks (by rw [here]; decide) run
  · next here => exact breaks (by rw [here]; decide) run
  · next here =>
    cases run
    exact goesOn (.inl here)
  · rw [run_ite] at run
    split at run
    · next column =>
      cases run
      exact goesOn (.inr column)
    · cases run

end

end SmithyIdl.Grammar
