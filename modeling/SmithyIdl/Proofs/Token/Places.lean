import SmithyIdl.Proofs.Text.Position
import SmithyIdl.Proofs.Token.Stream

/-! # The places of tokens

A lexer counts offsets and positions as it goes. They are those of the characters before each token, since no
token ends between a carriage return and its line feed. -/

namespace SmithyIdl

variable {c : Char} {cs ds : List Char}

/-- Characters with which no line ends. -/
def InLine (cs : List Char) : Prop := ∀ c ∈ cs, Scan.isLineEnd c = false

theorem InLine.append (h : InLine cs) (h' : InLine ds) : InLine (cs ++ ds) := by
  intro c hc
  rcases List.mem_append.mp hc with hc | hc
  · exact h c hc
  · exact h' c hc

theorem InLine.cons (hc : Scan.isLineEnd c = false) (h : InLine cs) : InLine (c :: cs) := by
  simpa [InLine, hc] using h

/-- A class without line ends. -/
theorem inLine_takeWhile {p : Char → Bool} (newline : p '\n' = false) (ret : p '\r' = false) (cs : List Char) :
    InLine (cs.takeWhile p) := by
  intro c hc
  have among : p c = true := List.all_eq_true.mp List.all_takeWhile c hc
  rw [Bool.eq_false_iff]
  intro ends
  rcases Position.isLineEnd_iff.mp ends with rfl | rfl
  · simp [newline] at among
  · simp [ret] at among

/-! ### Written numbers -/

namespace NumberText

theorem inLine_digits (cs : List Char) : InLine (cs.takeWhile Char.isDigit) :=
  inLine_takeWhile (by decide) (by decide) cs

theorem fraction?_spec (h : fraction? cs = some ds) : '.' :: ds <+: cs ∧ InLine ds := by
  unfold fraction? at h
  split at h
  · split at h
    · cases h
      exact ⟨List.cons_prefix_cons.mpr ⟨rfl, List.takeWhile_prefix _⟩, inLine_digits _⟩
    · cases h
  · cases h

theorem exponent?_spec {e : ExponentText} (h : exponent? cs = some e) : e.toList <+: cs ∧ InLine e.toList := by
  unfold exponent? at h
  split at h
  · rename_i mark cs
    split at h
    · rename_i isMark
      have marked : Scan.isLineEnd mark = false := by rcases isMark with rfl | rfl <;> decide
      split at h
      all_goals
        split at h
        · cases h
          refine ⟨by simp [ExponentText.toList, List.cons_prefix_cons, List.takeWhile_prefix], .cons marked ?_⟩
          simp only [Option.toList_some, Option.toList_none, List.nil_append, List.singleton_append]
          first
            | exact .cons (by decide) (inLine_digits _)
            | exact inLine_digits _
        · cases h
    · cases h
  · cases h

/-- A number is read from the characters that it is written with. -/
theorem read_isPrefix (negative : Bool) (cs : List Char) :
    (read negative cs).toList <+: (if negative then ['-'] else []) ++ cs := by
  have whole : cs.takeWhile Char.isDigit ++ cs.dropWhile Char.isDigit = cs := List.takeWhile_append_dropWhile
  have rest : cs.drop (cs.takeWhile Char.isDigit).length = cs.dropWhile Char.isDigit := by
    conv => lhs; arg 2; rw [← whole]
    exact List.drop_left
  simp only [read, toList, rest, List.append_assoc]
  refine (List.prefix_append_right_inj _).mpr ?_
  conv => rhs; rw [← whole]
  refine (List.prefix_append_right_inj _).mpr ?_
  cases hf : fraction? (cs.dropWhile Char.isDigit) with
  | none =>
    cases he : exponent? (cs.dropWhile Char.isDigit) with
    | none => simp
    | some e => simpa using (exponent?_spec he).1
  | some ds =>
    obtain ⟨⟨after, split⟩, -⟩ := fraction?_spec hf
    have behind : (cs.dropWhile Char.isDigit).drop (ds.length + 1) = after := by
      rw [← split]
      exact List.drop_left
    simp only [behind]
    rw [← split]
    refine (List.prefix_append_right_inj _).mpr ?_
    cases he : exponent? after with
    | none => simp
    | some e => exact (exponent?_spec he).1

theorem inLine_read (negative : Bool) (cs : List Char) : InLine (read negative cs).toList := by
  have sign : InLine (if negative then ['-'] else []) := by cases negative <;> simp [InLine, Scan.isLineEnd]
  simp only [read, toList]
  refine ((sign.append (inLine_digits cs)).append ?_).append ?_
  · cases hf : fraction? (cs.drop (cs.takeWhile Char.isDigit).length) with
    | none => simp [InLine]
    | some ds => exact .cons (by decide) (fraction?_spec hf).2
  · split
    · next he => exact (exponent?_spec he).2
    · simp [InLine]

end NumberText

/-! ### Scanning -/

namespace CutsNoPair

theorem of_last (last : cs.getLast? = some c) (ne : c ≠ '\r') : CutsNoPair cs ds := fun h => by
  rw [last] at h
  exact absurd (Option.some.inj h) ne

theorem of_inLine (h : InLine cs) : CutsNoPair cs ds := fun last => by
  have := h _ (List.mem_of_getLast? last)
  cases this

theorem nil : CutsNoPair cs [] := fun _ => nofun

theorem of_head (h : CutsNoPair cs (c :: ds)) (es : List Char) : CutsNoPair cs (c :: es) := h

theorem left {es : List Char} (h : CutsNoPair cs (ds ++ es)) : CutsNoPair cs ds := by
  cases ds with
  | nil => exact .nil
  | cons c ds => exact h.of_head ds

theorem append_left (h : CutsNoPair (c :: cs) ds) (before : List Char) : CutsNoPair (before ++ c :: cs) ds :=
  fun last => h (by simpa [List.getLast?_append, List.getLast?_cons] using last)

end CutsNoPair

namespace Scan

/-- A scan does not end between a carriage return and its line feed. -/
def KeepsPairs (c : Char) (cs : List Char) (s : Scan) : Prop := CutsNoPair (c :: cs.take s.extra) (cs.drop s.extra)

theorem take_takeWhile (p : Char → Bool) (cs : List Char) : cs.take (cs.takeWhile p).length = cs.takeWhile p :=
  (List.prefix_iff_eq_take.mp (List.takeWhile_prefix p)).symm

theorem keepsPairs_single {kind : TokenKind} (ne : c ≠ '\r') : KeepsPairs c cs (single kind) :=
  .of_last rfl ne

theorem keepsPairs_takeWhile {content : TokenContent} {p : Char → Bool} (hc : isLineEnd c = false)
    (newline : p '\n' = false) (ret : p '\r' = false) : KeepsPairs c cs ⟨content, (cs.takeWhile p).length⟩ := by
  rw [KeepsPairs, take_takeWhile]
  exact .of_inLine (.cons hc (inLine_takeWhile newline ret cs))

theorem inLine_number {negative : Bool} (hc : isLineEnd c = false)
    (starts : (if negative then ['-'] else []) ++ ds = c :: cs) : InLine (c :: cs.take (number negative ds).extra) := by
  have taken := List.prefix_iff_eq_take.mp (starts ▸ NumberText.read_isPrefix negative ds)
  rw [number]
  cases hn : (NumberText.read negative ds).toList.length with
  | zero => exact .cons hc (by simp [InLine])
  | succ n =>
    rw [hn, List.take_succ_cons] at taken
    rw [Nat.add_sub_cancel, ← taken]
    exact NumberText.inLine_read negative ds

theorem keepsPairs_number {negative : Bool} (hc : isLineEnd c = false)
    (starts : (if negative then ['-'] else []) ++ ds = c :: cs) : KeepsPairs c cs (number negative ds) :=
  .of_inLine (inLine_number hc starts)

theorem keepsPairs_comment (cs : List Char) : KeepsPairs '/' cs (comment cs) := by
  unfold comment
  split
  · rename_i cs
    rw [KeepsPairs, List.take_succ_cons, take_takeWhile]
    exact .of_inLine (.cons (by decide) (.cons (by decide) (inLine_takeWhile (by decide) (by decide) cs)))
  · exact .of_last (c := '/') rfl (by decide)

/-- A closed string ends with its quote, and one that is not closed ends the text. -/
theorem keepsPairs_string (cs : List Char) : KeepsPairs '"' cs (string cs) := by
  unfold string
  split
  · rw [KeepsPairs, List.drop_length]
    exact .nil
  · next closed =>
    obtain ⟨inner, taken, -⟩ := closingQuote?_take closed
    rw [KeepsPairs, taken]
    exact .of_last (c := '"') (by simp [List.getLast?_cons]) (by decide)

theorem keepsPairs_textBlock (cs : List Char) : KeepsPairs '"' ('"' :: '"' :: cs) (textBlock cs) := by
  unfold textBlock
  split
  · rw [KeepsPairs, List.drop_succ_cons, List.drop_succ_cons, List.drop_length]
    exact .nil
  · next closed =>
    obtain ⟨inner, taken, -⟩ := closingQuotes?_take closed
    rw [KeepsPairs, List.take_succ_cons, List.take_succ_cons, taken]
    exact .of_last (c := '"') (by simp [List.getLast?_cons]) (by decide)

end Scan

/-- No token ends between a carriage return and its line feed. -/
theorem scan_keepsPairs (c : Char) (cs : List Char) : Scan.KeepsPairs c cs (scan c cs) := by
  unfold scan
  split
  case h_1 => exact Scan.keepsPairs_takeWhile (by decide) (by decide) (by decide)
  case h_2 => exact Scan.keepsPairs_takeWhile (by decide) (by decide) (by decide)
  case h_4 =>
    -- A carriage return takes the line feed behind it along.
    by_cases pair : cs.head? = some '\n'
    · obtain ⟨ds, rfl⟩ := List.head?_eq_some_iff.mp pair
      exact .of_last (c := '\n') rfl (by decide)
    · rw [if_neg pair]
      exact fun _ => pair
  case h_11 =>
    by_cases walrus : cs.head? = some '='
    · obtain ⟨ds, rfl⟩ := List.head?_eq_some_iff.mp walrus
      exact .of_last (c := '=') rfl (by decide)
    · rw [if_neg walrus]
      exact Scan.keepsPairs_single (by decide)
  case h_18 => exact Scan.keepsPairs_comment cs
  case h_19 =>
    unfold Scan.quoted
    split
    · exact Scan.keepsPairs_textBlock _
    · exact Scan.keepsPairs_string _
  case h_20 =>
    split
    · exact Scan.keepsPairs_number (by decide) rfl
    · exact .of_last (c := '-') rfl (by decide)
  case h_21 =>
    have notNewline : c ≠ '\n' := by assumption
    have notReturn : c ≠ '\r' := by assumption
    have hc : Scan.isLineEnd c = false := by simp [Scan.isLineEnd, notNewline, notReturn]
    split
    · exact Scan.keepsPairs_number hc rfl
    · split
      · exact Scan.keepsPairs_takeWhile hc (by decide) (by decide)
      · exact .of_last rfl notReturn
  all_goals exact Scan.keepsPairs_single (by decide)

/-! ### The stream -/

/-- A token with the characters `cs`, which stand behind `before`. -/
structure Token.StandsAt (t : Token) (before cs : List Char) : Prop where
  lexeme : t.lexeme = .ofList cs
  range : t.range = ⟨byteLength before, byteLength (before ++ cs)⟩
  start : t.start = .behind before
  stop : t.stop = .behind (before ++ cs)

/-- Tokens that stand behind some characters, one behind the other. -/
inductive Follow : List Char → List Token → Prop where
  | nil {before : List Char} : Follow before []
  | cons {before cs : List Char} {t : Token} {ts : List Token} (stands : t.StandsAt before cs)
      (rest : Follow (before ++ cs) ts) : Follow before (t :: ts)

namespace Lexer

theorem drain_follow (l : Lexer) (before : List Char) (offset : l.offset = byteLength before)
    (position : l.position = .behind before) (whole : CutsNoPair before l.rest) : Follow before l.drain.1 := by
  fun_induction drain l generalizing before with
  | case1 l none => exact .nil
  | case2 l t after taken bound ts last rest ih =>
    have running : l.finished = false := by
      cases h : l.finished with
      | false => rfl
      | true => simp [next?, h] at taken
    simp only [next?, running, Bool.false_eq_true, if_false, Option.some.injEq, Prod.mk.injEq] at taken
    obtain ⟨token, state⟩ := taken
    rw [rest] at ih
    cases hrest : l.rest with
    | nil =>
      simp only [nextToken, hrest] at token state
      subst token
      have finished : after.finished = true := by simp [← state, Token.kind, TokenContent.kind]
      rw [drain_of_finished finished, Prod.mk.injEq] at rest
      obtain ⟨rfl, -⟩ := rest
      refine .cons (show Token.StandsAt _ before [] from ⟨rfl, ?_, position, ?_⟩) .nil
      · simp [offset, ByteRange.empty]
      · simp [position]
    | cons c cs =>
      rw [hrest] at whole
      simp only [nextToken, hrest] at token state
      subst token
      subst state
      have stop := Position.behind_append (whole.of_head (cs.take (scan c cs).extra))
      refine .cons ⟨rfl, ?_, position, by rw [position, stop]⟩ (ih _ ?_ (by rw [position, stop]) ?_)
      · rw [byteLength_append, ← offset]
      · rw [byteLength_append, ← offset]
      · exact (scan_keepsPairs c cs).append_left before

end Lexer

theorem tokens_follow (text : String) : Follow [] (tokens text) := Lexer.drain_follow _ [] rfl rfl nofun

/-! ### Tokens in a row -/

theorem byteLength_le_append (cs ds : List Char) : byteLength cs ≤ byteLength (cs ++ ds) := by
  rw [byteLength_append]
  exact Nat.le_add_right ..

/-- The characters of some tokens. -/
def lexemes (ts : List Token) : List Char := ts.flatMap fun t => t.lexeme.toList

@[simp] theorem lexemes_nil : lexemes [] = [] := rfl

@[simp] theorem lexemes_cons (t : Token) (ts : List Token) : lexemes (t :: ts) = t.lexeme.toList ++ lexemes ts := rfl

@[simp] theorem lexemes_append (ts us : List Token) : lexemes (ts ++ us) = lexemes ts ++ lexemes us :=
  List.flatMap_append ..

theorem ofList_lexemes (ts : List Token) : String.join (ts.map Token.lexeme) = .ofList (lexemes ts) := by
  apply String.toList_inj.mp
  rw [String.toList_join, List.flatMap_map, String.toList_ofList, lexemes]

theorem Token.StandsAt.lexemes_eq {t : Token} {before : List Char} (h : t.StandsAt before cs) : t.lexeme.toList = cs := by
  rw [h.lexeme, String.toList_ofList]

namespace Follow

variable {before : List Char} {t : Token} {ts us : List Token}

theorem append (h : Follow before (ts ++ us)) : Follow before ts ∧ Follow (before ++ lexemes ts) us := by
  induction ts generalizing before with
  | nil => exact ⟨.nil, by simpa using h⟩
  | cons t ts ih =>
    cases h with
    | cons stands rest =>
      obtain ⟨left, right⟩ := ih rest
      refine ⟨.cons stands left, ?_⟩
      rwa [lexemes_cons, stands.lexemes_eq, ← List.append_assoc]

theorem first (h : Follow before (t :: ts)) : t.start = .behind before ∧ t.range.start = byteLength before := by
  cases h with
  | cons stands rest => exact ⟨stands.start, by rw [stands.range]⟩

theorem exists_stands (h : Follow before ts) (ht : t ∈ ts) :
    ∃ us vs, ts = us ++ t :: vs ∧ t.StandsAt (before ++ lexemes us) t.lexeme.toList := by
  obtain ⟨us, vs, rfl⟩ := List.append_of_mem ht
  cases h.append.2 with
  | cons stands rest => exact ⟨us, vs, rfl, stands.lexemes_eq.symm ▸ stands⟩

/-- Tokens start in order. -/
theorem starts_le (h : Follow before ts) : ts.Pairwise (·.range.start ≤ ·.range.start) := by
  induction h with
  | nil => exact .nil
  | @cons before cs t ts stands rest ih =>
    refine .cons (fun t' ht => ?_) ih
    obtain ⟨us, -, -, stands'⟩ := rest.exists_stands ht
    rw [stands.range, stands'.range, List.append_assoc]
    exact byteLength_le_append before _

theorem last (h : Follow before (ts ++ [t])) :
    t.stop = .behind (before ++ lexemes (ts ++ [t])) ∧ t.range.stop = byteLength (before ++ lexemes (ts ++ [t])) := by
  obtain ⟨-, h⟩ := h.append
  cases h with
  | cons stands rest =>
    have all : before ++ lexemes (ts ++ [t]) = before ++ lexemes ts ++ t.lexeme.toList := by simp
    rw [all, stands.lexemes_eq]
    exact ⟨stands.stop, by rw [stands.range]⟩

/-- The bytes from the first token to the last are those of all characters between. -/
theorem cover {t' : Token} {us : List Token} (h : Follow before ts) (starts : ts = t :: us) {init : List Token}
    (ends : ts = init ++ [t']) : t.range.cover t'.range = ⟨byteLength before, byteLength (before ++ lexemes ts)⟩ := by
  obtain ⟨-, start⟩ := (starts ▸ h).first
  obtain ⟨-, stop⟩ := (ends ▸ h).last
  rw [← ends] at stop
  have later : byteLength before ≤ t'.range.start := by
    obtain ⟨-, lastStart⟩ := (ends ▸ h).append.2.first
    rw [lastStart, byteLength_append]
    exact Nat.le_add_right ..
  have sooner : t.range.stop ≤ byteLength (before ++ lexemes ts) := by
    subst starts
    have whole : Follow before ([t] ++ us) := h
    obtain ⟨-, firstStop⟩ := Follow.last (show Follow before ([] ++ [t]) from whole.append.1)
    rw [firstStop, byteLength_append, byteLength_append, lexemes_cons, byteLength_append]
    simp only [List.nil_append, lexemes_cons, lexemes_nil, List.append_nil]
    omega
  rw [ByteRange.cover, start, stop, Nat.min_eq_left later, Nat.max_eq_right sooner]

end Follow

/-- A token is located by the line and the column of its start, and its range lies in the text. -/
theorem tokens_located {text : String} {t : Token} (ht : t ∈ tokens text) :
    t.range.start ≤ t.range.stop ∧ t.range.stop ≤ byteLength text.toList ∧
      Position.at? text.toList t.range.start = some t.start := by
  obtain ⟨us, vs, all, stands⟩ := (tokens_follow text).exists_stands ht
  have whole : lexemes (tokens text) = text.toList := (tokens_cuts text).lexemes
  refine ⟨?_, by simpa using (tokens_cuts text).stop_le t ht, ?_⟩
  · rw [stands.range]
    exact byteLength_le_append _ _
  · rw [← whole, all, lexemes_append, stands.range, stands.start]
    exact Position.at?_byteLength ..

/-! ### Lines -/

/-- Kinds of tokens in which no line ends. -/
def TokenKind.isInLine : TokenKind → Bool
  | identifier | space | rbrace | rbracket | rparen => true
  | _ => false

namespace Scan

/-- A scan of such a kind has no line end in it. -/
def StaysInLine (c : Char) (cs : List Char) (s : Scan) : Prop :=
  s.content.kind.isInLine = true → InLine (c :: cs.take s.extra)

theorem staysInLine_of_kind {s : Scan} (h : s.content.kind.isInLine = false) : StaysInLine c cs s := fun inLine => by
  rw [h] at inLine
  cases inLine

theorem staysInLine_single {kind : TokenKind} (hc : isLineEnd c = false) : StaysInLine c cs (single kind) :=
  fun _ => .cons hc (by simp [InLine, single])

theorem staysInLine_takeWhile {content : TokenContent} {p : Char → Bool} (hc : isLineEnd c = false)
    (newline : p '\n' = false) (ret : p '\r' = false) : StaysInLine c cs ⟨content, (cs.takeWhile p).length⟩ := fun _ => by
  rw [take_takeWhile]
  exact .cons hc (inLine_takeWhile newline ret cs)

theorem decoded_kind (content : String → TokenContent) {kind : TokenKind} (known : ∀ value, (content value).kind = kind)
    (read : Except LexError (List Char)) : (decoded read content).kind = kind ∨ (decoded read content).kind = .error := by
  cases read with
  | error cause => exact .inr rfl
  | ok value => exact .inl (known _)

theorem quoted_kind (cs : List Char) : (quoted cs).content.kind = .string ∨ (quoted cs).content.kind = .textBlock ∨
    (quoted cs).content.kind = .error := by
  unfold quoted
  split
  · unfold textBlock
    split
    · exact .inr (.inr rfl)
    · exact .inr (decoded_kind .textBlock (fun _ => rfl) _)
  · unfold string
    split
    · exact .inr (.inr rfl)
    · exact (decoded_kind .string (fun _ => rfl) _).imp_right .inr

theorem comment_kind (cs : List Char) : (comment cs).content.kind = .comment ∨ (comment cs).content.kind = .docComment ∨
    (comment cs).content.kind = .error := by
  unfold comment
  split
  · dsimp only [TokenContent.kind]
    split
    · exact .inr (.inl rfl)
    · exact .inl rfl
  · exact .inr (.inr rfl)

theorem isInLine_quoted (cs : List Char) : (quoted cs).content.kind.isInLine = false := by
  rcases quoted_kind cs with kind | kind | kind <;> rw [kind] <;> rfl

theorem isInLine_comment (cs : List Char) : (comment cs).content.kind.isInLine = false := by
  rcases comment_kind cs with kind | kind | kind <;> rw [kind] <;> rfl

end Scan

theorem scan_staysInLine (c : Char) (cs : List Char) : Scan.StaysInLine c cs (scan c cs) := by
  unfold scan
  split
  case h_1 => exact Scan.staysInLine_takeWhile (by decide) (by decide) (by decide)
  case h_2 => exact Scan.staysInLine_takeWhile (by decide) (by decide) (by decide)
  case h_3 => exact Scan.staysInLine_of_kind rfl
  case h_4 => exact Scan.staysInLine_of_kind rfl
  case h_11 => split <;> exact Scan.staysInLine_of_kind rfl
  case h_18 => exact Scan.staysInLine_of_kind (Scan.isInLine_comment cs)
  case h_19 => exact Scan.staysInLine_of_kind (Scan.isInLine_quoted cs)
  case h_20 => split <;> exact Scan.staysInLine_of_kind rfl
  case h_21 =>
    have notNewline : c ≠ '\n' := by assumption
    have notReturn : c ≠ '\r' := by assumption
    have hc : Scan.isLineEnd c = false := by simp [Scan.isLineEnd, notNewline, notReturn]
    split
    · exact Scan.staysInLine_of_kind rfl
    · split
      · exact Scan.staysInLine_takeWhile hc (by decide) (by decide)
      · exact Scan.staysInLine_of_kind rfl
  all_goals exact Scan.staysInLine_single (by decide)

theorem Lexer.inLine_of_mem_drain {l : Lexer} {t : Token} (ht : t ∈ l.drain.1) (kind : t.kind.isInLine = true) :
    ∃ c cs, t.lexeme.toList = c :: cs ∧ InLine (c :: cs) := by
  fun_induction drain l with
  | case1 l none => cases ht
  | case2 l u after taken bound ts last rest ih =>
    rw [rest] at ih
    rcases List.mem_cons.mp ht with rfl | ht
    · simp only [next?] at taken
      split at taken
      · cases taken
      · simp only [Option.some.injEq, Prod.mk.injEq] at taken
        obtain ⟨token, -⟩ := taken
        cases hrest : l.rest with
        | nil =>
          simp only [nextToken, hrest] at token
          subst token
          cases kind
        | cons c cs =>
          simp only [nextToken, hrest] at token
          subst token
          exact ⟨c, _, by simp, scan_staysInLine c cs kind⟩
    · exact ih ht

/-- In the line behind a character that does not end it there is something. -/
theorem lastLine_concat (cs : List Char) (h : Scan.isLineEnd c = false) : lastLine (cs ++ [c]) = lastLine cs ++ [c] := by
  rw [lastLine, List.reverse_append, List.reverse_singleton, List.singleton_append,
    List.takeWhile_cons_of_pos (by simp [h]), List.reverse_cons, ← lastLine]

/-- A list is cut between two neighbours. -/
theorem split_pair {α : Type} {l : List α} {i : Nat} {a b : α} (ha : l[i]? = some a) (hb : l[i + 1]? = some b) :
    l = (l.take i ++ [a]) ++ b :: l.drop (i + 2) := by
  obtain ⟨bound, rfl⟩ := List.getElem?_eq_some_iff.mp ha
  obtain ⟨bound', rfl⟩ := List.getElem?_eq_some_iff.mp hb
  rw [List.append_assoc, List.singleton_append, ← List.drop_eq_getElem_cons bound', ← List.drop_eq_getElem_cons bound,
    List.take_append_drop]

/-- Behind a token in which no line ends the next one is not the first of its line. -/
theorem column_ne_one {text : String} {i : Nat} {t t' : Token} (ht : (tokens text)[i]? = some t)
    (ht' : (tokens text)[i + 1]? = some t') (kind : t.kind.isInLine = true) : t'.start.column ≠ 1 := by
  obtain ⟨c, cs, lexeme, inLine⟩ := Lexer.inLine_of_mem_drain (List.mem_of_getElem? ht) kind
  obtain ⟨init, d, last⟩ : ∃ init d, c :: cs = init ++ [d] :=
    ⟨_, _, (List.dropLast_concat_getLast (List.cons_ne_nil c cs)).symm⟩
  have follow := tokens_follow text
  rw [split_pair ht ht'] at follow
  have start := follow.append.2.first.1
  have behind : [] ++ lexemes ((tokens text).take i ++ [t]) = lexemes ((tokens text).take i) ++ init ++ [d] := by
    simp [lexeme, last]
  rw [behind] at start
  have hd : Scan.isLineEnd d = false := inLine d (by simp [last])
  have wide := d.utf8Size_pos
  rw [start, Position.behind, lastLine_concat _ hd, byteLength_append]
  simp only [byteLength]
  omega

end SmithyIdl
