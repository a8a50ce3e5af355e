import Mathlib.Data.List.Forall2
import SmithyIdl.Proofs.Literal.LineBreaks
import SmithyIdl.Proofs.Literal.Unescape
import SmithyIdl.Proofs.Text.LineBreaks
import SmithyIdl.Proofs.Token.Likeness
import SmithyIdl.Proofs.Token.Places
import SmithyIdl.Proofs.Token.Scans

/-! # Tokens with line breaks of two characters

A text with a carriage return before each line feed has the tokens of the text without them. Most tokens end in the
line where they begin. Strings and text blocks go on over line breaks, and neither where they end nor whether they can
be decoded depends on how these are written. -/

namespace SmithyIdl

variable {c d : Char} {cs ds raw : List Char} {n : Nat}

/-! ### Written numbers -/

namespace NumberText

theorem startsWithDigit_crlf (cs : List Char) : startsWithDigit (crlf cs) = startsWithDigit cs := by
  cases cs with
  | nil => rfl
  | cons c cs =>
    by_cases newline : c = '\n'
    · subst newline
      rfl
    · rw [crlf_cons newline]
      rfl

theorem takeDigits_crlf (cs : List Char) : (crlf cs).takeWhile Char.isDigit = cs.takeWhile Char.isDigit :=
  takeWhile_crlf rfl rfl cs

theorem fraction?_crlf (cs : List Char) : fraction? (crlf cs) = fraction? cs := by
  by_cases point : ∃ ds, cs = '.' :: ds
  · obtain ⟨ds, rfl⟩ := point
    rw [crlf_cons (by decide), fraction?, fraction?, startsWithDigit_crlf, takeDigits_crlf]
  · rw [fraction?.eq_2 cs fun ds same => point ⟨ds, same⟩, fraction?.eq_2]
    intro ds same
    obtain ⟨es, same, -⟩ := crlf_eq_cons same (by decide)
    exact point ⟨es, same⟩

theorem exponent?_crlf (cs : List Char) : exponent? (crlf cs) = exponent? cs := by
  cases cs with
  | nil => rfl
  | cons c cs =>
    by_cases newline : c = '\n'
    · subst newline
      rfl
    · rw [crlf_cons newline]
      by_cases plus : ∃ ds, cs = '+' :: ds
      · obtain ⟨ds, rfl⟩ := plus
        rw [crlf_cons (by decide), exponent?, exponent?, startsWithDigit_crlf, takeDigits_crlf]
      · by_cases minus : ∃ ds, cs = '-' :: ds
        · obtain ⟨ds, rfl⟩ := minus
          rw [crlf_cons (by decide), exponent?, exponent?, startsWithDigit_crlf, takeDigits_crlf]
        · have unsigned {d : Char} (ne : d ≠ '\r') (other : ¬∃ ds, cs = d :: ds) (ds : List Char) :
              crlf cs = d :: ds → False := fun same => by
            obtain ⟨es, same, -⟩ := crlf_eq_cons same ne
            exact other ⟨es, same⟩
          rw [exponent?.eq_3 c cs (fun ds same => plus ⟨ds, same⟩) fun ds same => minus ⟨ds, same⟩,
            exponent?.eq_3 c _ (unsigned (by decide) plus) (unsigned (by decide) minus), startsWithDigit_crlf,
            takeDigits_crlf]

theorem read_crlf (negative : Bool) (cs : List Char) : read negative (crlf cs) = read negative cs := by
  have whole : (crlf cs).drop (cs.takeWhile Char.isDigit).length = crlf (cs.drop (cs.takeWhile Char.isDigit).length) :=
    drop_crlf fun among => by
      rw [Scan.take_takeWhile] at among
      exact absurd (inLine_digits cs _ among) (by decide)
  simp only [read, takeDigits_crlf, whole, fraction?_crlf]
  cases fraction : fraction? (cs.drop (cs.takeWhile Char.isDigit).length) with
  | none => simp only [exponent?_crlf]
  | some ds =>
    obtain ⟨⟨after, split⟩, inLine⟩ := fraction?_spec fraction
    have taken : '\n' ∉ (cs.drop (cs.takeWhile Char.isDigit).length).take (ds.length + 1) := fun among => by
      rw [← split, List.cons_append, List.take_succ_cons, List.take_left] at among
      exact absurd (InLine.cons (by decide) inLine _ among) (by decide)
    simp only [drop_crlf taken, exponent?_crlf]

end NumberText

/-! ### Escapes -/

namespace Literal

theorem hex4_inLine (h : hex4 cs = .ok n) : '\n' ∉ cs.take 4 := fun among => by
  rw [hex4] at h
  split at h
  · next digits => exact absurd (List.all_eq_true.mp digits.2 _ among) (by decide)
  · cases h

theorem hex4_of_return (among : '\r' ∈ cs.take 4) : ∃ cause, hex4 cs = .error cause := by
  refine ⟨_, if_neg fun digits => ?_⟩
  exact absurd (List.all_eq_true.mp digits.2 _ among) (by decide)

theorem hex4_of_newline (among : '\n' ∈ cs.take 4) : ∃ cause, hex4 cs = .error cause := by
  cases h : hex4 cs with
  | error cause => exact ⟨cause, rfl⟩
  | ok n => exact absurd among (hex4_inLine h)

theorem hex4_crlf (cs : List Char) : (hex4 (crlf cs)).toOption = (hex4 cs).toOption := by
  by_cases inside : '\n' ∈ cs.take 4
  · obtain ⟨cause, failed⟩ := hex4_of_newline inside
    obtain ⟨cause', failed'⟩ := hex4_of_return (return_mem_take_crlf inside)
    rw [failed, failed']
    rfl
  · rw [hex4, take_crlf inside]
    rfl

/-- The escape of a code point ends in the line where it begins. -/
theorem codePoint_inLine (h : codePoint cs = .ok (c, n)) : '\n' ∉ cs.take n := by
  cases first : hex4 cs with
  | error cause =>
    rw [codePoint_of_error first] at h
    cases h
  | ok high =>
    have inLine := hex4_inLine first
    cases pair : isHighSurrogate high with
    | false =>
      rw [codePoint_of_single first pair] at h
      cases read : charOf high <;> rw [read] at h <;> cases h
      exact inLine
    | true =>
      by_cases behind : ∃ rest, cs.drop 4 = '\\' :: 'u' :: rest
      · obtain ⟨rest, behind⟩ := behind
        rw [codePoint_of_pair first pair behind] at h
        cases second : hex4 rest with
        | error cause =>
          rw [second] at h
          cases h
        | ok low =>
          rw [second] at h
          obtain rfl := ofPair_taken h
          have whole : cs.take 10 = cs.take 4 ++ '\\' :: 'u' :: rest.take 4 := by
            have parts := List.take_add (l := cs) (i := 4) (j := 6)
            rw [behind] at parts
            exact parts
          simp only [whole, List.mem_append, List.mem_cons, not_or]
          exact ⟨inLine, by decide, by decide, hex4_inLine second⟩
      · rw [codePoint_of_lonely first pair fun rest same => behind ⟨rest, same⟩] at h
        cases h

theorem codePoint_crlf (cs : List Char) : (codePoint (crlf cs)).toOption = (codePoint cs).toOption := by
  have same := hex4_crlf cs
  cases first : hex4 cs with
  | error cause =>
    cases first' : hex4 (crlf cs) with
    | error cause' =>
      rw [codePoint_of_error first, codePoint_of_error first']
      rfl
    | ok high =>
      rw [first, first'] at same
      cases same
  | ok high =>
    have inLine := hex4_inLine first
    have first' : hex4 (crlf cs) = .ok high := by rwa [hex4, take_crlf inLine]
    have behind := drop_crlf inLine
    cases pair : isHighSurrogate high with
    | false => rw [codePoint_of_single first pair, codePoint_of_single first' pair]
    | true =>
      by_cases other : ∃ rest, cs.drop 4 = '\\' :: 'u' :: rest
      · obtain ⟨rest, other⟩ := other
        rw [other, crlf_cons (by decide), crlf_cons (by decide)] at behind
        rw [codePoint_of_pair first pair other, codePoint_of_pair first' pair behind]
        have same := hex4_crlf rest
        cases second : hex4 rest <;> cases second' : hex4 (crlf rest) <;> rw [second, second'] at same <;> cases same
        · rfl
        · rfl
      · rw [codePoint_of_lonely first pair fun rest same => other ⟨rest, same⟩, codePoint_of_lonely first' pair]
        intro rest same
        rw [behind] at same
        obtain ⟨es, same, -⟩ := crlf_eq_cons_cons same (by decide) (by decide)
        exact other ⟨es, same⟩

theorem isOk_map {α β : Type} (read : Except LexError α) (f : α → β) : (read.map f).isOk = read.isOk := by
  cases read <;> rfl

/-- Contents can be decoded with either kind of line breaks or with none. -/
theorem unescape_crlf (none : '\r' ∉ raw) : (unescape (crlf raw)).isOk = (unescape raw).isOk := by
  fun_induction unescape raw with
  | case1 => rw [crlf_nil, unescape]
  | case2 => rw [crlf_cons (by decide), crlf_nil, unescape]
  | case3 cs cause failed =>
    have failed' : ∃ cause', codePoint (crlf cs) = .error cause' := by
      have same := codePoint_crlf cs
      cases read : codePoint (crlf cs) with
      | error cause' => exact ⟨cause', rfl⟩
      | ok found =>
        rw [failed, read] at same
        cases same
    obtain ⟨cause', failed'⟩ := failed'
    rw [crlf_cons (by decide), crlf_cons (by decide), unescape, failed']
    rfl
  | case4 cs c taken read ih =>
    have read' : codePoint (crlf cs) = .ok (c, taken) := by
      have same := codePoint_crlf cs
      cases failed : codePoint (crlf cs) with
      | error cause' =>
        rw [read, failed] at same
        cases same
      | ok found =>
        rw [read, failed] at same
        cases same
        rfl
    have none' : '\r' ∉ cs.drop taken := fun among =>
      none (List.mem_cons_of_mem _ (List.mem_cons_of_mem _ (List.mem_of_mem_drop among)))
    rw [crlf_cons (by decide), crlf_cons (by decide), unescape, read']
    dsimp only
    rw [drop_crlf (codePoint_inLine read), isOk_map, isOk_map, ih none']
  | case5 cs ih =>
    rw [crlf_cons (by decide), crlf_newline, unescape, ih]
    exact fun among => none (by simp [among])
  | case6 cs ih => simp at none
  | case7 cs other ih => simp at none
  | case8 c cs notU notNewline _ notReturn d simple ih =>
    rw [crlf_cons (by decide), crlf_cons notNewline, unescape.eq_7 c _ notU notNewline (fun _ same => (notReturn same).elim)
      notReturn, simple]
    dsimp only
    rw [isOk_map, isOk_map, ih]
    exact fun among => none (by simp [among])
  | case9 c cs notU notNewline _ notReturn unknown =>
    rw [crlf_cons (by decide), crlf_cons notNewline, unescape.eq_7 c _ notU notNewline (fun _ same => (notReturn same).elim)
      notReturn, unknown]
  | case10 c cs notLast _ _ _ _ notEscape ih => 
    have notBackslash : c ≠ '\\' := fun same => by
      cases cs with
      | nil => exact notLast same rfl
      | cons d ds => exact notEscape d ds same rfl
    have same := ih (List.not_mem_of_not_mem_cons none)
    by_cases newline : c = '\n'
    · subst newline
      rw [crlf_newline, unescape_cons (by decide), unescape_cons (by decide), isOk_map, isOk_map, isOk_map, same]
    · rw [crlf_cons newline, unescape_cons notBackslash, isOk_map, isOk_map, same]

/-! ### Text blocks -/

theorem pairsReturns_crlf (none : '\r' ∉ cs) : PairsReturns (crlf cs) := by
  induction cs with
  | nil => exact .nil
  | cons c cs ih =>
    have paired := ih (List.not_mem_of_not_mem_cons none)
    by_cases newline : c = '\n'
    · rw [newline, crlf_newline]
      exact .pair paired
    · rw [crlf_cons newline]
      exact .cons (List.ne_of_not_mem_cons none).symm paired

theorem withLineFeeds_crlf (none : '\r' ∉ cs) : withLineFeeds (crlf cs) = cs := by
  induction cs with
  | nil => rfl
  | cons c cs ih =>
    have same := ih (List.not_mem_of_not_mem_cons none)
    by_cases newline : c = '\n'
    · rw [newline, crlf_newline, withLineFeeds, same]
    · rw [crlf_cons newline, withLineFeeds_cons (List.ne_of_not_mem_cons none).symm, same]

/-- A text block says the same with either kind of line breaks. -/
theorem textBlock_crlf (none : '\r' ∉ raw) : textBlock (crlf raw) = textBlock raw := by
  rw [← textBlock_of_pairsReturns (pairsReturns_crlf none), withLineFeeds_crlf none]

end Literal

/-! ### Scanning -/

/-- What is read of the same characters with other line breaks. The value of a string may contain these, and so may what
    an error tells. -/
inductive TokenContent.Reflows : TokenContent → TokenContent → Prop where
  | same (content : TokenContent) : Reflows content content
  | string (value value' : String) : Reflows (.string value) (.string value')
  | invalid (cause cause' : LexError) : Reflows (.invalid cause) (.invalid cause')

namespace Scan

theorem closingQuote?_cons (notQuote : c ≠ '"') (notEscape : c ≠ '\\') (cs : List Char) :
    closingQuote? (c :: cs) = (closingQuote? cs).map (· + 1) :=
  closingQuote?.eq_4 c cs notQuote fun _ _ same => absurd same notEscape

theorem closingQuotes?_cons (notQuote : c ≠ '"') (notEscape : c ≠ '\\') (cs : List Char) :
    closingQuotes? (c :: cs) = (closingQuotes? cs).map (· + 1) :=
  closingQuotes?.eq_4 c cs (fun _ same => absurd same notQuote) fun _ _ same => absurd same notEscape

theorem closingQuote?_crlf (cs : List Char) :
    closingQuote? (crlf cs) = (closingQuote? cs).map fun n => (crlf (cs.take n)).length := by
  fun_induction closingQuote? cs with
  | case1 => rfl
  | case2 cs => rfl
  | case3 c cs ih =>
    rw [crlf_cons (by decide), Option.map_map]
    by_cases newline : c = '\n'
    · subst newline
      rw [crlf_newline, closingQuote?, closingQuote?_cons (by decide) (by decide), ih, Option.map_map, Option.map_map]
      rfl
    · rw [crlf_cons newline, closingQuote?, ih, Option.map_map]
      refine congrArg (Option.map · _) (funext fun n => ?_)
      simp [crlf_cons newline, crlf_cons (show '\\' ≠ '\n' by decide)]
  | case4 c cs notQuote notEscape ih =>
    rw [Option.map_map]
    by_cases newline : c = '\n'
    · subst newline
      rw [crlf_newline, closingQuote?_cons (by decide) (by decide), closingQuote?_cons (by decide) (by decide), ih,
        Option.map_map, Option.map_map]
      rfl
    · rw [crlf_cons newline]
      by_cases last : c = '\\'
      · cases cs with
        | nil =>
          subst last
          rfl
        | cons d ds => exact (notEscape d ds last rfl).elim
      · rw [closingQuote?_cons notQuote last, ih, Option.map_map]
        refine congrArg (Option.map · _) (funext fun n => ?_)
        simp [crlf_cons newline]

theorem closingQuotes?_crlf (cs : List Char) :
    closingQuotes? (crlf cs) = (closingQuotes? cs).map fun n => (crlf (cs.take n)).length := by
  fun_induction closingQuotes? cs with
  | case1 => rfl
  | case2 cs => rfl
  | case3 c cs ih =>
    rw [crlf_cons (by decide), Option.map_map]
    by_cases newline : c = '\n'
    · subst newline
      rw [crlf_newline, closingQuotes?, closingQuotes?_cons (by decide) (by decide), ih, Option.map_map, Option.map_map]
      rfl
    · rw [crlf_cons newline, closingQuotes?, ih, Option.map_map]
      refine congrArg (Option.map · _) (funext fun n => ?_)
      simp [crlf_cons newline, crlf_cons (show '\\' ≠ '\n' by decide)]
  | case4 c cs notQuotes notEscape ih =>
    rw [Option.map_map]
    by_cases newline : c = '\n'
    · subst newline
      rw [crlf_newline, closingQuotes?_cons (by decide) (by decide), closingQuotes?_cons (by decide) (by decide), ih,
        Option.map_map, Option.map_map]
      rfl
    · rw [crlf_cons newline]
      have notQuotes' (ds : List Char) (quote : c = '"') (same : crlf cs = '"' :: '"' :: ds) : False := by
        obtain ⟨es, same, -⟩ := crlf_eq_cons_cons same (by decide) (by decide)
        exact notQuotes es quote same
      by_cases last : c = '\\'
      · cases cs with
        | nil =>
          subst last
          rfl
        | cons d ds => exact (notEscape d ds last rfl).elim
      · rw [closingQuotes?.eq_4 c _ notQuotes' fun _ _ same => absurd same last, ih, Option.map_map]
        refine congrArg (Option.map · _) (funext fun n => ?_)
        simp [crlf_cons newline]

/-- The same token, of which some characters may be line breaks. -/
structure Reflows (cs : List Char) (s s' : Scan) : Prop where
  content : s.content.Reflows s'.content
  taken : (crlf cs).take s'.extra = crlf (cs.take s.extra)
  rest : (crlf cs).drop s'.extra = crlf (cs.drop s.extra)

variable {s : Scan}

theorem reflows_of_not_mem (h : '\n' ∉ cs.take s.extra) : Reflows cs s s where
  content := .same _
  taken := by rw [take_crlf h, crlf_of_not_mem h]
  rest := drop_crlf h

theorem reflows_single (kind : TokenKind) (cs : List Char) : Reflows cs (single kind) (single kind) :=
  reflows_of_not_mem List.not_mem_nil

theorem InLine.not_newline (h : InLine (c :: cs)) : '\n' ∉ cs := fun among =>
  absurd (h _ (List.mem_cons_of_mem c among)) (by decide)

theorem reflows_takeWhile {content : TokenContent} {p : Char → Bool} (newline : p '\n' = false) (ret : p '\r' = false)
    (cs : List Char) : Reflows cs ⟨content, (cs.takeWhile p).length⟩ ⟨content, ((crlf cs).takeWhile p).length⟩ := by
  rw [takeWhile_crlf newline ret]
  refine reflows_of_not_mem fun among => ?_
  rw [take_takeWhile] at among
  exact absurd (inLine_takeWhile newline ret cs _ among) (by decide)

theorem reflows_number {negative : Bool} (hc : isLineEnd c = false)
    (starts : (if negative then ['-'] else []) ++ ds = c :: cs) : 
    Reflows cs (number negative ds) (number negative (crlf ds)) := by
  have same : number negative (crlf ds) = number negative ds := by rw [number, number, NumberText.read_crlf]
  rw [same]
  exact reflows_of_not_mem (InLine.not_newline (inLine_number hc starts))

theorem reflows_comment (cs : List Char) : Reflows cs (comment cs) (comment (crlf cs)) := by
  by_cases slash : ∃ ds, cs = '/' :: ds
  · obtain ⟨ds, rfl⟩ := slash
    have kind : (crlf ds).head? = some '/' ↔ ds.head? = some '/' := head?_crlf rfl ds
    rw [crlf_cons (by decide), comment, comment, takeWhile_crlf rfl rfl]
    simp only [kind]
    refine reflows_of_not_mem ?_
    rw [List.take_succ_cons, take_takeWhile]
    exact InLine.not_newline (c := '/') (.cons rfl (.cons rfl (inLine_takeWhile rfl rfl ds)))
  · have alone : comment cs = ⟨.invalid .slashAlone, 0⟩ := comment.eq_2 cs fun ds same => slash ⟨ds, same⟩
    have alone' : comment (crlf cs) = ⟨.invalid .slashAlone, 0⟩ := by
      refine comment.eq_2 _ fun ds same => ?_
      obtain ⟨es, same, -⟩ := crlf_eq_cons same (by decide)
      exact slash ⟨es, same⟩
    rw [alone, alone']
    exact reflows_of_not_mem List.not_mem_nil

theorem reflows_decoded {read read' : Except LexError (List Char)} (same : read'.isOk = read.isOk) :
    (decoded read .string).Reflows (decoded read' .string) := by
  cases read with
  | error cause =>
    cases read' with
    | error cause' => exact .invalid cause cause'
    | ok value' => cases same
  | ok value =>
    cases read' with
    | error cause' => cases same
    | ok value' => exact .string ..

theorem reflows_string (none : '\r' ∉ cs) : Reflows cs (string cs) (string (crlf cs)) := by
  have closed' := closingQuote?_crlf cs
  cases closed : closingQuote? cs with
  | none =>
    rw [closed] at closed'
    simp only [string, closed, closed', Option.map_none]
    exact ⟨.same _, by simp, by simp⟩
  | some n =>
    obtain ⟨inner, piece, rfl⟩ := closingQuote?_take closed
    have between := take_inner piece
    have between' := (crlf_take_drop inner.length cs).1
    have length : (crlf (cs.take (inner.length + 1))).length = (crlf inner).length + 1 := by
      rw [piece, crlf_append, List.length_append]
      rfl
    have none' : '\r' ∉ inner := fun among => none (List.mem_of_mem_take (between ▸ among))
    obtain ⟨taken, rest⟩ := crlf_take_drop (inner.length + 1) cs
    rw [between] at between'
    rw [closed, Option.map_some, length] at closed'
    rw [length] at taken rest
    simp only [string, closed, closed', Nat.add_sub_cancel, between, between']
    exact ⟨reflows_decoded (Literal.unescape_crlf none'), taken, rest⟩

theorem reflows_textBlock (none : '\r' ∉ cs) :
    Reflows ('"' :: '"' :: cs) (textBlock cs) (textBlock (crlf cs)) := by
  have closed' := closingQuotes?_crlf cs
  cases closed : closingQuotes? cs with
  | none =>
    rw [closed] at closed'
    simp only [textBlock, closed, closed', Option.map_none]
    exact ⟨.same _, by simp [crlf], by simp [crlf]⟩
  | some n =>
    obtain ⟨inner, piece, rfl⟩ := closingQuotes?_take closed
    have between := take_inner piece
    have between' := (crlf_take_drop inner.length cs).1
    have length : (crlf (cs.take (inner.length + 3))).length = (crlf inner).length + 3 := by
      rw [piece, crlf_append, List.length_append]
      rfl
    have none' : '\r' ∉ inner := fun among => none (List.mem_of_mem_take (between ▸ among))
    obtain ⟨taken, rest⟩ := crlf_take_drop (inner.length + 3) cs
    rw [between] at between'
    rw [closed, Option.map_some, length] at closed'
    rw [length] at taken rest
    simp only [textBlock, closed, closed', Nat.add_sub_cancel, between, between', Literal.textBlock_crlf none']
    exact ⟨.same _, by simp [crlf, taken], by simp [crlf, rest]⟩

theorem reflows_quoted (none : '\r' ∉ cs) : Reflows cs (quoted cs) (quoted (crlf cs)) := by
  by_cases block : ∃ ds, cs = '"' :: '"' :: ds
  · obtain ⟨ds, rfl⟩ := block
    rw [crlf_cons (by decide), crlf_cons (by decide), quoted, quoted]
    exact reflows_textBlock fun among => none (by simp [among])
  · rw [quoted.eq_2 cs fun ds same => block ⟨ds, same⟩, quoted.eq_2]
    · exact reflows_string none
    · intro ds same
      obtain ⟨es, same, -⟩ := crlf_eq_cons_cons same (by decide) (by decide)
      exact block ⟨es, same⟩

end Scan

theorem scan_crlf (none : '\r' ∉ c :: cs) (newline : c ≠ '\n') : Scan.Reflows cs (scan c cs) (scan c (crlf cs)) := by
  have notReturn : c ≠ '\r' := (List.ne_of_not_mem_cons none).symm
  have hc : Scan.isLineEnd c = false := by simp [Scan.isLineEnd, newline, notReturn]
  generalize scanned : scan c cs = s
  unfold scan at scanned
  split at scanned
  case h_1 => exact scanned ▸ Scan.reflows_takeWhile (by decide) (by decide) cs
  case h_2 => exact scanned ▸ Scan.reflows_takeWhile (by decide) (by decide) cs
  case h_3 => exact absurd rfl newline
  case h_4 => exact absurd rfl notReturn
  case h_11 =>
    have equal : (crlf cs).head? = some '=' ↔ cs.head? = some '=' := head?_crlf rfl cs
    by_cases walrus : cs.head? = some '='
    · have scanned' : scan ':' (crlf cs) = s := (if_pos (equal.mpr walrus)).trans ((if_pos walrus).symm.trans scanned)
      obtain ⟨ds, rfl⟩ := List.head?_eq_some_iff.mp walrus
      rw [scanned', ← scanned, if_pos walrus]
      exact Scan.reflows_of_not_mem (by simp)
    · have scanned' : scan ':' (crlf cs) = .single .colon := if_neg (mt equal.mp walrus)
      rw [scanned', ← scanned, if_neg walrus]
      exact Scan.reflows_single _ cs
  case h_18 => exact scanned ▸ Scan.reflows_comment cs
  case h_19 => exact scanned ▸ Scan.reflows_quoted (List.not_mem_of_not_mem_cons none)
  case h_20 =>
    have same := NumberText.startsWithDigit_crlf cs
    split at scanned
    · next digit =>
      have scanned' : scan '-' (crlf cs) = Scan.number true (crlf cs) := if_pos (same.trans digit)
      rw [scanned', ← scanned]
      exact Scan.reflows_number hc rfl
    · next other =>
      have scanned' : scan '-' (crlf cs) = ⟨.invalid .minusAlone, 0⟩ := if_neg fun digit => other (same.symm.trans digit)
      rw [scanned', ← scanned]
      exact Scan.reflows_of_not_mem List.not_mem_nil
  case h_21 others =>
    rw [scan.eq_21 c _]
    any_goals assumption
    split at scanned
    · next digit =>
      rw [if_pos digit, ← scanned, ← crlf_cons newline]
      exact Scan.reflows_number hc rfl
    · next other =>
      rw [if_neg other]
      split at scanned
      · next name =>
        rw [if_pos name, ← scanned]
        exact Scan.reflows_takeWhile (by decide) (by decide) cs
      · next unknown =>
        rw [if_neg unknown, ← scanned]
        exact Scan.reflows_of_not_mem List.not_mem_nil
  all_goals exact scanned ▸ Scan.reflows_single _ cs

/-! ### The tokens of both texts -/

open Token (scanned ending)

/-- The same token with other line breaks, in the same place but for its offset. -/
structure Token.Reflows (t t' : Token) : Prop where
  content : t.content.Reflows t'.content
  lexeme : t'.lexeme = crlfText t.lexeme
  /-- A name has no line breaks. -/
  name : t.kind = .identifier → '\n' ∉ t.lexeme.toList
  start : t'.start = t.start
  stop : t'.stop = t.stop

theorem Token.reflows_ending (offset offset' : Nat) (p : Position) : (ending offset p).Reflows (ending offset' p) :=
  ⟨.same _, rfl, nofun, rfl, rfl⟩

theorem Token.scanned_name {offset : Nat} {p : Position} (h : (scanned offset p c cs).kind = .identifier) :
    '\n' ∉ (scanned offset p c cs).lexeme.toList := fun among => by
  have kind : (scan c cs).content.kind.isInLine = true := by
    rw [show (scan c cs).content.kind = .identifier from h]
    rfl
  rw [scanned_lexeme] at among
  exact absurd (scan_staysInLine c cs kind _ among) (by decide)

/-- The token that both texts begin with, and what is behind it. -/
theorem Token.exists_scanned_crlf (none : '\r' ∉ c :: cs) (offset offset' : Nat) (p : Position) :
    ∃ c' cs', crlf (c :: cs) = c' :: cs' ∧ (scanned offset p c cs).Reflows (scanned offset' p c' cs') ∧
      cs'.drop (scan c' cs').extra = crlf (cs.drop (scan c cs).extra) := by
  have notReturn : c ≠ '\r' := (List.ne_of_not_mem_cons none).symm
  by_cases newline : c = '\n'
  · subst newline
    refine ⟨'\r', '\n' :: crlf cs, rfl, ⟨.same _, ?_, nofun, rfl, ?_⟩, rfl⟩
    · rw [crlfText, scanned_lexeme]
      rfl
    · have once : '\r' ∉ ['\n'] := by decide
      exact Position.advance_crlf once p
  · have scans := scan_crlf none newline
    have piece : c :: (crlf cs).take (scan c (crlf cs)).extra = crlf (c :: cs.take (scan c cs).extra) := by
      rw [crlf_cons newline, scans.taken]
    have none' : '\r' ∉ c :: cs.take (scan c cs).extra := fun among => by
      rcases List.mem_cons.mp among with same | among
      · exact notReturn same.symm
      · exact none (List.mem_cons_of_mem c (List.mem_of_mem_take among))
    refine ⟨c, crlf cs, crlf_cons newline cs, ⟨scans.content, ?_, scanned_name, rfl, ?_⟩, scans.rest⟩
    · rw [crlfText, scanned_lexeme, ← piece]
      rfl
    · change p.advance (c :: (crlf cs).take _) = p.advance (c :: cs.take _)
      rw [piece, Position.advance_crlf none']

/-- The tokens of the text with carriage returns. -/
theorem Scans.exists_crlf {offset : Nat} {p : Position} {ts : List Token} (h : Scans offset p cs ts) (none : '\r' ∉ cs)
    (offset' : Nat) : ∃ ts', Scans offset' p (crlf cs) ts' ∧ List.Forall₂ Token.Reflows ts ts' := by
  induction h generalizing offset' with
  | nil offset p => exact ⟨_, .nil offset' p, .cons (Token.reflows_ending ..) .nil⟩
  | @cons offset p c cs ts _ ih =>
    have none' : '\r' ∉ cs.drop (scan c cs).extra := fun among =>
      none (List.mem_cons_of_mem c (List.mem_of_mem_drop among))
    obtain ⟨c', cs', same, token, behind⟩ := Token.exists_scanned_crlf none offset offset' p
    obtain ⟨ts', scans, tokens⟩ := ih none' (scanned offset' p c' cs').range.stop
    rw [← behind, ← token.stop] at scans
    exact ⟨_, same ▸ .cons scans, .cons token tokens⟩

/-- Both texts have the same tokens in the same places. -/
theorem tokens_reflow {text : String} (none : '\r' ∉ text.toList) :
    List.Forall₂ Token.Reflows (tokens text) (tokens (crlfText text)) := by
  obtain ⟨ts', scans, same⟩ := (tokens_scans text).exists_crlf none 0
  rw [← toList_crlfText] at scans
  rwa [(tokens_scans (crlfText text)).unique scans]

namespace TokenContent.Reflows

variable {content content' : TokenContent}

theorem kind_eq (h : content.Reflows content') : content'.kind = content.kind := by cases h <;> rfl

theorem error_isSome (h : content.Reflows content') : content'.error?.isSome = content.error?.isSome := by cases h <;> rfl

end TokenContent.Reflows

namespace Token.Reflows

variable {t t' : Token}

theorem number?_eq (h : t.Reflows t') : t'.number? = t.number? := by
  rw [number?, number?, literal?, literal?]
  generalize t.content = content, t'.content = content', h.content = read
  cases read <;> rfl

/-- The value of a text block has its line breaks in one form. -/
theorem string?_eq (h : t.Reflows t') (block : t.kind = .textBlock) : t'.string? = t.string? := by
  rw [kind] at block
  rw [string?, string?, literal?, literal?]
  generalize t.content = content, t'.content = content', h.content = read at block
  cases read with
  | same => rfl
  | string => cases block
  | invalid => cases block

end Token.Reflows

/-- Tokens that differ in their line breaks. -/
def reflowing : Layout where
  token := Token.Reflows
  respell := crlfText
  respell_injective := crlfText_injective
  respell_word := crlfText_of_not_mem
  kind_eq h := h.content.kind_eq
  lexeme_eq := Token.Reflows.lexeme
  name_eq h name := h.lexeme.trans (crlfText_of_not_mem (h.name name))
  error_isSome h := h.content.error_isSome
  begins_iff h := by rw [h.start]
  offset _ _ := True
  position := Eq
  offset_min _ _ := trivial
  offset_start _ := trivial
  position_start h := h.start.symm
  position_stop h := h.stop.symm

end SmithyIdl
