import Mathlib.Data.List.TakeWhile
import SmithyIdl.Proofs.Token.Places
import SmithyIdl.Proofs.Token.Scans

/-! # Tokens on their own

Many rules look at characters behind a token to decide where it ends. Each of these decisions comes out the same when
the text ends there instead, so the characters of a token are that token also where nothing follows them. -/

namespace SmithyIdl

open Token (scanned ending)

variable {c : Char} {cs ds : List Char} {n : Nat}

/-! ### Written numbers -/

theorem ExponentText.toList_mk (mark : Char) (sign : Option Char) (digits : List Char) :
    (ExponentText.mk mark sign digits).toList = mark :: (sign.toList ++ digits) := rfl

namespace NumberText

/-- Some digits, at least one. -/
structure AreDigits (ds : List Char) : Prop where
  some : ds ≠ []
  all : ∀ c ∈ ds, c.isDigit = true

/-- The parts of a number are such as can be written. -/
structure IsWritten (n : NumberText) : Prop where
  whole : ∀ c ∈ n.whole, c.isDigit = true
  fraction : ∀ ds ∈ n.fraction, AreDigits ds
  mark : ∀ e ∈ n.exponent, e.mark = 'e' ∨ e.mark = 'E'
  sign : ∀ e ∈ n.exponent, e.sign = none ∨ e.sign = some '+' ∨ e.sign = some '-'
  digits : ∀ e ∈ n.exponent, AreDigits e.digits

/-- The characters of a fraction, with its point. -/
def fractionChars : Option (List Char) → List Char
  | some ds => '.' :: ds
  | none => []

/-- The characters of an exponent, with its mark. -/
def exponentChars : Option ExponentText → List Char
  | some e => e.toList
  | none => []

/-- The characters of a written number behind its minus. -/
def unsigned (n : NumberText) : List Char := n.whole ++ (fractionChars n.fraction ++ exponentChars n.exponent)

theorem toList_eq (n : NumberText) : n.toList = (if n.negative then ['-'] else []) ++ n.unsigned := by
  obtain ⟨negative, whole, fraction, exponent⟩ := n
  cases fraction <;> cases exponent <;> simp [toList, unsigned, fractionChars, exponentChars]

theorem AreDigits.starts (h : AreDigits ds) (cs : List Char) : startsWithDigit (ds ++ cs) = true := by
  obtain ⟨d, ds, rfl⟩ := List.exists_cons_of_ne_nil h.some
  exact h.all d (List.mem_cons_self ..)

theorem AreDigits.takeWhile (h : AreDigits ds) : ds.takeWhile Char.isDigit = ds := List.takeWhile_eq_self_iff.mpr h.all

theorem areDigits_takeWhile (h : startsWithDigit cs = true) : AreDigits (cs.takeWhile Char.isDigit) where
  some := by
    cases cs with
    | nil => cases h
    | cons c cs =>
      have digit : c.isDigit = true := h
      simp [digit]
  all := List.all_eq_true.mp List.all_takeWhile

theorem takeWhile_digits (all : ∀ c ∈ ds, c.isDigit = true) (rest : startsWithDigit cs = false) :
    (ds ++ cs).takeWhile Char.isDigit = ds := by
  rw [List.takeWhile_append_of_pos all]
  cases cs with
  | nil => simp
  | cons c cs =>
    have other : c.isDigit = false := rest
    simp [other]

/-! What is read is such as can be written. -/

theorem exponent?_parts {e : ExponentText} (h : exponent? cs = some e) :
    (e.mark = 'e' ∨ e.mark = 'E') ∧ (e.sign = none ∨ e.sign = some '+' ∨ e.sign = some '-') ∧ AreDigits e.digits := by
  unfold exponent? at h
  split at h
  · split at h
    · next isMark =>
      split at h
      all_goals
        split at h
        · next starts =>
          cases h
          exact ⟨isMark, by simp, areDigits_takeWhile starts⟩
        · cases h
    · cases h
  · cases h

theorem fraction?_digits (h : fraction? cs = some ds) : AreDigits ds := by
  unfold fraction? at h
  split at h
  · split at h
    · next starts =>
      cases h
      exact areDigits_takeWhile starts
    · cases h
  · cases h

theorem read_isWritten (negative : Bool) (cs : List Char) : (read negative cs).IsWritten where
  whole := List.all_eq_true.mp List.all_takeWhile
  fraction _ h := fraction?_digits h
  mark _ h := (exponent?_parts h).1
  sign _ h := (exponent?_parts h).2.1
  digits _ h := (exponent?_parts h).2.2

/-! What can be written is read again, where nothing follows it. -/

theorem exponent?_toList {e : ExponentText} (mark : e.mark = 'e' ∨ e.mark = 'E')
    (sign : e.sign = none ∨ e.sign = some '+' ∨ e.sign = some '-') (digits : AreDigits e.digits) :
    exponent? e.toList = some e := by
  obtain ⟨m, s, ds⟩ := e
  dsimp only at mark sign digits
  have starts : startsWithDigit ds = true := by simpa using digits.starts []
  rw [ExponentText.toList_mk, exponent?.eq_def]
  dsimp only
  rw [if_pos mark]
  rcases sign with rfl | rfl | rfl
  · obtain ⟨d, ds, rfl⟩ := List.exists_cons_of_ne_nil digits.some
    have digit : d.isDigit = true := digits.all d (List.mem_cons_self ..)
    rw [Option.toList_none, List.nil_append]
    split
    · next same =>
      cases same
      cases digit
    · next same =>
      cases same
      cases digit
    · rw [if_pos starts, digits.takeWhile]
  · simp [starts, digits.takeWhile]
  · simp [starts, digits.takeWhile]

theorem read_unsigned {n : NumberText} (h : n.IsWritten) : read n.negative n.unsigned = n := by
  obtain ⟨negative, whole, fraction, exponent⟩ := n
  obtain ⟨allWhole, allFraction, marks, signs, allDigits⟩ := h
  dsimp only at allWhole allFraction marks signs allDigits
  have notDigit {m : Char} (mark : m = 'e' ∨ m = 'E') : m.isDigit = false := by rcases mark with rfl | rfl <;> rfl
  have behindFraction : startsWithDigit (exponentChars exponent) = false := by
    cases exponent with
    | none => rfl
    | some e => exact notDigit (marks e rfl)
  have readExponent : exponent? (exponentChars exponent) = exponent := by
    cases exponent with
    | none => rfl
    | some e => exact exponent?_toList (marks e rfl) (signs e rfl) (allDigits e rfl)
  cases fraction with
  | none =>
    have readWhole := takeWhile_digits allWhole behindFraction
    have readFraction : fraction? (exponentChars exponent) = none := by
      cases exponent with
      | none => rfl
      | some e =>
        obtain ⟨m, s, ds⟩ := e
        rcases marks _ rfl with mark | mark <;> (dsimp only at mark; subst mark; rfl)
    simp only [read, unsigned, fractionChars, List.nil_append, readWhole, List.drop_left, readFraction, readExponent]
  | some ds =>
    have digits := allFraction ds rfl
    have behindWhole : startsWithDigit ('.' :: ds ++ exponentChars exponent) = false := rfl
    have readWhole := takeWhile_digits allWhole behindWhole
    have readFraction : fraction? ('.' :: ds ++ exponentChars exponent) = some ds := by
      rw [List.cons_append, fraction?, if_pos (digits.starts _), takeWhile_digits digits.all behindFraction]
    have behind : ('.' :: ds ++ exponentChars exponent).drop (ds.length + 1) = exponentChars exponent := by simp
    simp only [read, unsigned, fractionChars, readWhole, List.drop_left, readFraction, behind, readExponent]

/-- A number is read again from its own characters. -/
theorem read_self (negative : Bool) (cs : List Char) :
    read negative (read negative cs).unsigned = read negative cs := read_unsigned (read_isWritten negative cs)

theorem take_unsigned (negative : Bool) (cs : List Char) :
    cs.take (read negative cs).unsigned.length = (read negative cs).unsigned := by
  have taken := read_isPrefix negative cs
  rw [toList_eq] at taken
  exact (List.prefix_iff_eq_take.mp ((List.prefix_append_right_inj _).mp taken)).symm

theorem starts_unsigned (negative : Bool) (h : startsWithDigit cs = true) :
    startsWithDigit (read negative cs).unsigned = true := (areDigits_takeWhile h).starts _

end NumberText

/-! ### Scanning -/

namespace Scan

theorem closingQuote?_take_self (h : closingQuote? cs = some n) : closingQuote? (cs.take n) = some n := by
  fun_induction closingQuote? cs generalizing n with
  | case1 => cases h
  | case2 cs =>
    cases h
    rfl
  | case3 c cs ih =>
    obtain ⟨m, hm, rfl⟩ := Option.map_eq_some_iff.mp h
    rw [List.take_succ_cons, List.take_succ_cons, closingQuote?, ih hm]
    rfl
  | case4 c cs notQuote notEscape ih =>
    obtain ⟨m, hm, rfl⟩ := Option.map_eq_some_iff.mp h
    rw [List.take_succ_cons, closingQuote?.eq_4 _ _ notQuote, ih hm]
    · rfl
    · intro d ds hc taken
      cases cs with
      | nil => simp at taken
      | cons e es => exact notEscape e es hc rfl

theorem closingQuotes?_take_self (h : closingQuotes? cs = some n) : closingQuotes? (cs.take n) = some n := by
  fun_induction closingQuotes? cs generalizing n with
  | case1 => cases h
  | case2 cs =>
    cases h
    rfl
  | case3 c cs ih =>
    obtain ⟨m, hm, rfl⟩ := Option.map_eq_some_iff.mp h
    rw [List.take_succ_cons, List.take_succ_cons, closingQuotes?, ih hm]
    rfl
  | case4 c cs notQuotes notEscape ih =>
    obtain ⟨m, hm, rfl⟩ := Option.map_eq_some_iff.mp h
    rw [List.take_succ_cons, closingQuotes?.eq_4, ih hm]
    · rfl
    · intro ds hc taken
      have whole := List.take_append_drop m cs
      rw [taken] at whole
      exact notQuotes _ hc whole.symm
    · intro d ds hc taken
      cases cs with
      | nil => simp at taken
      | cons e es => exact notEscape e es hc rfl

variable {s : Scan}

theorem string_alone (h : string cs = s) : string (cs.take s.extra) = s := by
  subst h
  cases closed : closingQuote? cs with
  | none => simp [string, closed]
  | some n => simp [string, closed, closingQuote?_take_self closed, List.take_take]

theorem textBlock_alone (h : textBlock cs = s) : textBlock (cs.take (s.extra - 2)) = s := by
  subst h
  cases closed : closingQuotes? cs with
  | none => simp [textBlock, closed]
  | some n => simp [textBlock, closed, closingQuotes?_take_self closed, List.take_take]

theorem quoted_of_string (h : ∀ ds, cs = '"' :: '"' :: ds → False) : quoted cs = string cs := by
  unfold quoted
  split
  · next ds => exact (h ds rfl).elim
  · rfl

theorem quoted_alone (h : quoted cs = s) : quoted (cs.take s.extra) = s := by
  unfold quoted at h
  split at h
  · next cs =>
    have alone := textBlock_alone h
    have two : ∃ n, s.extra = n + 2 := by
      rw [← h]
      unfold textBlock
      split <;> exact ⟨_, rfl⟩
    obtain ⟨n, extra⟩ := two
    rw [extra] at alone ⊢
    rwa [List.take_succ_cons, List.take_succ_cons, quoted]
  · next notBlock =>
    rw [quoted_of_string, string_alone h]
    intro ds taken
    have whole := List.take_append_drop s.extra cs
    rw [taken] at whole
    exact notBlock _ whole.symm

theorem comment_alone (h : comment cs = s) : comment (cs.take s.extra) = s := by
  unfold comment at h
  split at h
  · next cs =>
    subst h
    have slash : (cs.takeWhile (!isLineEnd ·)).head? = some '/' ↔ cs.head? = some '/' := by
      rw [List.head?_takeWhile, Option.filter_eq_some_iff]
      exact and_iff_left_of_imp fun _ => rfl
    simp [comment, Scan.take_takeWhile, List.takeWhile_idem, slash]
  · subst h
    rfl

theorem number_alone (negative : Bool) (cs : List Char) :
    number negative (cs.take (NumberText.read negative cs).unsigned.length) = number negative cs := by
  rw [NumberText.take_unsigned, number, number, NumberText.read_self]

theorem number_extra (negative : Bool) (cs : List Char) :
    (number negative cs).extra = (NumberText.read negative cs).unsigned.length - if negative then 0 else 1 := by
  cases negative <;> simp [number, NumberText.toList_eq, NumberText.read]

end Scan

/-- Where a token ends does not depend on what follows it. -/
theorem scan_alone {s : Scan} (h : scan c cs = s) : scan c (cs.take s.extra) = s := by
  unfold scan at h
  split at h
  case h_18 => exact Scan.comment_alone h
  case h_19 => exact Scan.quoted_alone h
  case h_4 =>
    subst h
    by_cases pair : cs.head? = some '\n'
    · obtain ⟨ds, rfl⟩ := List.head?_eq_some_iff.mp pair
      rfl
    · simp [scan, pair]
  case h_11 =>
    by_cases walrus : cs.head? = some '='
    · obtain ⟨ds, rfl⟩ := List.head?_eq_some_iff.mp walrus
      subst h
      rfl
    · rw [if_neg walrus] at h
      subst h
      rfl
  case h_20 =>
    split at h
    · next starts =>
      subst h
      rw [Scan.number_extra, if_pos rfl, Nat.sub_zero, scan, if_pos, Scan.number_alone]
      rw [NumberText.take_unsigned]
      exact NumberText.starts_unsigned true starts
    · subst h
      rfl
  case h_21 others =>
    rw [scan.eq_21 c _]
    any_goals assumption
    split at h
    · next digit =>
      obtain ⟨n, length⟩ : ∃ n, (NumberText.read false (c :: cs)).unsigned.length = n + 1 := by
        have starts : NumberText.startsWithDigit (NumberText.read false (c :: cs)).unsigned = true :=
          NumberText.starts_unsigned false digit
        cases shape : (NumberText.read false (c :: cs)).unsigned with
        | nil =>
          rw [shape] at starts
          cases starts
        | cons d ds => exact ⟨ds.length, rfl⟩
      have alone := Scan.number_alone false (c :: cs)
      rw [length, List.take_succ_cons] at alone
      subst h
      rwa [if_pos digit, Scan.number_extra, length]
    · next other =>
      rw [if_neg other]
      split at h
      · subst h
        simp [Scan.take_takeWhile, List.takeWhile_idem, *]
      · subst h
        simp [*]
  all_goals subst h
  all_goals first | rfl | simp [scan, Scan.take_takeWhile, List.takeWhile_idem]

/-- The characters of a scan are cut into that token and the end token. -/
theorem tokens_of_scan (c : Char) (cs : List Char) (piece : String) (h : piece.toList = c :: cs.take (scan c cs).extra) :
    tokens piece = [scanned 0 .first c (cs.take (scan c cs).extra),
      ending (scanned 0 .first c (cs.take (scan c cs).extra)).range.stop
        (scanned 0 .first c (cs.take (scan c cs).extra)).stop] := by
  refine (tokens_scans piece).unique ?_
  rw [h]
  refine .cons ?_
  have nothing : (cs.take (scan c cs).extra).drop (scan c (cs.take (scan c cs).extra)).extra = [] := by
    simp [scan_alone (rfl : scan c cs = _)]
  rw [nothing]
  exact .nil ..

/-- Every token of a text but the end token is the same token where its characters are the whole text: it has the same
    kind, the same value and the same error there, takes up the whole text, and the end token follows it. -/
theorem tokens_alone (text : String) (t : Token) (among : t ∈ tokens text) (other : t.kind ≠ .eof) :
    ∃ alone stop, tokens t.lexeme = [alone, stop] ∧
      alone.kind = t.kind ∧ alone.literal? = t.literal? ∧ alone.error? = t.error? ∧ alone.lexeme = t.lexeme ∧
      alone.range = ⟨0, byteLength t.lexeme.toList⟩ ∧ stop.kind = .eof := by
  obtain ⟨offset, p, c, cs, rfl⟩ := (tokens_scans text).exists_scanned among other
  have same : scan c (cs.take (scan c cs).extra) = scan c cs := scan_alone rfl
  have content : (scanned 0 .first c (cs.take (scan c cs).extra)).content = (scanned offset p c cs).content := by
    simp only [scanned, same]
  have piece : c :: (cs.take (scan c cs).extra).take (scan c (cs.take (scan c cs).extra)).extra =
      c :: cs.take (scan c cs).extra := by
    rw [same, List.take_take, Nat.min_self]
  refine ⟨_, _, tokens_of_scan c cs _ Token.scanned_lexeme, congrArg TokenContent.kind content,
    congrArg TokenContent.literal? content, congrArg TokenContent.error? content, ?_, ?_, rfl⟩
  · simp only [scanned, piece]
  · simp only [scanned, piece, String.toList_ofList, Nat.zero_add]

/-- The exponent is none, since it has no digits: the number stops in front of it. -/
theorem tokens_alone_number : ∃ t ∈ tokens "1e+", t.kind = .number ∧ ∃ alone stop, tokens t.lexeme = [alone, stop] ∧
    alone.kind = t.kind ∧ alone.literal? = t.literal? ∧ alone.error? = t.error? ∧ alone.lexeme = t.lexeme ∧
    alone.range = ⟨0, byteLength t.lexeme.toList⟩ ∧ stop.kind = .eof := by
  have all : tokens "1e+" = [scanned 0 .first '1' ['e', '+'], scanned 1 ⟨1, 2⟩ 'e' ['+'], scanned 2 ⟨1, 3⟩ '+' [],
      ending 3 ⟨1, 4⟩] := (tokens_scans _).unique (.cons (.cons (.cons (.nil ..))))
  have among : scanned 0 .first '1' ['e', '+'] ∈ tokens "1e+" := by simp [all]
  exact ⟨_, among, rfl, tokens_alone _ _ among (by decide)⟩

end SmithyIdl
