import SmithyIdl.Proofs.Number.Numeral
import SmithyIdl.Proofs.Text.Position
import SmithyIdl.Proofs.Token.Scans

/-! # Number tokens

A number token stands wherever a digit comes, or a minus with a digit behind it, and nowhere else. It takes the longest
numeral there and has its value. -/

namespace SmithyIdl

open NumberText (startsWithDigit)
open Token (scanned ending)

variable {offset : Nat} {p : Position} {c : Char} {cs ds : List Char} {t : Token} {ts : List Token}

/-- `-?D`, with anything behind it. -/
inductive StartsNumber : List Char → Prop where
  | digit {c : Char} {cs : List Char} (digit : c.isDigit = true) : StartsNumber (c :: cs)
  | minus {c : Char} {cs : List Char} (digit : c.isDigit = true) : StartsNumber ('-' :: c :: cs)

/-- What a token says of the characters that come where it starts. -/
structure Token.ReadsNumber (t : Token) (cs : List Char) : Prop where
  starts : t.kind = .number ↔ StartsNumber cs
  longest : t.kind = .number → IsLongest IsNumeral t.lexeme.toList cs
  int : t.kind = .number → ∀ v, t.literal? = some (.number (.int v)) ↔
    IsInteger t.lexeme.toList v ∧ -2 ^ 63 ≤ v ∧ v ≤ 2 ^ 63 - 1
  float : t.kind = .number → (¬∃ v, IsInteger t.lexeme.toList v ∧ -2 ^ 63 ≤ v ∧ v ≤ 2 ^ 63 - 1) →
    ∃ x, t.literal? = some (.number (.float x))

/-! ### Scanning -/

/-- A number is scanned from its minus or its first digit on. -/
theorem scan_number (starts : StartsNumber (c :: cs)) : ∃ negative ds, startsWithDigit ds = true ∧
    c :: cs = (if negative then ['-'] else []) ++ ds ∧ scan c cs = Scan.number negative ds := by
  cases starts with
  | digit digit =>
    have starts : startsWithDigit (c :: cs) = true := digit
    refine ⟨false, c :: cs, starts, rfl, ?_⟩
    rw [scan.eq_21, if_pos digit]
    all_goals
      rintro rfl
      cases digit
  | @minus d ds digit =>
    have starts : startsWithDigit (d :: ds) = true := digit
    exact ⟨true, d :: ds, starts, rfl, if_pos starts⟩

/-- Nothing else is scanned as a number. -/
theorem startsNumber_of_scan (h : (scan c cs).content.kind = .number) : StartsNumber (c :: cs) := by
  unfold scan at h
  split at h
  case h_11 => split at h <;> cases h
  case h_18 => rcases Scan.comment_kind cs with kind | kind | kind <;> cases h.symm.trans kind
  case h_19 => rcases Scan.quoted_kind cs with kind | kind | kind <;> cases h.symm.trans kind
  case h_20 =>
    split at h
    · next starts =>
      cases cs with
      | nil => cases starts
      | cons d ds => exact .minus starts
    · cases h
  case h_21 =>
    split at h
    · next digit => exact .digit digit
    · split at h <;> cases h
  all_goals cases h

/-- The characters of a scanned number are those that were read. -/
theorem scanned_number_lexeme {negative : Bool} (starts : startsWithDigit ds = true)
    (comes : c :: cs = (if negative then ['-'] else []) ++ ds) (number : scan c cs = Scan.number negative ds) :
    (scanned offset p c cs).lexeme.toList = (NumberText.read negative ds).toList := by
  have taken := List.prefix_iff_eq_take.mp (NumberText.read_isPrefix negative ds)
  obtain ⟨n, length⟩ : ∃ n, (NumberText.read negative ds).toList.length = n + 1 := by
    refine Nat.exists_eq_succ_of_ne_zero fun zero => (NumberText.areDigits_takeWhile starts).some ?_
    rw [NumberText.toList_eq, NumberText.unsigned, List.length_append, List.length_append] at zero
    exact List.length_eq_zero_iff.mp (Nat.eq_zero_of_add_eq_zero (Nat.eq_zero_of_add_eq_zero zero).2).1
  rw [← comes, length, List.take_succ_cons] at taken
  rw [Token.scanned_lexeme, number, taken, Scan.number, length]
  rfl

/-! ### The tokens of a text -/

/-- Each token is scanned where it starts. -/
theorem Scans.exists_place (h : Scans offset p cs ts) (among : t ∈ ts) : ∃ front ds q us, cs = front ++ ds ∧
    t.range.start = offset + byteLength front ∧ Scans t.range.start q ds (t :: us) := by
  induction h with
  | nil offset p =>
    obtain rfl := List.mem_singleton.mp among
    exact ⟨[], [], p, [], rfl, rfl, .nil offset p⟩
  | @cons offset p c cs ts rest ih =>
    rcases List.mem_cons.mp among with rfl | among
    · exact ⟨[], c :: cs, p, ts, rfl, rfl, .cons rest⟩
    · obtain ⟨front, ds, q, us, split, start, scans⟩ := ih among
      refine ⟨c :: cs.take (scan c cs).extra ++ front, ds, q, us, ?_, ?_, scans⟩
      · rw [List.cons_append, List.cons_append, List.append_assoc, ← split, List.take_append_drop]
      · rw [start, byteLength_append, ← Nat.add_assoc]
        rfl

theorem scanned_readsNumber : (scanned offset p c cs).ReadsNumber (c :: cs) := by
  have kind : (scanned offset p c cs).kind = .number ↔ StartsNumber (c :: cs) := by
    refine ⟨startsNumber_of_scan, fun starts => ?_⟩
    obtain ⟨negative, ds, -, -, number⟩ := scan_number starts
    exact congrArg (·.content.kind) number
  have value (starts : StartsNumber (c :: cs)) : ∃ n : NumberText, n.IsWritten ∧ n.whole ≠ [] ∧
      (scanned offset p c cs).lexeme.toList = n.toList ∧ (scanned offset p c cs).literal? = some (.number n.value) := by
    obtain ⟨negative, ds, starts, comes, number⟩ := scan_number starts
    exact ⟨_, NumberText.read_isWritten negative ds, (NumberText.areDigits_takeWhile starts).some,
      scanned_number_lexeme starts comes number, congrArg (·.content.literal?) number⟩
  refine ⟨kind, fun isNumber => ?_, fun isNumber v => ?_, fun isNumber other => ?_⟩
  · obtain ⟨negative, ds, starts, comes, number⟩ := scan_number (kind.mp isNumber)
    rw [scanned_number_lexeme starts comes number, comes]
    exact NumberText.read_isLongest negative starts
  · obtain ⟨n, written, some, lexeme, literal⟩ := value (kind.mp isNumber)
    rw [lexeme, literal, ← NumberText.value_eq_int_iff written some]
    simp
  · obtain ⟨n, written, some, lexeme, literal⟩ := value (kind.mp isNumber)
    rw [lexeme] at other
    obtain ⟨x, float⟩ := NumberText.exists_float fun v same =>
      other ⟨v, (NumberText.value_eq_int_iff written some).mp same⟩
    exact ⟨x, by rw [literal, float]⟩

theorem ending_readsNumber : (ending offset p).ReadsNumber [] :=
  ⟨⟨nofun, nofun⟩, nofun, nofun, nofun⟩

/-- A token of a text is a number exactly where a digit comes, or a minus with a digit behind it. It takes the longest
    numeral that comes there. Its value is an integer if the numeral has neither fraction nor exponent and what it
    spells fits into 64 bits, and a floating-point number otherwise. -/
theorem tokens_readNumbers (text : String) (t : Token) (among : t ∈ tokens text) :
    ∃ cs, Literal.dropBytes? t.range.start text.toList = some cs ∧ t.ReadsNumber cs := by
  obtain ⟨front, cs, p, us, split, start, scans⟩ := (tokens_scans text).exists_place among
  refine ⟨cs, ?_, ?_⟩
  · rw [start, Nat.zero_add, split, Literal.dropBytes?_byteLength]
  · generalize t.range.start = offset at scans
    cases scans with
    | nil => exact ending_readsNumber
    | cons => exact scanned_readsNumber

/-- The second point has a digit behind it, but a numeral has only one. -/
theorem tokens_readNumbers_twice : ∃ t ∈ tokens "1.5.2", t.lexeme = "1.5" ∧
    ∃ cs, Literal.dropBytes? t.range.start "1.5.2".toList = some cs ∧ t.ReadsNumber cs := by
  have all : tokens "1.5.2" = [scanned 0 .first '1' ['.', '5', '.', '2'], scanned 3 ⟨1, 4⟩ '.' ['2'],
      scanned 4 ⟨1, 5⟩ '2' [], ending 5 ⟨1, 6⟩] := (tokens_scans _).unique (.cons (.cons (.cons (.nil ..))))
  have among : scanned 0 .first '1' ['.', '5', '.', '2'] ∈ tokens "1.5.2" := by simp [all]
  exact ⟨_, among, rfl, tokens_readNumbers _ _ among⟩

end SmithyIdl
