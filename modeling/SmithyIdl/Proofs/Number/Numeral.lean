import Mathlib.Data.Nat.Digits.Defs
import SmithyIdl.Proofs.Token.Alone

/-! # Numerals

The written numbers as a language of its own, and the integers among them. The number that is read at some place is the
longest numeral there, and its value is an integer where the numeral is one and fits into 64 bits. -/

namespace SmithyIdl

open NumberText (AreDigits)

variable {cs ds w : List Char} {v : Int}

/-- `(.D+)?` -/
inductive IsFraction : List Char → Prop where
  | none : IsFraction []
  | some {ds : List Char} (digits : AreDigits ds) : IsFraction ('.' :: ds)

/-- `([eE][+-]?D+)?` -/
inductive IsExponent : List Char → Prop where
  | none : IsExponent []
  | some {mark : Char} {sign : Option Char} {ds : List Char} (isMark : mark = 'e' ∨ mark = 'E')
      (isSign : sign = Option.none ∨ sign = Option.some '+' ∨ sign = Option.some '-') (digits : AreDigits ds) :
      IsExponent (mark :: (sign.toList ++ ds))

/-- `-?D+(.D+)?([eE][+-]?D+)?` -/
inductive IsNumeral : List Char → Prop where
  | mk {minus whole fraction exponent : List Char} (sign : minus = [] ∨ minus = ['-']) (digits : AreDigits whole)
      (point : IsFraction fraction) (power : IsExponent exponent) :
      IsNumeral (minus ++ (whole ++ (fraction ++ exponent)))

/-- The number that decimal digits spell, the digit of the highest place first. -/
def decimalValue (ds : List Char) : Nat := Nat.ofDigits 10 (ds.reverse.map digitValue)

/-- `-?D+`, with the integer that it spells. -/
inductive IsInteger : List Char → Int → Prop where
  | natural {ds : List Char} (digits : AreDigits ds) : IsInteger ds (decimalValue ds)
  | negative {ds : List Char} (digits : AreDigits ds) : IsInteger ('-' :: ds) (-decimalValue ds)

/-- No longer prefix of a text is in the class. -/
structure IsLongest (P : List Char → Prop) (w cs : List Char) : Prop where
  isPrefix : w <+: cs
  holds : P w
  longest : ∀ u, u <+: cs → P u → u.length ≤ w.length

theorem digitsValue_eq (ds : List Char) : digitsValue ds = decimalValue ds := by
  rw [decimalValue, Nat.ofDigits_eq_foldr, List.foldr_map, List.foldr_reverse, digitsValue]
  exact congrArg (List.foldl · 0 ds) (funext₂ fun n c => Nat.add_comm ..)

namespace NumberText

variable {n n' : NumberText} {fraction exponent tail : List Char}

/-! ### What is read is a numeral -/

theorem isFraction_chars {o : Option (List Char)} (digits : ∀ ds ∈ o, AreDigits ds) : IsFraction (fractionChars o) := by
  cases o with
  | none => exact .none
  | some ds => exact .some (digits ds rfl)

theorem IsWritten.isExponent (h : n.IsWritten) : IsExponent (exponentChars n.exponent) := by
  obtain ⟨negative, whole, fraction, exponent⟩ := n
  cases exponent with
  | none => exact .none
  | some e => exact .some (h.mark e rfl) (h.sign e rfl) (h.digits e rfl)

theorem IsWritten.isNumeral (h : n.IsWritten) (some : n.whole ≠ []) : IsNumeral n.toList := by
  rw [toList_eq, unsigned]
  refine .mk ?_ ⟨some, h.whole⟩ (isFraction_chars h.fraction) h.isExponent
  cases n.negative <;> simp

/-! ### No longer numeral comes -/

theorem AreDigits.length_le (h : AreDigits ds) (tail : List Char) :
    ds.length ≤ ((ds ++ tail).takeWhile Char.isDigit).length := by
  rw [List.takeWhile_append_of_pos h.all, List.length_append]
  exact Nat.le_add_right ..

theorem exponent?_append {mark : Char} {sign : Option Char} (isMark : mark = 'e' ∨ mark = 'E')
    (isSign : sign = none ∨ sign = some '+' ∨ sign = some '-') (digits : AreDigits ds) (tail : List Char) :
    exponent? (mark :: (sign.toList ++ (ds ++ tail))) = some ⟨mark, sign, (ds ++ tail).takeWhile Char.isDigit⟩ := by
  have starts := digits.starts tail
  rw [exponent?.eq_def]
  dsimp only
  rw [if_pos isMark]
  rcases isSign with rfl | rfl | rfl
  · obtain ⟨d, ds, rfl⟩ := List.exists_cons_of_ne_nil digits.some
    have digit : d.isDigit = true := digits.all d List.mem_cons_self
    rw [Option.toList_none, List.nil_append]
    split
    · next same =>
      cases same
      cases digit
    · next same =>
      cases same
      cases digit
    · rw [if_pos starts]
  · exact if_pos starts
  · exact if_pos starts

theorem exponent_length_le (h : IsExponent exponent) (tail : List Char) :
    exponent.length ≤ (exponentChars (exponent? (exponent ++ tail))).length := by
  cases h with
  | none => exact Nat.zero_le _
  | some isMark isSign digits =>
    have le := digits.length_le tail
    rw [List.cons_append, List.append_assoc, exponent?_append isMark isSign digits, exponentChars,
      ExponentText.toList_mk]
    simpa using le

theorem not_isDigit_of_mark {mark : Char} (isMark : mark = 'e' ∨ mark = 'E') : mark.isDigit = false := by
  rcases isMark with rfl | rfl <;> rfl

/-- Where digits end, neither a fraction nor an exponent starts with one. -/
theorem starts_parts (point : IsFraction fraction) (power : IsExponent exponent) :
    fraction ++ exponent = [] ∨ ∀ tail, startsWithDigit (fraction ++ (exponent ++ tail)) = false := by
  cases point with
  | some digits => exact .inr fun _ => rfl
  | none =>
    cases power with
    | none => exact .inl rfl
    | some isMark _ _ => exact .inr fun _ => not_isDigit_of_mark isMark

/-- What is read where a fraction and an exponent come is no shorter than they are. -/
theorem parts_length_le (point : IsFraction fraction) (power : IsExponent exponent) {rest : List Char}
    (comes : rest = fraction ++ (exponent ++ tail)) :
    (fraction ++ exponent).length ≤ (fractionChars (fraction? rest) ++ exponentChars (exponent? (match fraction? rest with
      | some ds => rest.drop (ds.length + 1)
      | none => rest))).length := by
  rw [List.length_append, List.length_append]
  cases point with
  | none =>
    cases power with
    | none => exact Nat.zero_le _
    | @some mark sign ds isMark isSign digits =>
      have noFraction : fraction? rest = none := by
        rw [comes]
        rcases isMark with rfl | rfl <;> rfl
      rw [noFraction, comes]
      simpa [fractionChars] using exponent_length_le (.some isMark isSign digits) tail
  | @some fs digits =>
    have found : fraction? rest = some ((fs ++ (exponent ++ tail)).takeWhile Char.isDigit) := by
      rw [comes, List.cons_append, fraction?, if_pos (digits.starts _)]
    cases power with
    | none =>
      have le := digits.length_le ([] ++ tail)
      rw [found, fractionChars]
      simp only [List.length_cons, List.length_nil]
      omega
    | @some mark sign ds isMark isSign powers =>
      have power := exponent_length_le (.some isMark isSign powers) tail
      have stops : startsWithDigit (mark :: (sign.toList ++ ds) ++ tail) = false := not_isDigit_of_mark isMark
      have behind : rest.drop (fs.length + 1) = mark :: (sign.toList ++ ds) ++ tail := by
        rw [comes, List.cons_append, List.drop_succ_cons, List.drop_left]
      rw [takeWhile_digits digits.all stops] at found
      simp only [found, behind]
      exact Nat.add_le_add_left power _

/-- What is read where a numeral without its minus comes is no shorter than that is. -/
theorem unsigned_length_le {whole : List Char} (digits : AreDigits whole) (point : IsFraction fraction)
    (power : IsExponent exponent) (negative : Bool) (comes : cs = whole ++ (fraction ++ (exponent ++ tail))) :
    (whole ++ (fraction ++ exponent)).length ≤ (read negative cs).unsigned.length := by
  rw [List.length_append, unsigned]
  refine Nat.le_trans ?_ (Nat.le_of_eq List.length_append.symm)
  rcases starts_parts point power with none | other
  · have le := digits.length_le (fraction ++ (exponent ++ tail))
    rw [← comes] at le
    rw [none]
    exact Nat.le_trans le (Nat.le_add_right ..)
  · have readWhole := takeWhile_digits digits.all (other tail)
    rw [← comes] at readWhole
    have behind : cs.drop whole.length = fraction ++ (exponent ++ tail) := by rw [comes, List.drop_left]
    have parts := parts_length_le point power behind
    simp only [read, readWhole]
    exact Nat.add_le_add_left parts _

theorem ne_minus_of_starts (starts : startsWithDigit ds = true) (cs : List Char) : ds ≠ '-' :: cs := by
  rintro rfl
  cases starts

/-- Where digits come, or a minus with digits behind it, the number that is read is the longest numeral. -/
theorem read_isLongest (negative : Bool) (starts : startsWithDigit ds = true) :
    IsLongest IsNumeral (read negative ds).toList ((if negative then ['-'] else []) ++ ds) where
  isPrefix := read_isPrefix negative ds
  holds := (read_isWritten negative ds).isNumeral (areDigits_takeWhile starts).some
  longest := by
    rintro _ ⟨tail, comes⟩ (@⟨minus, whole, fraction, exponent, sign, digits, point, power⟩)
    have le (same : ds = whole ++ (fraction ++ (exponent ++ tail))) := unsigned_length_le digits point power negative same
    have starts' : startsWithDigit (whole ++ (fraction ++ (exponent ++ tail))) = true := digits.starts _
    simp only [List.append_assoc] at comes
    rw [toList_eq]
    rcases sign with rfl | rfl <;> cases negative
    · exact le comes.symm
    · exact absurd comes (ne_minus_of_starts starts' ds)
    · exact absurd comes.symm (ne_minus_of_starts starts _)
    · exact Nat.succ_le_succ (le (List.cons.inj comes).2.symm)

/-! ### Values -/

/-- What is written tells what was written. -/
theorem eq_of_toList_eq (h : n.IsWritten) (some : n.whole ≠ []) (h' : n'.IsWritten) (some' : n'.whole ≠ [])
    (same : n.toList = n'.toList) : n = n' := by
  have starts : startsWithDigit n.unsigned = true := AreDigits.starts ⟨some, h.whole⟩ _
  have starts' : startsWithDigit n'.unsigned = true := AreDigits.starts ⟨some', h'.whole⟩ _
  rw [toList_eq, toList_eq] at same
  have both : n.negative = n'.negative ∧ n.unsigned = n'.unsigned := by
    cases first : n.negative <;> cases second : n'.negative <;> rw [first, second] at same
    · exact ⟨rfl, same⟩
    · exact absurd same (ne_minus_of_starts starts _)
    · exact absurd same.symm (ne_minus_of_starts starts' _)
    · exact ⟨rfl, (List.cons.inj same).2⟩
  rw [← read_unsigned h, ← read_unsigned h', both.1, both.2]

theorem isWritten_whole (negative : Bool) (digits : AreDigits ds) : (NumberText.mk negative ds none none).IsWritten :=
  ⟨digits.all, nofun, nofun, nofun, nofun⟩

theorem fitsInt64_iff : fitsInt64 v = true ↔ -2 ^ 63 ≤ v ∧ v ≤ 2 ^ 63 - 1 := by
  rw [fitsInt64, Bool.and_eq_true, decide_eq_true_eq, decide_eq_true_eq]
  omega

/-- The value is an integer where one is written, without a fraction or an exponent, that fits into 64 bits. -/
theorem value_eq_int_iff (h : n.IsWritten) (some : n.whole ≠ []) :
    n.value = .int v ↔ IsInteger n.toList v ∧ -2 ^ 63 ≤ v ∧ v ≤ 2 ^ 63 - 1 := by
  constructor
  · intro read
    obtain ⟨negative, ds, fraction, exponent⟩ := n
    have digits : AreDigits ds := ⟨some, h.whole⟩
    have isInt : fraction = none ∧ exponent = none ∧ fitsInt64 (if negative then -digitsValue ds else digitsValue ds) := by
      by_contra other
      simp [value, other] at read
    obtain ⟨rfl, rfl, fits⟩ := isInt
    simp only [value, fits, and_self, if_true] at read
    obtain rfl := Number.int.inj read
    refine ⟨?_, fitsInt64_iff.mp fits⟩
    cases negative
    · simpa [toList, digitsValue_eq] using IsInteger.natural digits
    · simpa [toList, digitsValue_eq] using IsInteger.negative digits
  · rintro ⟨integer, fits⟩
    rw [← fitsInt64_iff] at fits
    generalize written : n.toList = w at integer
    cases integer with
    | @natural ds digits =>
      obtain rfl := eq_of_toList_eq h some (isWritten_whole false digits) digits.some (by simpa [toList] using written)
      simp [value, digitsValue_eq, fits]
    | @negative ds digits =>
      obtain rfl := eq_of_toList_eq h some (isWritten_whole true digits) digits.some (by simpa [toList] using written)
      simp [value, digitsValue_eq, fits]

/-- Every other value is a floating-point number. -/
theorem exists_float (other : ∀ v, n.value ≠ .int v) : ∃ x, n.value = .float x := by
  cases read : n.value with
  | int v => exact absurd read (other v)
  | float x => exact ⟨x, rfl⟩

end NumberText

end SmithyIdl
