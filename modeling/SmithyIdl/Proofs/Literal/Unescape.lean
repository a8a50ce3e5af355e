import SmithyIdl.Literal.Unescape

/-! # Decoded strings

The contents of a string are a sequence of pieces: characters that mean themselves, and escapes. `unescape` reads
such a sequence piece by piece, and refuses everything that is none. -/

namespace SmithyIdl.Literal

variable {c d : Char} {cs rest raw s : List Char} {n v : Nat}

/-! ### Single steps -/

/-- The character of two surrogates, each with its own escape. -/
def ofPair (high low : Nat) : Except LexError (Char × Nat) := do
  if isLowSurrogate low then return (← charOf (0x10000 + (high - 0xD800) * 1024 + (low - 0xDC00)), 10)
  else throw (.badLowSurrogate low)

theorem ofPair_taken {high low : Nat} (h : ofPair high low = .ok (c, n)) : n = 10 := by
  rw [ofPair] at h
  split at h
  · generalize charOf _ = read at h
    cases read <;> cases h
    rfl
  · cases h

theorem codePoint_of_error {cause : LexError} (first : hex4 cs = .error cause) : codePoint cs = .error cause := by
  rw [codePoint, first]
  rfl

section
variable {high : Nat} (first : hex4 cs = .ok high)
include first

theorem codePoint_of_single (single : isHighSurrogate high = false) : codePoint cs = (charOf high).map (·, 4) := by
  rw [codePoint, first]
  change (if isHighSurrogate high = true then _ else _) = _
  rw [single]
  rfl

theorem codePoint_of_lonely (pair : isHighSurrogate high = true)
    (behind : ∀ rest, cs.drop 4 = '\\' :: 'u' :: rest → False) : codePoint cs = .error .lonelySurrogate := by
  rw [codePoint, first]
  change (if isHighSurrogate high = true then _ else _) = _
  rw [if_pos pair]
  split
  · next rest same => exact (behind rest same).elim
  · rfl

theorem codePoint_of_pair (pair : isHighSurrogate high = true)
    (behind : cs.drop 4 = '\\' :: 'u' :: rest) : codePoint cs = hex4 rest >>= ofPair high := by
  rw [codePoint, first]
  change (if isHighSurrogate high = true then _ else _) = _
  rw [if_pos pair, behind]
  split
  · next rest' same =>
    obtain rfl : rest = rest' := (List.cons.inj (List.cons.inj same).2).2
    rfl
  · next other => exact (other rest rfl).elim

end

theorem unescape_cons (ne : c ≠ '\\') (cs : List Char) : unescape (c :: cs) = (unescape cs).map (c :: ·) :=
  unescape.eq_8 c cs (fun same => absurd same ne) (fun _ same => absurd same ne) (fun _ same => absurd same ne)
    (fun _ same => absurd same ne) (fun _ same => absurd same ne) (fun _ _ same => absurd same ne)

/-- Contents without a backslash mean themselves. -/
theorem unescape_of_not_mem (plain : '\\' ∉ cs) : unescape cs = .ok cs := by
  induction cs with
  | nil => exact unescape.eq_1
  | cons c cs ih =>
    simp only [List.mem_cons, not_or] at plain
    rw [unescape_cons (Ne.symm plain.1), ih plain.2]
    rfl

theorem unescape_simple (found : simpleEscape? c = some d) (cs : List Char) :
    unescape ('\\' :: c :: cs) = (unescape cs).map (d :: ·) := by
  have ne {e : Char} (unknown : simpleEscape? e = none) : c ≠ e := by
    rintro rfl
    rw [unknown] at found
    cases found
  rw [unescape.eq_7 c cs (ne rfl) (ne rfl) (fun _ same => (ne rfl same).elim) (ne rfl), found]

theorem unescape_code (read : codePoint cs = .ok (c, n)) :
    unescape ('\\' :: 'u' :: cs) = (unescape (cs.drop n)).map (c :: ·) := by
  rw [unescape, read]

/-! ### Hexadecimal numbers -/

/-- The digits of hexadecimal numbers, of either case, with their values. -/
def hexDigits : List (Char × Nat) :=
  ['0', '1', '2', '3', '4', '5', '6', '7', '8', '9', 'a', 'b', 'c', 'd', 'e', 'f'].zipIdx ++
    ['A', 'B', 'C', 'D', 'E', 'F'].zipIdx 10

/-- A hexadecimal digit with its value. -/
structure HexDigit where
  char : Char
  value : Nat
  listed : (char, value) ∈ hexDigits

/-- Four hexadecimal digits. -/
structure HexCode where
  a : HexDigit
  b : HexDigit
  c : HexDigit
  d : HexDigit

namespace HexCode

/-- The characters of the four digits. -/
def chars (h : HexCode) : List Char := [h.a.char, h.b.char, h.c.char, h.d.char]

/-- The code that the four digits spell. -/
def value (h : HexCode) : Nat := 16 * (16 * (16 * h.a.value + h.b.value) + h.c.value) + h.d.value

end HexCode

theorem HexDigit.value_le (digit : HexDigit) : digit.value ≤ 15 := by
  have all : ∀ e ∈ hexDigits, e.2 ≤ 15 := by decide
  exact all _ digit.listed

theorem HexDigit.char_spec (digit : HexDigit) : isHexDigit digit.char = true ∧ hexValue digit.char = digit.value := by
  have all : ∀ e ∈ hexDigits, isHexDigit e.1 = true ∧ hexValue e.1 = e.2 := by decide
  exact all _ digit.listed

theorem HexCode.value_lt (h : HexCode) : h.value < 0x10000 := by
  have := h.a.value_le
  have := h.b.value_le
  have := h.c.value_le
  have := h.d.value_le
  rw [value]
  omega

/-- Every hexadecimal digit is listed. -/
theorem mem_hexDigits (digit : isHexDigit c = true) : (c, hexValue c) ∈ hexDigits := by
  have ascii : c.toNat < 128 := by
    simp only [isHexDigit, Char.isDigit, Bool.or_eq_true, Bool.and_eq_true, decide_eq_true_eq, Char.le_def,
      UInt32.le_iff_toNat_le, ge_iff_le] at digit
    change c.val.toNat < 128
    rcases digit with (⟨-, le⟩ | ⟨-, le⟩) | ⟨-, le⟩
    · exact Nat.lt_of_le_of_lt le (by decide)
    · exact Nat.lt_of_le_of_lt le (by decide)
    · exact Nat.lt_of_le_of_lt le (by decide)
  have all : ∀ n < 128, isHexDigit (Char.ofNat n) = true → (Char.ofNat n, hexValue (Char.ofNat n)) ∈ hexDigits := by
    decide +kernel
  have here := all c.toNat ascii
  rw [Char.ofNat_toNat] at here
  exact here digit

theorem hex4_eq_ok : hex4 cs = .ok v ↔ ∃ (h : HexCode) (rest : List Char), cs = h.chars ++ rest ∧ h.value = v := by
  constructor
  · intro read
    rw [hex4] at read
    split at read
    · next digits =>
      cases read
      obtain ⟨four, digits⟩ := digits
      match cs, four with
      | a :: b :: c :: d :: rest, _ =>
        simp only [List.take_succ_cons, List.take_zero, List.all_cons, List.all_nil, Bool.and_true,
          Bool.and_eq_true] at digits
        obtain ⟨ha, hb, hc, hd⟩ := digits
        refine ⟨⟨⟨a, _, mem_hexDigits ha⟩, ⟨b, _, mem_hexDigits hb⟩, ⟨c, _, mem_hexDigits hc⟩,
          ⟨d, _, mem_hexDigits hd⟩⟩, rest, rfl, ?_⟩
        simp [HexCode.value]
    · cases read
  · rintro ⟨h, rest, rfl, rfl⟩
    have taken : (h.chars ++ rest).take 4 = h.chars := rfl
    rw [hex4, taken, if_pos]
    · simp [HexCode.chars, HexCode.value, h.a.char_spec, h.b.char_spec, h.c.char_spec, h.d.char_spec]
    · simp [HexCode.chars, h.a.char_spec, h.b.char_spec, h.c.char_spec, h.d.char_spec]

/-! ### Pieces -/

/-- The characters that stand for one character behind a backslash, each with that character. -/
def simpleEscapes : List (Char × Char) :=
  [('"', '"'), ('\'', '\''), ('\\', '\\'), ('/', '/'), ('b', '\x08'), ('f', '\x0c'), ('n', '\n'), ('r', '\r'),
    ('t', '\t')]

/-- The first of two surrogates. Such a pair stands for one character of a higher code
    point. -/
def IsHigh (code : Nat) : Prop := 0xD800 ≤ code ∧ code < 0xDC00

/-- The second of two surrogates. -/
def IsLow (code : Nat) : Prop := 0xDC00 ≤ code ∧ code < 0xE000

/-- The code point that two surrogates stand for. -/
def combined (high low : Nat) : Nat := 0x10000 + (high - 0xD800) * 0x400 + (low - 0xDC00)

/-- A piece of the contents of a string. -/
inductive Piece where
  /-- A character that means itself. -/
  | plain (c : Char) (unescaped : c ≠ '\\')
  /-- A backslash before a character that stands for a character. -/
  | simple (escape : Char × Char) (listed : escape ∈ simpleEscapes)
  /-- The code point of a character. -/
  | code (h : HexCode) (proper : ¬IsHigh h.value ∧ ¬IsLow h.value)
  /-- The code points of two surrogates. -/
  | pair (high low : HexCode) (isHigh : IsHigh high.value) (isLow : IsLow low.value)
  /-- A backslash before a line break, which continues the line. -/
  | lineBreak (chars : List Char) (listed : chars ∈ [['\n'], ['\r', '\n'], ['\r']])

theorem isValidChar_of_proper {h : HexCode} (proper : ¬IsHigh h.value ∧ ¬IsLow h.value) : h.value.isValidChar := by
  have := h.value_lt
  simp only [IsHigh, IsLow] at proper
  simp only [Nat.isValidChar]
  omega

theorem isValidChar_combined {high low : Nat} (isHigh : IsHigh high) (isLow : IsLow low) :
    (combined high low).isValidChar := by
  obtain ⟨high_le, high_lt⟩ := isHigh
  obtain ⟨low_le, low_lt⟩ := isLow
  have above : 0xDFFF < combined high low := by
    unfold combined
    omega
  have below : combined high low < 0x110000 := by
    unfold combined
    omega
  exact .inr ⟨above, below⟩

namespace Piece

/-- How a piece is written. -/
def spelling : Piece → List Char
  | plain c _ => [c]
  | simple escape _ => ['\\', escape.1]
  | code h _ => '\\' :: 'u' :: h.chars
  | pair high low _ _ => '\\' :: 'u' :: high.chars ++ '\\' :: 'u' :: low.chars
  | lineBreak chars _ => '\\' :: chars

/-- What a piece stands for. -/
def meaning : Piece → List Char
  | plain c _ => [c]
  | simple escape _ => [escape.2]
  | code h proper => [Char.ofNatAux h.value (isValidChar_of_proper proper)]
  | pair high low isHigh isLow => [Char.ofNatAux (combined high.value low.value) (isValidChar_combined isHigh isLow)]
  | lineBreak _ _ => []

end Piece

/-- The contents `raw` are a sequence of pieces, whose meanings make up `s`. A carriage return and a line feed behind
    it are one line break, so only one that no line feed follows is a line break of its own. -/
inductive Decodes : List Char → List Char → Prop
  | nil : Decodes [] []
  | cons (p : Piece) {rest s : List Char} (whole : p.spelling = ['\\', '\r'] → rest.head? ≠ some '\n')
      (tail : Decodes rest s) : Decodes (p.spelling ++ rest) (p.meaning ++ s)

/-! ### Every piece is read -/

theorem charOf_eq (valid : n.isValidChar) : charOf n = .ok (Char.ofNatAux n valid) := by
  rw [charOf, if_pos valid, Char.ofNat, dif_pos valid]

theorem isHighSurrogate_iff : isHighSurrogate n = true ↔ IsHigh n := by
  simp [isHighSurrogate, IsHigh]

theorem isHighSurrogate_eq_false (other : ¬IsHigh n) : isHighSurrogate n = false :=
  Bool.eq_false_iff.mpr fun high => other (isHighSurrogate_iff.mp high)

theorem isLowSurrogate_iff : isLowSurrogate n = true ↔ IsLow n := by
  simp [isLowSurrogate, IsLow]

theorem codePoint_code (h : HexCode) (proper : ¬IsHigh h.value ∧ ¬IsLow h.value) (rest : List Char) :
    codePoint (h.chars ++ rest) = .ok (Char.ofNatAux h.value (isValidChar_of_proper proper), 4) := by
  have read : hex4 (h.chars ++ rest) = .ok h.value := hex4_eq_ok.mpr ⟨h, rest, rfl, rfl⟩
  rw [codePoint_of_single read (isHighSurrogate_eq_false proper.1), charOf_eq (isValidChar_of_proper proper)]
  rfl

theorem codePoint_pair {high low : HexCode} (isHigh : IsHigh high.value) (isLow : IsLow low.value) (rest : List Char) :
    codePoint (high.chars ++ '\\' :: 'u' :: (low.chars ++ rest)) =
      .ok (Char.ofNatAux (combined high.value low.value) (isValidChar_combined isHigh isLow), 10) := by
  have first : hex4 (high.chars ++ '\\' :: 'u' :: (low.chars ++ rest)) = .ok high.value :=
    hex4_eq_ok.mpr ⟨high, _, rfl, rfl⟩
  have second : hex4 (low.chars ++ rest) = .ok low.value := hex4_eq_ok.mpr ⟨low, rest, rfl, rfl⟩
  rw [codePoint_of_pair first (isHighSurrogate_iff.mpr isHigh) rfl, second]
  change ofPair high.value low.value = _
  rw [ofPair, if_pos (isLowSurrogate_iff.mpr isLow)]
  change (charOf (combined high.value low.value) >>= fun c => pure (c, 10)) = _
  rw [charOf_eq (isValidChar_combined isHigh isLow)]
  rfl

theorem simpleEscape?_of_mem {escape : Char × Char} (listed : escape ∈ simpleEscapes) :
    simpleEscape? escape.1 = some escape.2 := by
  have all : ∀ e ∈ simpleEscapes, simpleEscape? e.1 = some e.2 := by decide
  exact all _ listed

theorem unescape_piece (p : Piece) (whole : p.spelling = ['\\', '\r'] → rest.head? ≠ some '\n') :
    unescape (p.spelling ++ rest) = (unescape rest).map (p.meaning ++ ·) := by
  cases p with
  | plain c unescaped => exact unescape_cons unescaped rest
  | simple escape listed => exact unescape_simple (simpleEscape?_of_mem listed) rest
  | code h proper => exact unescape_code (codePoint_code h proper rest)
  | pair high low isHigh isLow => exact unescape_code (codePoint_pair isHigh isLow rest)
  | lineBreak chars listed =>
    have same : unescape ('\\' :: (chars ++ rest)) = unescape rest := by
      simp only [List.mem_cons, List.not_mem_nil, or_false] at listed
      rcases listed with rfl | rfl | rfl
      · exact unescape.eq_4 rest
      · exact unescape.eq_5 rest
      · refine unescape.eq_6 rest fun cs here => whole rfl ?_
        rw [here]
        rfl
    change unescape ('\\' :: (chars ++ rest)) = (unescape rest).map id
    rw [same]
    cases unescape rest <;> rfl

/-! ### Nothing else is read -/

theorem mem_simpleEscapes (found : simpleEscape? c = some d) : (c, d) ∈ simpleEscapes := by
  unfold simpleEscape? at found
  split at found <;> cases found <;> decide

theorem exists_piece_of_codePoint (read : codePoint cs = .ok (c, n)) :
    ∃ p : Piece, p.meaning = [c] ∧ '\\' :: 'u' :: cs = p.spelling ++ cs.drop n ∧ p.spelling ≠ ['\\', '\r'] := by
  cases first : hex4 cs with
  | error cause =>
    rw [codePoint_of_error first] at read
    cases read
  | ok v =>
    obtain ⟨h, rest, rfl, rfl⟩ := hex4_eq_ok.mp first
    by_cases isHigh : IsHigh h.value
    · have pair := isHighSurrogate_iff.mpr isHigh
      by_cases behind : ∃ ds, rest = '\\' :: 'u' :: ds
      · obtain ⟨ds, rfl⟩ := behind
        have step := codePoint_of_pair first pair rfl
        cases second : hex4 ds with
        | error cause =>
          rw [step, second] at read
          cases read
        | ok w =>
          obtain ⟨low, rest, rfl, rfl⟩ := hex4_eq_ok.mp second
          by_cases isLow : IsLow low.value
          · rw [codePoint_pair isHigh isLow] at read
            obtain ⟨rfl, rfl⟩ := Prod.mk.inj (Except.ok.inj read)
            exact ⟨.pair h low isHigh isLow, rfl, rfl, nofun⟩
          · rw [step, second] at read
            change ofPair h.value low.value = _ at read
            rw [ofPair, if_neg fun low => isLow (isLowSurrogate_iff.mp low)] at read
            cases read
      · rw [codePoint_of_lonely first pair fun ds same => behind ⟨ds, same⟩] at read
        cases read
    · by_cases isLow : IsLow h.value
      · have single := isHighSurrogate_eq_false isHigh
        have surrogate : ¬h.value.isValidChar := by
          simp only [IsLow] at isLow
          simp only [Nat.isValidChar]
          omega
        rw [codePoint_of_single first single, charOf, if_neg surrogate] at read
        cases read
      · rw [codePoint_code h ⟨isHigh, isLow⟩] at read
        cases read
        exact ⟨.code h ⟨isHigh, isLow⟩, rfl, rfl, nofun⟩

/-- Whatever is read behind a piece makes contents with the piece. -/
theorem Decodes.of_map (ih : ∀ {u}, unescape rest = .ok u → Decodes rest u) (p : Piece)
    (read : (unescape rest).map (p.meaning ++ ·) = .ok s)
    (whole : p.spelling = ['\\', '\r'] → rest.head? ≠ some '\n') : Decodes (p.spelling ++ rest) s := by
  cases tail : unescape rest with
  | error cause =>
    rw [tail] at read
    cases read
  | ok u =>
    rw [tail] at read
    obtain rfl : p.meaning ++ u = s := Except.ok.inj read
    exact .cons p whole (ih tail)

theorem decodes_of_unescape (read : unescape raw = .ok s) : Decodes raw s := by
  fun_induction unescape raw generalizing s with
  | case1 =>
    cases read
    exact .nil
  | case2 => cases read
  | case3 => cases read
  | case4 cs c n code ih =>
    obtain ⟨p, meaning, parts, other⟩ := exists_piece_of_codePoint code
    rw [parts]
    exact .of_map ih p (by rw [meaning]; exact read) fun same => absurd same other
  | case5 cs ih => exact .cons (.lineBreak ['\n'] (by simp)) nofun (ih read)
  | case6 cs ih => exact .cons (.lineBreak ['\r', '\n'] (by simp)) nofun (ih read)
  | case7 cs other ih =>
    refine .cons (.lineBreak ['\r'] (by simp)) (fun _ newline => ?_) (ih read)
    obtain ⟨ds, rfl⟩ := List.head?_eq_some_iff.mp newline
    exact other ds rfl
  | case8 c cs notU notNewline _ notReturn d simple ih =>
    refine .of_map ih (.simple (c, d) (mem_simpleEscapes simple)) read fun same => ?_
    exact absurd (List.cons.inj same).2 (by simpa using notReturn)
  | case9 => cases read
  | case10 c cs notLast _ _ _ _ notEscape ih =>
    have unescaped : c ≠ '\\' := fun same => by
      cases cs with
      | nil => exact notLast same rfl
      | cons d ds => exact notEscape d ds same rfl
    exact .of_map ih (.plain c unescaped) read nofun

/-- Contents can be decoded exactly when they are a sequence of pieces, and then stand for what the pieces mean. -/
theorem unescape_exact (raw s : List Char) : unescape raw = .ok s ↔ Decodes raw s := by
  constructor
  · exact decodes_of_unescape
  · intro decodes
    induction decodes with
    | nil => exact unescape.eq_1
    | cons p whole _ ih =>
      rw [unescape_piece p whole, ih]
      rfl

end SmithyIdl.Literal
