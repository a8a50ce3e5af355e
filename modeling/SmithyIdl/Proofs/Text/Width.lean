import SmithyIdl.Proofs.Text.Position

/-! # Positions in 32 bits

Offsets, lines and columns are numbers without a bound. This file says when 32 bits hold them. Reading on with every
line and every column stored in 32 bits, and a failure where one does not fit, gives the same positions in every text
of up to 2^32 - 2 bytes. In the longest texts of less than 4 GiB it fails for a single line and for nothing but line
ends. -/

namespace SmithyIdl

variable {cs ds : List Char}

/-- Every line end takes a byte, and the last line comes behind all of them. -/
theorem lineBreaks_add_lastLine_le (cs : List Char) : lineBreaks cs + byteLength (lastLine cs) ≤ byteLength cs := by
  fun_induction lineBreaks cs with
  | case1 => exact Nat.le_refl _
  | case2 cs ih =>
    have ends : Scan.isLineEnd '\n' = true := rfl
    have last : lastLine ('\r' :: '\n' :: cs) = lastLine cs := lastLine_append_cons ['\r'] cs ends
    simp only [last, byteLength, show '\r'.utf8Size = 1 from rfl, show '\n'.utf8Size = 1 from rfl]
    omega
  | case3 c cs _ ends ih =>
    have last : lastLine (c :: cs) = lastLine cs := lastLine_append_cons [] cs ends
    have wide := c.utf8Size_pos
    rw [last, byteLength]
    omega
  | case4 c cs notPair inside ih =>
    by_cases none : lineBreaks cs = 0
    · have all : lineBreaks (c :: cs) = 0 := by rw [lineBreaks.eq_3 c cs notPair, if_neg inside, none]
      exact Nat.le_of_eq (by rw [none, lastLine_of_inside all, Nat.zero_add])
    · rw [lastLine_cons_of_breaks none, byteLength]
      omega

theorem byteLength_eq_zero (h : byteLength cs = 0) : cs = [] := by
  cases cs with
  | nil => rfl
  | cons c cs =>
    have wide := c.utf8Size_pos
    rw [byteLength] at h
    omega

namespace Position

variable {p q : Position} {offset : Nat}

/-- The line and the column are numbers of 32 bits. -/
def Fits (p : Position) : Prop := p.line < UInt32.size ∧ p.column < UInt32.size

instance (p : Position) : Decidable p.Fits :=
  inferInstanceAs (Decidable (p.line < UInt32.size ∧ p.column < UInt32.size))

/-- The position, where 32 bits hold it. -/
def stored? (p : Position) : Option Position := if p.Fits then some p else none

/-- The position behind some characters that start at `p`, as `advance` finds it, with every line and column on the way
    in 32 bits. A sum that leaves them is a failure. -/
def advance? (p : Position) : List Char → Option Position
  | [] => some p
  | '\r' :: '\n' :: cs => p.nextLine.stored?.bind (advance? · cs)
  | c :: cs =>
    if c = '\n' ∨ c = '\r' then p.nextLine.stored?.bind (advance? · cs)
    else (stored? ⟨p.line, p.column + c.utf8Size⟩).bind (advance? · cs)

/-- The line, the column and the bytes left to read add up to no more than in a text of less than 4 GiB. No step of reading
    on makes the sum larger. -/
structure Reaches (p : Position) (cs : List Char) : Prop where
  line : 0 < p.line
  column : 0 < p.column
  room : p.line + p.column + byteLength cs ≤ UInt32.size + 1

namespace Reaches

theorem tail {c : Char} (h : p.Reaches (c :: cs)) : p.Reaches cs := by
  have room := h.room
  rw [byteLength] at room
  exact ⟨h.line, h.column, by omega⟩

theorem nextLine {c : Char} (h : p.Reaches (c :: cs)) : p.nextLine.Reaches cs := by
  have room := h.room
  have := h.column
  have wide := c.utf8Size_pos
  rw [byteLength] at room
  exact ⟨Nat.succ_pos _, Nat.one_pos, by simp only [nextLine_line, nextLine_column]; omega⟩

theorem inside {c : Char} (h : p.Reaches (c :: cs)) : Reaches ⟨p.line, p.column + c.utf8Size⟩ cs := by
  have room := h.room
  have := h.column
  rw [byteLength] at room
  exact ⟨h.line, by simp only; omega, by simp only; omega⟩

/-- Only at the end of the text may 32 bits be too few. -/
theorem eq_nil (h : p.Reaches cs) (wide : ¬ p.Fits) : cs = [] := by
  have := h.room
  have := h.line
  have := h.column
  refine byteLength_eq_zero ?_
  rw [Fits] at wide
  omega

theorem stored?_bind (h : p.Reaches cs) (ih : p.Fits → p.advance? cs = (p.advance cs).stored?) :
    p.stored?.bind (advance? · cs) = (p.advance cs).stored? := by
  by_cases fits : p.Fits
  · rw [stored?, if_pos fits, Option.bind_some, ih fits]
  · rw [h.eq_nil fits, stored?, if_neg fits]
    exact (if_neg fits).symm

/-- Only the position at the end decides whether reading on fails. -/
theorem advance?_eq (h : p.Reaches cs) (fits : p.Fits) : p.advance? cs = (p.advance cs).stored? := by
  fun_induction advance p cs with
  | case1 p => exact (if_pos fits).symm
  | case2 p cs ih => exact h.tail.nextLine.stored?_bind (ih h.tail.nextLine)
  | case3 p c cs notPair ends ih =>
    rw [advance?.eq_3 p c cs notPair, if_pos ends]
    exact h.nextLine.stored?_bind (ih h.nextLine)
  | case4 p c cs notPair inside ih =>
    rw [advance?.eq_3 p c cs notPair, if_neg inside]
    exact h.inside.stored?_bind (ih h.inside)

end Reaches

/-! ### Positions of a text -/

theorem reaches_behind (small : byteLength (cs ++ ds) < UInt32.size) : (behind cs).Reaches ds := by
  have := lineBreaks_add_lastLine_le cs
  rw [byteLength_append] at small
  exact ⟨by simp only [behind]; omega, by simp only [behind]; omega, by simp only [behind]; omega⟩

/-- In a text of up to 2^32 - 2 bytes, 32 bits hold every line and every column. -/
theorem fits_behind (small : byteLength cs + 1 < UInt32.size) : (behind cs).Fits := by
  have := lineBreaks_add_lastLine_le cs
  exact ⟨by simp only [behind]; omega, by simp only [behind]; omega⟩

theorem fits_of_at? (small : byteLength cs + 1 < UInt32.size) (found : at? cs offset = some p) : p.Fits := by
  obtain ⟨before, taken, rfl⟩ := Option.map_eq_some_iff.mp found
  obtain ⟨after, rfl⟩ := takeBytes?_eq_some taken
  rw [byteLength_append] at small
  exact fits_behind (by omega)

/-- Between two places of such a text, reading on in 32 bits leads from the position of one to that of the other. -/
theorem behind_advance? (whole : CutsNoPair cs ds) (small : byteLength (cs ++ ds) + 1 < UInt32.size) :
    (behind cs).advance? ds = some (behind (cs ++ ds)) := by
  have start : (behind cs).Fits := fits_behind (by rw [byteLength_append] at small; omega)
  rw [(reaches_behind (by omega)).advance?_eq start, behind_append whole]
  exact if_pos (fits_behind small)

/-- The texts of less than 4 GiB that 32 bits are too few for: one byte short of 4 GiB, on a single line or with nothing
    but line ends of one byte. -/
theorem first_advance?_eq_none_iff (small : byteLength cs < UInt32.size) :
    first.advance? cs = none ↔
      byteLength cs + 1 = UInt32.size ∧ (lineBreaks cs = 0 ∨ lineBreaks cs = byteLength cs) := by
  have bound := lineBreaks_add_lastLine_le cs
  have reaches : (behind []).Reaches cs := reaches_behind small
  have read : first.advance? cs = (behind cs).stored? := by
    rw [← first_advance]
    exact reaches.advance?_eq (by decide)
  have none_iff : (behind cs).stored? = none ↔ ¬ (behind cs).Fits := by simp [stored?]
  rw [read, none_iff, Fits]
  simp only [behind]
  constructor
  · intro wide
    omega
  · rintro ⟨size, one | ends⟩
    · rw [lastLine_of_inside one]
      omega
    · omega

end Position

end SmithyIdl
