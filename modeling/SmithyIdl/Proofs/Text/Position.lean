import SmithyIdl.Proofs.Literal.Lines
import SmithyIdl.Token.Scan

/-! # Places in a text

A place in a text is a byte offset, or a line and a column. The line and the column are read off the characters before
the place: the line counts the line ends in them, and the column the bytes behind the last one. Reading on from a
position agrees with this, unless it begins in the middle of a carriage return with a line feed behind it. -/

namespace SmithyIdl

open Literal (dropBytes?)

/-! ### Slices

A slice goes from one byte offset to another. It exists where both lie in the text and a character begins, or the
text ends, at each of them. -/

/-- The characters of the first `n` bytes. -/
def takeBytes? : Nat → List Char → Option (List Char)
  | 0, _ => some []
  | _ + 1, [] => none
  | n + 1, c :: cs =>
    if c.utf8Size ≤ n + 1 then (takeBytes? (n + 1 - c.utf8Size) cs).map (c :: ·) else none

/-- The characters of a range of bytes. -/
def slice? (cs : List Char) (r : ByteRange) : Option (List Char) :=
  if r.start ≤ r.stop then (dropBytes? r.start cs).bind (takeBytes? (r.stop - r.start)) else none

theorem Literal.dropBytes?_byteLength (cs ds : List Char) : dropBytes? (byteLength cs) (cs ++ ds) = some ds := by
  rw [← Nat.add_zero (byteLength cs), dropBytes?_append, dropBytes?]

theorem takeBytes?_byteLength (cs ds : List Char) : takeBytes? (byteLength cs) (cs ++ ds) = some cs := by
  induction cs with
  | nil => rw [byteLength, List.nil_append, takeBytes?]
  | cons c cs ih =>
    obtain ⟨n, hn⟩ := Nat.exists_eq_add_of_lt c.utf8Size_pos
    have bytes : byteLength (c :: cs) = n + byteLength cs + 1 := by rw [byteLength]; omega
    rw [bytes, List.cons_append, takeBytes?, if_pos (by omega)]
    rw [show n + byteLength cs + 1 - c.utf8Size = byteLength cs by omega, ih]
    rfl

/-- The first bytes of a text are the characters that it begins with. -/
theorem takeBytes?_eq_some {n : Nat} {cs ds : List Char} (taken : takeBytes? n cs = some ds) : ∃ es, cs = ds ++ es := by
  fun_induction takeBytes? n cs generalizing ds with
  | case1 cs => exact ⟨cs, by cases taken; rfl⟩
  | case2 => cases taken
  | case3 n c cs _ ih =>
    obtain ⟨ds, rest, rfl⟩ := Option.map_eq_some_iff.mp taken
    obtain ⟨es, rfl⟩ := ih rest
    exact ⟨es, rfl⟩
  | case4 => cases taken

/-- Where a text is cut into three, the middle is the slice between the cuts. -/
theorem slice?_middle (before cs after : List Char) :
    slice? (before ++ cs ++ after) ⟨byteLength before, byteLength before + byteLength cs⟩ = some cs := by
  rw [slice?, if_pos (Nat.le_add_right ..), List.append_assoc, Literal.dropBytes?_byteLength, Option.bind_some,
    Nat.add_sub_cancel_left, takeBytes?_byteLength]

/-! ### Lines and columns -/

/-- How many lines end in some characters. A carriage return with a line feed behind it ends one line. -/
def lineBreaks : List Char → Nat
  | [] => 0
  | '\r' :: '\n' :: cs => lineBreaks cs + 1
  | c :: cs => if Scan.isLineEnd c then lineBreaks cs + 1 else lineBreaks cs

/-- The characters behind the last line end. -/
def lastLine (cs : List Char) : List Char := (cs.reverse.takeWhile (!Scan.isLineEnd ·)).reverse

namespace Position

/-- The line and the column behind some characters at the start of a text. -/
def behind (cs : List Char) : Position := ⟨1 + lineBreaks cs, 1 + byteLength (lastLine cs)⟩

/-- The line and the column at a byte offset of a text, if a character begins or the text ends there. -/
def at? (cs : List Char) (offset : Nat) : Option Position := (takeBytes? offset cs).map behind

theorem at?_byteLength (cs ds : List Char) : at? (cs ++ ds) (byteLength cs) = some (behind cs) := by
  rw [at?, takeBytes?_byteLength, Option.map_some]

end Position

variable {cs ds : List Char} {c : Char}

/-! ### Line ends -/

theorem lineBreaks_eq_zero : lineBreaks cs = 0 ↔ ∀ c ∈ cs, Scan.isLineEnd c = false := by
  fun_induction lineBreaks cs with
  | case1 => simp
  | case2 cs ih => simp [Scan.isLineEnd]
  | case3 c cs _ ends ih => simp [ends]
  | case4 c cs _ inside ih => simp [ih, inside]

theorem lastLine_of_inside (h : lineBreaks cs = 0) : lastLine cs = cs := by
  have inside : ∀ c ∈ cs.reverse, (!Scan.isLineEnd c) = true := by simpa using lineBreaks_eq_zero.mp h
  have all : (cs.reverse ++ []).takeWhile (!Scan.isLineEnd ·) = cs.reverse ++ [] :=
    List.takeWhile_append_of_pos inside
  rw [List.append_nil] at all
  rw [lastLine, all, List.reverse_reverse]

theorem lastLine_append_cons (cs ds : List Char) (h : Scan.isLineEnd c = true) :
    lastLine (cs ++ c :: ds) = lastLine ds := by
  have swap : (cs ++ c :: ds).reverse = ds.reverse ++ c :: cs.reverse := by simp
  rw [lastLine, lastLine, swap, List.takeWhile_append]
  split
  · next all =>
    rw [List.takeWhile_cons_of_neg (by simp [h]), List.append_nil,
      (List.takeWhile_prefix _).eq_of_length all]
  · rfl

theorem lastLine_cons_of_breaks (h : lineBreaks cs ≠ 0) : lastLine (c :: cs) = lastLine cs := by
  obtain ⟨d, hd, ends⟩ : ∃ d ∈ cs, Scan.isLineEnd d = true := by simpa using mt lineBreaks_eq_zero.mpr h
  obtain ⟨before, after, rfl⟩ := List.append_of_mem hd
  rw [lastLine_append_cons before after ends, ← List.cons_append, lastLine_append_cons _ after ends]

/-! ### Reading on -/

/-- Between the characters there is no carriage return with its line feed cut from it. -/
def CutsNoPair (cs ds : List Char) : Prop := cs.getLast? = some '\r' → ds.head? ≠ some '\n'

theorem CutsNoPair.cons (h : CutsNoPair (c :: cs) ds) : CutsNoPair cs ds := fun last => h (by
  rw [List.getLast?_cons, last]
  rfl)

namespace Position

variable {p : Position}

@[simp] theorem nextLine_line : p.nextLine.line = p.line + 1 := rfl

@[simp] theorem nextLine_column : p.nextLine.column = 1 := rfl

theorem isLineEnd_iff : Scan.isLineEnd c = true ↔ c = '\n' ∨ c = '\r' := by simp [Scan.isLineEnd]

theorem advance_of_end (ends : Scan.isLineEnd c = true) (notPair : c = '\r' → cs.head? ≠ some '\n') :
    p.advance (c :: cs) = p.nextLine.advance cs := by
  rw [advance, if_pos (isLineEnd_iff.mp ends)]
  rintro ds rfl rfl
  exact notPair rfl rfl

theorem advance_of_inside (inside : Scan.isLineEnd c = false) :
    p.advance (c :: cs) = advance ⟨p.line, p.column + c.utf8Size⟩ cs := by
  have neither : ¬(c = '\n' ∨ c = '\r') := mt isLineEnd_iff.mpr (by simp [inside])
  rw [advance, if_neg neither]
  rintro ds rfl rfl
  exact neither (Or.inr rfl)

/-- The column grows by the bytes of the characters, or counts those behind the last line end in them. -/
theorem advance_eq (p : Position) (cs : List Char) :
    p.advance cs = if lineBreaks cs = 0 then ⟨p.line, p.column + byteLength cs⟩
      else ⟨p.line + lineBreaks cs, 1 + byteLength (lastLine cs)⟩ := by
  -- Behind a line end the column counts from the start of the new line.
  have fresh (p : Position) (cs : List Char)
      (ih : p.nextLine.advance cs = if lineBreaks cs = 0 then ⟨p.line + 1, 1 + byteLength cs⟩
        else ⟨p.line + 1 + lineBreaks cs, 1 + byteLength (lastLine cs)⟩) :
      p.nextLine.advance cs = ⟨p.line + (lineBreaks cs + 1), 1 + byteLength (lastLine cs)⟩ := by
    rw [ih]
    by_cases none : lineBreaks cs = 0
    · rw [if_pos none, none, lastLine_of_inside none]
    · rw [if_neg none, Nat.add_assoc, Nat.add_comm 1]
  fun_induction lineBreaks cs generalizing p with
  | case1 => rfl
  | case2 cs ih =>
    rw [if_neg (Nat.succ_ne_zero _), advance, fresh p cs (ih p.nextLine)]
    have ends : Scan.isLineEnd '\n' = true := rfl
    exact congrArg (mk _ <| 1 + byteLength ·) (lastLine_append_cons ['\r'] cs ends).symm
  | case3 c cs notPair ends ih =>
    rw [if_neg (Nat.succ_ne_zero _), advance_of_end ends fun hc hcs => ?_, fresh p cs (ih p.nextLine)]
    · exact congrArg (mk _ <| 1 + byteLength ·) (lastLine_append_cons [] cs ends).symm
    · obtain ⟨ds, rfl⟩ := List.head?_eq_some_iff.mp hcs
      exact notPair ds hc rfl
  | case4 c cs _ inside ih =>
    rw [advance_of_inside (eq_false_of_ne_true inside), ih]
    by_cases none : lineBreaks cs = 0
    · rw [if_pos none, if_pos none, byteLength, Nat.add_assoc]
    · rw [if_neg none, if_neg none, lastLine_cons_of_breaks none]

/-- Reading from the start of a text leads to the line and the column behind what was read. -/
theorem first_advance (cs : List Char) : first.advance cs = behind cs := by
  rw [advance_eq, behind]
  split
  · next none => rw [none, lastLine_of_inside none]; rfl
  · rfl

example : Position.first.advance "a\r\nß".toList = ⟨2, 3⟩ := by decide

/-- Reading in two steps. -/
theorem advance_append (whole : CutsNoPair cs ds) (p : Position) :
    p.advance (cs ++ ds) = (p.advance cs).advance ds := by
  fun_induction advance p cs with
  | case1 p => rfl
  | case2 p cs ih => exact ih whole.cons.cons
  | case3 p c cs notPair ends ih =>
    rw [List.cons_append, advance_of_end (isLineEnd_iff.mpr ends) fun hc => ?_, ih whole.cons]
    cases cs with
    | nil => exact whole (by rw [hc]; rfl)
    | cons d cs =>
      intro pair
      cases pair
      exact notPair cs hc rfl
  | case4 p c cs _ inside ih =>
    have inside : Scan.isLineEnd c = false := eq_false_of_ne_true (mt isLineEnd_iff.mp inside)
    rw [List.cons_append, advance_of_inside inside, ih whole.cons]

theorem behind_append (whole : CutsNoPair cs ds) : (behind cs).advance ds = behind (cs ++ ds) := by
  rw [← first_advance, ← first_advance, advance_append whole]

end Position

end SmithyIdl
