import SmithyIdl.Literal.TextBlock

/-! # Lines of text blocks

How the contents of a text block fall into lines, how much indentation the lines share, and how a line is cut. -/

namespace SmithyIdl.Literal

open Unicode (isWhiteSpace)

variable {c : Char} {cs w line : List Char} {lines : List (List Char)} {n : Nat}

/-! ### Blanks -/

theorem isBlank_iff : isBlank c = true ↔ c = ' ' ∨ c = '\t' := by
  simp [isBlank]

theorem isWhiteSpace_of_isBlank (blank : isBlank c = true) : isWhiteSpace c = true := by
  rcases isBlank_iff.mp blank with rfl | rfl <;> rfl

theorem not_mem_of_blank (blank : ∀ c ∈ w, isBlank c = true) (other : isBlank c = false) : c ∉ w := fun among => by
  rw [blank c among] at other
  cases other

/-- A blank takes one byte. -/
theorem byteLength_of_blank (blank : ∀ c ∈ w, isBlank c = true) : byteLength w = w.length := by
  induction w with
  | nil => rfl
  | cons c w ih =>
    have one : c.utf8Size = 1 := by
      rcases isBlank_iff.mp (blank c List.mem_cons_self) with rfl | rfl <;> rfl
    rw [byteLength, one, ih fun d among => blank d (List.mem_cons_of_mem _ among), List.length_cons, Nat.add_comm]

/-! ### Splitting -/

/-- The lines behind the first line break of a text block, without their line breaks. -/
def linesOf (body : List Char) : List (List Char) := (splitLines body).map dropReturn

theorem dropReturn_cons (ne : c ≠ '\r') (line : List Char) : dropReturn (c :: line) = c :: dropReturn line := by
  cases line with
  | nil => simp [dropReturn, ne]
  | cons d line =>
    simp only [dropReturn, List.getLast?_cons_cons, List.dropLast_cons_cons]
    split <;> rfl

theorem dropReturn_append (none : '\r' ∉ w) (line : List Char) : dropReturn (w ++ line) = w ++ dropReturn line := by
  induction w with
  | nil => rfl
  | cons c w ih =>
    simp only [List.mem_cons, not_or] at none
    rw [List.cons_append, dropReturn_cons (Ne.symm none.1), ih none.2, List.cons_append]

theorem exists_splitLines (cs : List Char) : ∃ line lines, splitLines cs = line :: lines := by
  cases cs with
  | nil => exact ⟨[], [], rfl⟩
  | cons c cs =>
    rw [splitLines]
    split
    · exact ⟨_, _, rfl⟩
    · split <;> exact ⟨_, _, rfl⟩

theorem splitLines_newline (cs : List Char) : splitLines ('\n' :: cs) = [] :: splitLines cs := by
  rw [splitLines, if_pos rfl]

theorem splitLines_cons (ne : c ≠ '\n') (h : splitLines cs = line :: lines) :
    splitLines (c :: cs) = (c :: line) :: lines := by
  rw [splitLines, if_neg ne, h]

theorem splitLines_append (none : '\n' ∉ w) (h : splitLines cs = line :: lines) :
    splitLines (w ++ cs) = (w ++ line) :: lines := by
  induction w with
  | nil => exact h
  | cons c w ih =>
    simp only [List.mem_cons, not_or] at none
    exact splitLines_cons (Ne.symm none.1) (ih none.2)

theorem linesOf_ne_nil (body : List Char) : linesOf body ≠ [] := by
  obtain ⟨line, lines, split⟩ := exists_splitLines body
  rw [linesOf, split]
  nofun

/-! ### Indentation -/

theorem indentation_append (blank : ∀ c ∈ w, isBlank c = true) (line : List Char) :
    indentation (w ++ line) = w.length + indentation line := by
  rw [indentation, indentation, List.takeWhile_append_of_pos blank, List.length_append]

/-- A line starts with as many blanks as its indentation says. -/
theorem blank_of_mem_take (le : n ≤ indentation line) : ∀ c ∈ line.take n, isBlank c = true := by
  intro c among
  have whole : line.take n = (line.takeWhile isBlank).take n := by
    rw [← List.takeWhile_append_dropWhile (p := isBlank) (l := line), List.take_append_of_le_length le]
    simp
  rw [whole] at among
  exact List.all_eq_true.mp List.all_takeWhile c (List.mem_of_mem_take among)

/-- A line that sets no indentation is white. -/
theorem isWhite_of_not_indenting (among : line ∈ lines) (other : line ∉ indentingLines lines) :
    line.all isWhiteSpace = true := by
  fun_induction indentingLines lines with
  | case1 => cases among
  | case2 closing => exact absurd among other
  | case3 first rest _ white ih =>
    rcases List.mem_cons.mp among with rfl | among
    · exact white
    · exact ih among other
  | case4 first rest _ _ ih =>
    simp only [List.mem_cons, not_or] at among other
    exact ih (among.resolve_left other.1) other.2

theorem indentingLines_ne_nil (some : lines ≠ []) : indentingLines lines ≠ [] := by
  fun_induction indentingLines lines with
  | case1 => exact absurd rfl some
  | case2 => nofun
  | case3 first rest more _ ih => exact ih more
  | case4 => nofun

theorem indentingLines_map (blank : ∀ c ∈ w, isBlank c = true) (lines : List (List Char)) :
    indentingLines (lines.map (w ++ ·)) = (indentingLines lines).map (w ++ ·) := by
  have white (line : List Char) : (w ++ line).all isWhiteSpace = line.all isWhiteSpace := by
    rw [List.all_append, List.all_eq_true.mpr fun c among => isWhiteSpace_of_isBlank (blank c among), Bool.true_and]
  fun_induction indentingLines lines with
  | case1 => rfl
  | case2 closing => rfl
  | case3 first rest more isWhite ih =>
    rw [List.map_cons, indentingLines.eq_3 _ _ (by simpa using more), if_pos (by rw [white, isWhite]), ih]
  | case4 first rest more isWhite ih =>
    rw [List.map_cons, indentingLines.eq_3 _ _ (by simpa using more), if_neg (by rwa [white]), ih, List.map_cons]

theorem commonIndentation_le (among : line ∈ indentingLines lines) : commonIndentation lines ≤ indentation line := by
  have listed : indentation line ∈ (indentingLines lines).map indentation := List.mem_map_of_mem among
  rw [commonIndentation]
  cases least : ((indentingLines lines).map indentation).min? with
  | none =>
    rw [List.min?_eq_none_iff.mp least] at listed
    cases listed
  | some n => exact (List.min?_eq_some_iff.mp least).2 _ listed

/-- The common indentation is that of a line. -/
theorem exists_indentation_eq (some : lines ≠ []) :
    ∃ line ∈ indentingLines lines, indentation line = commonIndentation lines := by
  rw [commonIndentation]
  cases least : ((indentingLines lines).map indentation).min? with
  | none =>
    have none := List.map_eq_nil_iff.mp (List.min?_eq_none_iff.mp least)
    exact absurd none (indentingLines_ne_nil some)
  | some n => exact List.mem_map.mp (List.min?_eq_some_iff.mp least).1

/-! ### Cutting -/

theorem dropBytes?_append (cs ds : List Char) (n : Nat) : dropBytes? (byteLength cs + n) (cs ++ ds) = dropBytes? n ds := by
  induction cs with
  | nil => rw [byteLength, List.nil_append, Nat.zero_add]
  | cons c cs ih =>
    have pos := c.utf8Size_pos
    obtain ⟨m, hm⟩ := Nat.exists_eq_add_of_le' (show 1 ≤ byteLength (c :: cs) + n by rw [byteLength]; omega)
    rw [byteLength] at hm
    rw [byteLength, hm, List.cons_append, dropBytes?, if_pos (by omega), ← ih]
    congr 1
    omega

end SmithyIdl.Literal
