import Mathlib.Data.List.Basic
import SmithyIdl.Proofs.Literal.Lines
import SmithyIdl.Proofs.Literal.Unescape
import SmithyIdl.Proofs.Text.Position

/-! # Values of text blocks

What the value of a text block depends on: not on how far all of its lines are indented, and on everything in a line
behind its indentation but the blanks at its end. Only white lines can lose more, since the common indentation is cut
off them too although they did not count for it. -/

namespace SmithyIdl.Literal

open Unicode (isWhiteSpace)

variable {c : Char} {w raw body line : List Char} {lines : List (List Char)} {n : Nat}

/-- The lines of a text block without their indentation and the blanks at their ends. -/
def stripped (body : List Char) : List Char :=
  ['\n'].intercalate ((linesOf body).map (stripLine (commonIndentation (linesOf body))))

theorem textBlock_of_body (opens : afterLineBreak? raw = some body) : textBlock raw = unescape (stripped body) := by
  rw [textBlock, opens]
  rfl

/-! ### More indentation -/

/-- The contents of a text block with `w` at the start of every line behind the first line break. -/
def indented (w : List Char) : List Char → List Char
  | [] => []
  | c :: cs => if c = '\n' then '\n' :: (w ++ indented w cs) else c :: indented w cs

theorem indented_newline (w cs : List Char) : indented w ('\n' :: cs) = '\n' :: (w ++ indented w cs) := if_pos rfl

theorem indented_cons (ne : c ≠ '\n') (cs : List Char) : indented w (c :: cs) = c :: indented w cs := if_neg ne

theorem exists_of_indented_newline {cs ds : List Char} (h : indented w cs = '\n' :: ds) : ∃ es, cs = '\n' :: es := by
  cases cs with
  | nil => cases h
  | cons c cs =>
    by_cases newline : c = '\n'
    · exact ⟨cs, by rw [newline]⟩
    · rw [indented_cons newline] at h
      exact absurd (List.cons.inj h).1 newline

/-- What follows the line break at the start begins with a line. -/
theorem afterLineBreak?_indented (w raw : List Char) :
    afterLineBreak? (indented w raw) = (afterLineBreak? raw).map (w ++ indented w ·) := by
  fun_cases afterLineBreak? raw with
  | case1 cs => rw [indented_cons (by decide), indented_newline, afterLineBreak?, Option.map_some]
  | case2 cs => rw [indented_newline, afterLineBreak?, Option.map_some]
  | case3 _ notPair notNewline =>
    cases raw with
    | nil => rfl
    | cons c cs =>
      have newline : c ≠ '\n' := fun same => notNewline cs (by rw [same])
      rw [indented_cons newline, afterLineBreak?.eq_3, Option.map_none]
      · intro ds same
        obtain ⟨rfl, behind⟩ := List.cons.inj same
        obtain ⟨es, rfl⟩ := exists_of_indented_newline behind
        exact notPair es rfl
      · exact fun ds same => newline (List.cons.inj same).1

section
variable (blank : ∀ c ∈ w, isBlank c = true)
include blank

theorem splitLines_indented {lines : List (List Char)} (split : splitLines body = line :: lines) :
    splitLines (indented w body) = line :: lines.map (w ++ ·) := by
  induction body generalizing line lines with
  | nil =>
    cases split
    rfl
  | cons c cs ih =>
    obtain ⟨first, rest, below⟩ := exists_splitLines cs
    by_cases newline : c = '\n'
    · subst newline
      rw [splitLines_newline, below] at split
      cases split
      rw [indented_newline, splitLines_newline, splitLines_append (not_mem_of_blank blank rfl) (ih below), List.map_cons]
    · rw [splitLines_cons newline below] at split
      cases split
      rw [indented_cons newline, splitLines_cons newline (ih below)]

theorem linesOf_indented (body : List Char) : linesOf (w ++ indented w body) = (linesOf body).map (w ++ ·) := by
  obtain ⟨line, lines, split⟩ := exists_splitLines body
  have none : '\n' ∉ w := not_mem_of_blank blank rfl
  rw [linesOf, linesOf, splitLines_append none (splitLines_indented blank split), split, ← List.map_cons (f := (w ++ ·)),
    List.map_map, List.map_map]
  exact List.map_congr_left fun line _ => dropReturn_append (not_mem_of_blank blank rfl) line

theorem commonIndentation_map (some : lines ≠ []) :
    commonIndentation (lines.map (w ++ ·)) = w.length + commonIndentation lines := by
  apply Nat.le_antisymm
  · obtain ⟨line, among, least⟩ := exists_indentation_eq some
    rw [← least, ← indentation_append blank]
    apply commonIndentation_le
    rw [indentingLines_map blank]
    exact List.mem_map_of_mem among
  · have some' : lines.map (w ++ ·) ≠ [] := by simpa using some
    obtain ⟨_, among', least⟩ := exists_indentation_eq some'
    rw [indentingLines_map blank] at among'
    obtain ⟨line, among, rfl⟩ := List.mem_map.mp among'
    rw [← least, indentation_append blank]
    exact Nat.add_le_add_left (commonIndentation_le among) _

theorem stripLine_append (n : Nat) (line : List Char) : stripLine (w.length + n) (w ++ line) = stripLine n line := by
  rw [stripLine, stripLine, ← byteLength_of_blank blank, dropBytes?_append]

theorem stripped_indented (body : List Char) : stripped (w ++ indented w body) = stripped body := by
  rw [stripped, stripped, linesOf_indented blank, commonIndentation_map blank (linesOf_ne_nil body), List.map_map]
  exact congrArg _ (List.map_congr_left fun line _ => stripLine_append blank _ line)

end

/-- A text block says the same however far all of its lines are indented, or is refused for the same reason. -/
theorem textBlock_indented (blank : ∀ c ∈ w, c = ' ' ∨ c = '\t') (raw : List Char) :
    textBlock (indented w raw) = textBlock raw := by
  have blank (c : Char) (among : c ∈ w) : isBlank c = true := isBlank_iff.mpr (blank c among)
  cases opens : afterLineBreak? raw with
  | none => rw [textBlock, textBlock, afterLineBreak?_indented, opens, Option.map_none]
  | some body =>
    have opens' := afterLineBreak?_indented w raw
    rw [opens, Option.map_some] at opens'
    rw [textBlock_of_body opens, textBlock_of_body opens', stripped_indented blank]

/-- Lines of every shape: blank ones that are shorter than the indentation, white space that is no blank, a line break
    that is escaped, and the closing line. -/
theorem textBlock_indented_shapes :
    (∀ c ∈ ['\t', ' '], c = ' ' ∨ c = '\t') ∧
      textBlock (indented ['\t', ' '] "\r\n    a \r\n\u3000\n\n   b\\\n\t\t\tc\n   ".toList) =
        textBlock "\r\n    a \r\n\u3000\n\n   b\\\n\t\t\tc\n   ".toList :=
  ⟨by simp, textBlock_indented (by simp) _⟩

/-! ### What a line loses -/

/-- Blanks and the characters of line breaks. -/
def isSpacing (c : Char) : Bool := c = ' ' || c = '\t' || c = '\r' || c = '\n'

/-- All characters but blanks and line breaks. -/
def unspaced (cs : List Char) : List Char := cs.filter (!isSpacing ·)

/-- What a line loses at its start: its first `n` bytes, or all of it where there is no such cut. -/
def cutOff (n : Nat) (line : List Char) : List Char := (takeBytes? n line).getD line

theorem cutOff_append (n : Nat) (line : List Char) : cutOff n line ++ (dropBytes? n line).getD [] = line := by
  rw [cutOff]
  fun_induction takeBytes? n line with
  | case1 => rw [dropBytes?]; rfl
  | case2 => rfl
  | case3 n c cs fits ih =>
    rw [dropBytes?, if_pos fits, Option.getD_map, List.cons_append, ih]
  | case4 n c cs wide => rw [dropBytes?, if_neg wide]; simp

theorem cutOff_of_le (le : n ≤ indentation line) : cutOff n line = line.take n := by
  have blank := blank_of_mem_take le
  have length : (line.take n).length = n := by
    have := (List.takeWhile_sublist isBlank (l := line)).length_le
    rw [indentation] at le
    rw [List.length_take]
    omega
  have cut := takeBytes?_byteLength (line.take n) (line.drop n)
  rw [byteLength_of_blank blank, length, List.take_append_drop] at cut
  rw [cutOff, cut, Option.getD_some]

/-- An indenting line has the common indentation, so it loses blanks only. -/
theorem isBlank_of_mem_cutOff (among : line ∈ indentingLines lines) (lost : c ∈ cutOff (commonIndentation lines) line) :
    isBlank c = true := by
  rw [cutOff_of_le (commonIndentation_le among)] at lost
  exact blank_of_mem_take (commonIndentation_le among) c lost

/-- Whatever a line loses at its start is white. -/
theorem isWhiteSpace_of_mem_cutOff (among : line ∈ lines) (lost : c ∈ cutOff (commonIndentation lines) line) :
    isWhiteSpace c = true := by
  by_cases indenting : line ∈ indentingLines lines
  · exact isWhiteSpace_of_isBlank (isBlank_of_mem_cutOff indenting lost)
  · have white := isWhite_of_not_indenting among indenting
    refine List.all_eq_true.mp white c ?_
    rw [← cutOff_append (commonIndentation lines) line]
    exact List.mem_append_left _ lost

section
variable {q : Char → Bool}

theorem filter_trimEnd (blank : ∀ c, isBlank c = true → q c = false) (line : List Char) :
    (trimEnd line).filter q = line.filter q := by
  have dropped : (line.reverse.takeWhile isBlank).filter q = [] := by
    rw [List.filter_eq_nil_iff]
    intro c among
    simp [blank c (List.all_eq_true.mp List.all_takeWhile c among)]
  have whole := congrArg (List.filter q) (List.takeWhile_append_dropWhile (p := isBlank) (l := line.reverse))
  rw [List.filter_append, dropped, List.nil_append, List.filter_reverse] at whole
  rw [trimEnd, List.filter_reverse, whole, List.reverse_reverse]

theorem filter_stripLine (blank : ∀ c, isBlank c = true → q c = false) (n : Nat) (line : List Char) :
    line.filter q = (cutOff n line).filter q ++ (stripLine n line).filter q := by
  rw [stripLine, filter_trimEnd blank, ← List.filter_append, cutOff_append]

theorem filter_dropReturn (other : q '\r' = false) (line : List Char) : (dropReturn line).filter q = line.filter q := by
  rw [dropReturn]
  split
  · next last =>
    obtain ⟨before, rfl⟩ := List.getLast?_eq_some_iff.mp last
    simp [other]
  · rfl

theorem filter_splitLines (other : q '\n' = false) (body : List Char) :
    (splitLines body).flatMap (List.filter q) = body.filter q := by
  induction body with
  | nil => rfl
  | cons c cs ih =>
    obtain ⟨line, lines, split⟩ := exists_splitLines cs
    by_cases newline : c = '\n'
    · subst newline
      rw [splitLines_newline, List.flatMap_cons, ih, List.filter_nil, List.nil_append, List.filter_cons, other]
      rfl
    · rw [split] at ih
      rw [splitLines_cons newline split, ← List.singleton_append (l := cs), List.filter_append, ← ih,
        ← List.singleton_append (l := line), List.flatMap_cons, List.flatMap_cons, List.filter_append,
        List.append_assoc]

/-- The characters of the lines are those of the text but for its line breaks. -/
theorem filter_linesOf (return_ : q '\r' = false) (newline : q '\n' = false) (body : List Char) :
    (linesOf body).flatMap (List.filter q) = body.filter q := by
  rw [linesOf, List.flatMap_map, ← filter_splitLines newline]
  exact congrArg (List.flatMap · _) (funext fun line => filter_dropReturn return_ line)

theorem filter_intercalate (newline : q '\n' = false) (lines : List (List Char)) :
    (['\n'].intercalate lines).filter q = lines.flatMap (List.filter q) := by
  induction lines with
  | nil => rfl
  | cons line lines ih =>
    cases lines with
    | nil => simp
    | cons next lines =>
      rw [List.intercalate_cons_cons, List.filter_append, List.filter_append, ih, List.flatMap_cons]
      simp [newline]

end

/-! ### What a text block loses -/

section
variable {α β : Type} {f g : α → List β}

theorem sublist_flatMap_append (f g : α → List β) (l : List α) :
    (l.flatMap g).Sublist (l.flatMap fun a => f a ++ g a) := by
  induction l with
  | nil => exact .slnil
  | cons a l ih =>
    rw [List.flatMap_cons, List.flatMap_cons]
    exact (List.sublist_append_right (f a) (g a)).append ih

theorem flatMap_append_eq_iff {l : List α} :
    (l.flatMap g = l.flatMap fun a => f a ++ g a) ↔ ∀ a ∈ l, f a = [] := by
  constructor
  · intro same
    induction l with
    | nil => nofun
    | cons a l ih =>
      have le := (sublist_flatMap_append f g l).length_le
      have length := congrArg List.length same
      simp only [List.flatMap_cons, List.length_append] at length
      have rest := (sublist_flatMap_append f g l).eq_of_length (by omega)
      rintro b (_ | ⟨_, among⟩)
      · exact List.eq_nil_of_length_eq_zero (by omega)
      · exact ih rest b among
  · intro none
    exact (List.flatMap_congr fun a among => by rw [none a among, List.nil_append]).symm

end

section
variable {q : Char → Bool} (blank : ∀ c, isBlank c = true → q c = false) (ret : q '\r' = false)
  (newline : q '\n' = false)

include newline in
theorem filter_stripped (body : List Char) : (stripped body).filter q =
    (linesOf body).flatMap fun line => (stripLine (commonIndentation (linesOf body)) line).filter q := by
  rw [stripped, filter_intercalate newline, List.flatMap_map]

include blank ret newline

theorem filter_body (body : List Char) : body.filter q = (linesOf body).flatMap fun line =>
    (cutOff (commonIndentation (linesOf body)) line).filter q ++
      (stripLine (commonIndentation (linesOf body)) line).filter q := by
  rw [← filter_linesOf ret newline]
  exact List.flatMap_congr fun line _ => filter_stripLine blank _ line

theorem sublist_filter_stripped (body : List Char) : ((stripped body).filter q).Sublist (body.filter q) := by
  rw [filter_stripped newline, filter_body blank ret newline]
  exact sublist_flatMap_append _ _ _

theorem filter_stripped_eq_iff : (stripped body).filter q = body.filter q ↔
    ∀ line ∈ linesOf body, (cutOff (commonIndentation (linesOf body)) line).filter q = [] := by
  rw [filter_stripped newline, filter_body blank ret newline]
  exact flatMap_append_eq_iff

end

theorem not_isSpacing_of_blank (c : Char) (blank : isBlank c = true) : (!isSpacing c) = false := by
  rcases isBlank_iff.mp blank with rfl | rfl <;> rfl

theorem unspaced_eq_nil_of_blank (blank : ∀ c ∈ w, isBlank c = true) : unspaced w = [] := by
  rw [unspaced, List.filter_eq_nil_iff]
  intro c among
  simp [not_isSpacing_of_blank c (blank c among)]

/-- Without escapes a text block is never refused. Besides blanks and line breaks it loses white space only, and it
    loses any only at the start of a white line, where what the other lines are indented by is cut off. -/
theorem textBlock_loses (plain : '\\' ∉ raw) (opens : raw = '\n' :: body ∨ raw = '\r' :: '\n' :: body) :
    ∃ s, textBlock raw = .ok s ∧ (unspaced s).Sublist (unspaced raw) ∧
      s.filter (!isWhiteSpace ·) = raw.filter (!isWhiteSpace ·) ∧
      (unspaced s = unspaced raw ↔ ∀ line ∈ linesOf body, line.all isWhiteSpace = true →
        unspaced (cutOff (commonIndentation (linesOf body)) line) = []) := by
  -- The line break at the start is neither counted nor an escape.
  have start : ∃ opening, raw = opening ++ body ∧ afterLineBreak? raw = some body ∧ unspaced opening = [] ∧
      opening.filter (!isWhiteSpace ·) = [] := by
    rcases opens with rfl | rfl
    · exact ⟨['\n'], rfl, rfl, rfl, rfl⟩
    · exact ⟨['\r', '\n'], rfl, rfl, rfl, rfl⟩
  obtain ⟨opening, rfl, opens, spacing, white⟩ := start
  have whole : unspaced (opening ++ body) = unspaced body := by
    rw [unspaced, List.filter_append, ← unspaced, spacing, List.nil_append, unspaced]
  have plain' : '\\' ∉ stripped body := by
    intro among
    have kept : '\\' ∈ unspaced body :=
      (sublist_filter_stripped not_isSpacing_of_blank rfl rfl body).subset (List.mem_filter.mpr ⟨among, rfl⟩)
    exact plain (List.mem_append_right _ (List.mem_filter.mp kept).1)
  refine ⟨stripped body, ?_, ?_, ?_, ?_⟩
  · rw [textBlock_of_body opens, unescape_of_not_mem plain']
  · rw [whole]
    exact sublist_filter_stripped not_isSpacing_of_blank rfl rfl body
  · rw [List.filter_append, white, List.nil_append, filter_stripped_eq_iff ?_ rfl rfl]
    · intro line among
      rw [List.filter_eq_nil_iff]
      intro c lost
      simp [isWhiteSpace_of_mem_cutOff among lost]
    · intro c blank
      simp [isWhiteSpace_of_isBlank blank]
  · rw [whole, unspaced, unspaced, filter_stripped_eq_iff not_isSpacing_of_blank rfl rfl]
    constructor
    · exact fun none line among _ => none line among
    · intro none line among
      by_cases indenting : line ∈ indentingLines (linesOf body)
      · exact unspaced_eq_nil_of_blank fun c => isBlank_of_mem_cutOff indenting
      · exact none line among (isWhite_of_not_indenting among indenting)

/-- A line of a no-break space is white, but no blank. It sets no indentation, is cut by that of the other lines, and
    the space is lost. -/
theorem textBlock_loses_wide :
    '\\' ∉ ['\n', '\u00a0', '\n', ' ', 'a', '\n', ' '] ∧
      ∃ s, textBlock ['\n', '\u00a0', '\n', ' ', 'a', '\n', ' '] = .ok s ∧
        unspaced s ≠ unspaced ['\n', '\u00a0', '\n', ' ', 'a', '\n', ' '] := by
  have plain : '\\' ∉ ['\n', '\u00a0', '\n', ' ', 'a', '\n', ' '] := by decide
  obtain ⟨s, read, -, -, lost⟩ := textBlock_loses plain (.inl rfl)
  refine ⟨plain, s, read, fun same => ?_⟩
  have none : unspaced ['\u00a0'] = [] := lost.mp same ['\u00a0'] (by decide) (by decide)
  exact absurd none (by decide)

end SmithyIdl.Literal
