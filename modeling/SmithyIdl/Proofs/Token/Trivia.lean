import SmithyIdl.Proofs.Token.Adjacent
import SmithyIdl.Proofs.Token.Order

/-! # Lines of trivia

A space or a comma stays in its line, a line feed ends it, and a comment goes on to its end. So behind spaces and the
token that ends a line, whatever comes stands on a later line. -/

namespace SmithyIdl

open Token (scanned)

variable {offset : Nat} {p : Position} {c : Char} {cs : List Char}

/-! ### Scans -/

namespace Scan

/-- How a scan that begins with `c`, when `cs` follows, is related to the end of the line. -/
def EndsLine (c : Char) (cs : List Char) (s : Scan) : Prop :=
  match s.content.kind with
  | .newline => isLineEnd c = true
  | .comma => isLineEnd c = false ∧ s.extra = 0
  | .comment | .docComment => ∀ d ∈ (cs.drop s.extra).head?, isLineEnd d = true
  | _ => True

theorem endsLine_decoded {read : Except LexError (List Char)} {content : String → TokenContent} {n : Nat}
    (h : ∀ value, EndsLine c cs ⟨content value, n⟩) : EndsLine c cs ⟨decoded read content, n⟩ := by
  cases read with
  | ok value => exact h _
  | error cause => trivial

theorem endsLine_quoted (c : Char) (cs ds : List Char) : EndsLine c ds (quoted cs) := by
  unfold quoted
  split
  · unfold textBlock
    split
    · trivial
    · exact endsLine_decoded fun _ => trivial
  · unfold string
    split
    · trivial
    · exact endsLine_decoded fun _ => trivial

theorem endsLine_comment (c : Char) (cs : List Char) : EndsLine c cs (comment cs) := by
  unfold comment
  split
  · next cs =>
    have goesOn : ∀ d ∈ (List.drop ((cs.takeWhile (!isLineEnd ·)).length + 1) ('/' :: cs)).head?,
        isLineEnd d = true := by
      intro d left
      rw [List.drop_succ_cons] at left
      obtain ⟨ds, rest⟩ := List.head?_eq_some_iff.mp left
      simpa using not_of_drop_takeWhile rest
    dsimp only
    split
    · exact goesOn
    · exact goesOn
  · trivial

end Scan

theorem scan_endsLine (c : Char) (cs : List Char) : Scan.EndsLine c cs (scan c cs) := by
  unfold scan
  split
  case h_3 => rfl
  case h_4 => rfl
  case h_5 => exact ⟨rfl, rfl⟩
  case h_11 => split <;> trivial
  case h_18 => exact Scan.endsLine_comment _ _
  case h_19 => exact Scan.endsLine_quoted _ _ _
  case h_20 => split <;> trivial
  case h_21 =>
    split
    · trivial
    · split <;> trivial
  all_goals trivial

theorem scan_of_isLineEnd (h : Scan.isLineEnd c = true) (cs : List Char) : (scan c cs).content.kind = .newline := by
  rcases Position.isLineEnd_iff.mp h with rfl | rfl <;> rfl

/-! ### Tokens -/

/-- A space or a comma ends in the line in which it starts. -/
theorem line_of_space {t : Token} {text : String} (among : t ∈ tokens text)
    (kind : t.kind = .space ∨ t.kind = .comma) : t.stop.line = t.start.line := by
  obtain ⟨offset, p, c, cs, rfl⟩ :=
    (tokens_scans text).exists_scanned among (by rcases kind with h | h <;> rw [h] <;> decide)
  have inLine : InLine (c :: cs.take (scan c cs).extra) := by
    rcases kind with space | comma
    · refine scan_staysInLine c cs ?_
      change (scan c cs).content.kind = _ at space
      rw [space]
      rfl
    · have ends := scan_endsLine c cs
      change (scan c cs).content.kind = _ at comma
      rw [Scan.EndsLine, comma] at ends
      obtain ⟨stays, single⟩ := ends
      rw [single, List.take_zero]
      exact .cons stays (nofun)
  change (p.advance _).line = p.line
  rw [Position.advance_eq, if_pos (lineBreaks_eq_zero.mpr inLine)]

/-- A line feed ends on the next line. -/
theorem line_lt_of_newline {t : Token} {text : String} (among : t ∈ tokens text) (kind : t.kind = .newline) :
    t.start.line < t.stop.line := by
  obtain ⟨offset, p, c, cs, rfl⟩ := (tokens_scans text).exists_scanned among (by rw [kind]; decide)
  have ends := scan_endsLine c cs
  change (scan c cs).content.kind = _ at kind
  rw [Scan.EndsLine, kind] at ends
  change p.line < (p.advance _).line
  have some : lineBreaks (c :: cs.take (scan c cs).extra) ≠ 0 := fun none => by
    rw [lineBreaks_eq_zero.mp none c List.mem_cons_self] at ends
    cases ends
  rw [Position.advance_eq, if_neg some]
  exact Nat.lt_add_of_pos_right (Nat.pos_of_ne_zero some)

/-- Behind a comment the line ends, if the text does not. -/
theorem Scans.behind_comment {t u : Token} {us vs : List Token} (h : Scans offset p cs (us ++ t :: u :: vs))
    (kind : t.kind = .comment ∨ t.kind = .docComment) : u.kind = .newline ∨ u.kind = .eof := by
  induction us generalizing offset p cs with
  | nil =>
    cases h with
    | @cons offset p c cs _ rest =>
      have ends : ∀ d ∈ (cs.drop (scan c cs).extra).head?, Scan.isLineEnd d = true := by
        have ends := scan_endsLine c cs
        unfold Scan.EndsLine at ends
        rcases kind with kind | kind <;> change (scan c cs).content.kind = _ at kind <;> rwa [kind] at ends
      generalize cs.drop (scan c cs).extra = ds at rest ends
      cases rest with
      | nil => exact .inr rfl
      | @cons _ _ d ds _ _ => exact .inl (scan_of_isLineEnd (ends d rfl) ds)
  | cons s us ih =>
    rw [List.cons_append] at h
    generalize all : us ++ t :: u :: vs = ts at h
    cases h with
    | nil => simp at all
    | cons rest => exact ih (all ▸ rest)

end SmithyIdl
