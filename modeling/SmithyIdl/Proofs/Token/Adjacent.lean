import SmithyIdl.Proofs.Token.Places
import SmithyIdl.Proofs.Token.Scans

/-! # Tokens next to each other

An identifier takes all characters that it could go on with, so no other identifier stands right behind it. -/

namespace SmithyIdl

open Token (scanned)

variable {offset : Nat} {p : Position} {c : Char} {cs : List Char}

/-- An identifier starts with a letter or an underscore and takes all characters that may follow. -/
theorem scan_identifier (h : (scan c cs).content.kind = .identifier) :
    Scan.isNameStart c = true ∧ (scan c cs).extra = (cs.takeWhile Scan.isNamePart).length := by
  unfold scan at h ⊢
  split at h
  case h_11 => split at h <;> cases h
  case h_18 => rcases Scan.comment_kind cs with kind | kind | kind <;> cases h.symm.trans kind
  case h_19 => rcases Scan.quoted_kind cs with kind | kind | kind <;> cases h.symm.trans kind
  case h_20 => split at h <;> cases h
  case h_21 =>
    split at h
    · cases h
    · next noDigit =>
      split at h
      · next starts =>
        rw [if_neg noDigit, if_pos starts]
        exact ⟨starts, rfl⟩
      · cases h
  all_goals cases h

theorem isNamePart_of_isNameStart (h : Scan.isNameStart c = true) : Scan.isNamePart c = true := by
  simp only [Scan.isNameStart, Scan.isNamePart, Char.isAlphanum, Bool.or_eq_true] at h ⊢
  exact h.imp_left .inl

/-- Behind the longest run of a class a character of another class comes. -/
theorem not_of_drop_takeWhile {p : Char → Bool} {d : Char} {ds : List Char}
    (left : cs.drop (cs.takeWhile p).length = d :: ds) : p d = false := by
  induction cs with
  | nil => cases left
  | cons c cs ih =>
    cases among : p c with
    | false =>
      rw [List.takeWhile_cons_of_neg (by simp [among]), List.length_nil, List.drop_zero] at left
      exact (List.cons.inj left).1 ▸ among
    | true =>
      rw [List.takeWhile_cons_of_pos among, List.length_cons, List.drop_succ_cons] at left
      exact ih left

/-- Behind an identifier no identifier comes. -/
theorem Scans.not_adjacent {t u : Token} {us vs : List Token} (h : Scans offset p cs (us ++ t :: u :: vs))
    (first : t.kind = .identifier) : u.kind ≠ .identifier := by
  induction us generalizing offset p cs with
  | nil =>
    intro second
    cases h with
    | @cons offset p c cs _ rest =>
      have taken := (scan_identifier first).2
      rw [taken] at rest
      generalize left : cs.drop (cs.takeWhile Scan.isNamePart).length = ds at rest
      cases rest with
      | nil => cases second
      | @cons _ _ d ds _ _ =>
        have goesOn := isNamePart_of_isNameStart (scan_identifier second).1
        rw [not_of_drop_takeWhile left] at goesOn
        cases goesOn
  | cons s us ih =>
    rw [List.cons_append] at h
    generalize all : us ++ t :: u :: vs = ts at h
    cases h with
    | nil => simp at all
    | cons rest => exact ih (all ▸ rest)

/-- Of two tokens next to each other only one is an identifier. -/
theorem tokens_not_adjacent {text : String} {i : Nat} {t u : Token} (place : (tokens text)[i]? = some t)
    (place' : (tokens text)[i + 1]? = some u) (first : t.kind = .identifier) : u.kind ≠ .identifier := by
  have scans := tokens_scans text
  rw [split_pair place place', List.append_assoc, List.singleton_append] at scans
  exact scans.not_adjacent first

end SmithyIdl
