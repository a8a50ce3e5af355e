import SmithyIdl.Proofs.Text.Position

/-! # Line breaks of two characters

A text with a carriage return before each line feed. Lines are counted alike in both, and what looks at the characters
of a line alone sees no difference. -/

namespace SmithyIdl

/-- With a carriage return before each line feed. -/
def crlf : List Char → List Char
  | [] => []
  | c :: cs => if c = '\n' then '\r' :: '\n' :: crlf cs else c :: crlf cs

/-- A whole text with a carriage return before each line feed. -/
def crlfText (text : String) : String := .ofList (crlf text.toList)

variable {c d : Char} {cs ds : List Char} {n : Nat}

@[simp] theorem crlf_nil : crlf [] = [] := rfl

@[simp] theorem crlf_newline (cs : List Char) : crlf ('\n' :: cs) = '\r' :: '\n' :: crlf cs := rfl

theorem crlf_cons (ne : c ≠ '\n') (cs : List Char) : crlf (c :: cs) = c :: crlf cs := if_neg ne

theorem crlf_append (cs ds : List Char) : crlf (cs ++ ds) = crlf cs ++ crlf ds := by
  induction cs with
  | nil => rfl
  | cons c cs ih =>
    by_cases newline : c = '\n'
    · subst newline
      simp [ih]
    · simp [crlf_cons newline, ih]

theorem crlf_of_not_mem (h : '\n' ∉ cs) : crlf cs = cs := by
  induction cs with
  | nil => rfl
  | cons c cs ih =>
    rw [crlf_cons (List.ne_of_not_mem_cons h).symm, ih (List.not_mem_of_not_mem_cons h)]

/-- No line feed comes without its carriage return. -/
theorem crlf_ne_newline (cs ds : List Char) : crlf cs ≠ '\n' :: ds := by
  cases cs with
  | nil => nofun
  | cons c cs =>
    by_cases newline : c = '\n'
    · subst newline
      simp
    · rw [crlf_cons newline]
      exact fun same => newline (List.cons.inj same).1

theorem crlf_ne_nil (c : Char) (cs : List Char) : crlf (c :: cs) ≠ [] := by
  by_cases newline : c = '\n'
  · subst newline
    nofun
  · rw [crlf_cons newline]
    nofun

theorem crlf_injective : Function.Injective crlf := by
  intro cs
  induction cs with
  | nil =>
    intro ds same
    cases ds with
    | nil => rfl
    | cons d ds => exact absurd same.symm (crlf_ne_nil d ds)
  | cons c cs ih =>
    intro ds same
    cases ds with
    | nil => exact absurd same (crlf_ne_nil c cs)
    | cons d ds =>
      by_cases newline : c = '\n' <;> by_cases newline' : d = '\n'
      · subst newline newline'
        rw [ih (List.cons.inj (List.cons.inj same).2).2]
      · subst newline
        rw [crlf_newline, crlf_cons newline'] at same
        exact absurd (List.cons.inj same).2.symm (crlf_ne_newline ds _)
      · subst newline'
        rw [crlf_newline, crlf_cons newline] at same
        exact absurd (List.cons.inj same).2 (crlf_ne_newline cs _)
      · rw [crlf_cons newline, crlf_cons newline'] at same
        obtain ⟨rfl, rest⟩ := List.cons.inj same
        rw [ih rest]

theorem crlf_eq_cons (h : crlf cs = c :: ds) (ne : c ≠ '\r') : ∃ es, cs = c :: es ∧ crlf es = ds := by
  cases cs with
  | nil => cases h
  | cons d cs =>
    by_cases newline : d = '\n'
    · subst newline
      exact absurd (List.cons.inj h).1.symm ne
    · rw [crlf_cons newline] at h
      obtain ⟨rfl, rfl⟩ := List.cons.inj h
      exact ⟨cs, rfl, rfl⟩

theorem crlf_eq_cons_cons (h : crlf cs = c :: d :: ds) (ne : c ≠ '\r') (ne' : d ≠ '\r') :
    ∃ es, cs = c :: d :: es ∧ crlf es = ds := by
  obtain ⟨es, rfl, behind⟩ := crlf_eq_cons h ne
  obtain ⟨fs, rfl, rest⟩ := crlf_eq_cons behind ne'
  exact ⟨fs, rfl, rest⟩

/-- The characters in front of a place, and those behind it. -/
theorem crlf_take_drop (n : Nat) (cs : List Char) :
    (crlf cs).take (crlf (cs.take n)).length = crlf (cs.take n) ∧
      (crlf cs).drop (crlf (cs.take n)).length = crlf (cs.drop n) := by
  have whole : crlf cs = crlf (cs.take n) ++ crlf (cs.drop n) := by rw [← crlf_append, List.take_append_drop]
  rw [whole]
  exact ⟨List.take_left, List.drop_left⟩

theorem toList_crlfText (text : String) : (crlfText text).toList = crlf text.toList := String.toList_ofList

theorem crlfText_injective : Function.Injective crlfText := fun s s' same => by
  have chars := congrArg String.toList same
  rw [toList_crlfText, toList_crlfText] at chars
  exact String.toList_injective (crlf_injective chars)

theorem crlfText_of_not_mem {s : String} (h : '\n' ∉ s.toList) : crlfText s = s := by
  rw [crlfText, crlf_of_not_mem h, String.ofList_toList]

/-! ### The rest of a line -/

theorem takeWhile_crlf {p : Char → Bool} (newline : p '\n' = false) (ret : p '\r' = false) (cs : List Char) :
    (crlf cs).takeWhile p = cs.takeWhile p := by
  induction cs with
  | nil => rfl
  | cons c cs ih =>
    by_cases break_ : c = '\n'
    · subst break_
      simp [newline, ret]
    · rw [crlf_cons break_, List.takeWhile_cons, List.takeWhile_cons, ih]

theorem head?_crlf (inside : Scan.isLineEnd d = false) (cs : List Char) :
    (crlf cs).head? = some d ↔ cs.head? = some d := by
  cases cs with
  | nil => rfl
  | cons c cs =>
    by_cases newline : c = '\n'
    · subst newline
      simp only [crlf_newline, List.head?_cons, Option.some.injEq]
      constructor <;>
      · rintro rfl
        cases inside
    · rw [crlf_cons newline, List.head?_cons, List.head?_cons]

theorem take_crlf (h : '\n' ∉ cs.take n) : (crlf cs).take n = cs.take n := by
  induction n generalizing cs with
  | zero => rfl
  | succ n ih =>
    cases cs with
    | nil => rfl
    | cons c cs =>
      rw [List.take_succ_cons] at h
      rw [crlf_cons (List.ne_of_not_mem_cons h).symm, List.take_succ_cons, List.take_succ_cons,
        ih (List.not_mem_of_not_mem_cons h)]

theorem drop_crlf (h : '\n' ∉ cs.take n) : (crlf cs).drop n = crlf (cs.drop n) := by
  induction n generalizing cs with
  | zero => rfl
  | succ n ih =>
    cases cs with
    | nil => rfl
    | cons c cs =>
      rw [List.take_succ_cons] at h
      rw [crlf_cons (List.ne_of_not_mem_cons h).symm, List.drop_succ_cons, List.drop_succ_cons,
        ih (List.not_mem_of_not_mem_cons h)]

/-- A line feed comes no earlier than its carriage return. -/
theorem return_mem_take_crlf (h : '\n' ∈ cs.take n) : '\r' ∈ (crlf cs).take n := by
  induction n generalizing cs with
  | zero => cases h
  | succ n ih =>
    cases cs with
    | nil => cases h
    | cons c cs =>
      by_cases newline : c = '\n'
      · subst newline
        exact List.mem_cons_self ..
      · rw [List.take_succ_cons] at h
        rw [crlf_cons newline, List.take_succ_cons]
        exact List.mem_cons_of_mem c (ih (List.mem_of_ne_of_mem (Ne.symm newline) h))

/-! ### Positions -/

/-- Both ways to break a line count as one. -/
theorem Position.advance_crlf (none : '\r' ∉ cs) (p : Position) : p.advance (crlf cs) = p.advance cs := by
  induction cs generalizing p with
  | nil => rfl
  | cons c cs ih =>
    have none' := List.not_mem_of_not_mem_cons none
    have notReturn : c ≠ '\r' := (List.ne_of_not_mem_cons none).symm
    by_cases newline : c = '\n'
    · subst newline
      rw [crlf_newline, Position.advance, ih none', advance_of_end rfl fun same => absurd same notReturn]
    · have inside : Scan.isLineEnd c = false := by simp [Scan.isLineEnd, newline, notReturn]
      rw [crlf_cons newline, advance_of_inside inside, advance_of_inside inside, ih none']

end SmithyIdl
