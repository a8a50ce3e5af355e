import SmithyIdl.Proofs.Schema.Rows
import SmithyIdl.Proofs.Token.Trivia

/-! # Trails of trivia

Behind the last token of a statement or a member comes trivia, up to the first token of the next one. The documentation
comments in it that begin on a later line belong to what comes. Where they begin is said by the numbers of tokens
(`Trail`). -/

namespace SmithyIdl

/-- The token with a number. -/
def tokenAt (ts : Array Token) (i : TokenId) : Token := ts[i]?.getD .nothing

/-- The token `m` is a documentation comment on a later line than that in which the token `j` ends. -/
def IsLate (ts : Array Token) (j m : TokenId) : Prop :=
  kindAt ts m = .docComment ∧ (tokenAt ts j).stop.line < (tokenAt ts m).start.line

/-- Between the tokens `j` and `i` there is trivia only. From `k` on it is for what comes, and then begins with a
    documentation comment; before, no such comment is on a later line than `j`, unless `j` is an opening brace, behind
    which none is for what comes. -/
structure Trail (ts : Array Token) (j k i : TokenId) : Prop where
  before : j < k
  upTo : k ≤ i
  last : (kindAt ts j).isTrivia = false
  trivia : ∀ m, j < m → m < i → (kindAt ts m).isTrivia = true
  begins : k < i → kindAt ts k = .docComment
  opens : kindAt ts j = .lbrace → k = i
  none : kindAt ts j ≠ .lbrace → ∀ m, j < m → m < k → ¬ IsLate ts j m

/-! ### Lines -/

section
variable {text : String} {i j k m : TokenId}

theorem tokenAt_of_getElem? {t : Token} (found : (tokens text)[i]? = some t) :
    tokenAt (tokens text).toArray i = t := by
  rw [tokenAt, List.getElem?_toArray, found]
  rfl

theorem exists_tokenAt (made : i < (tokens text).length) :
    (tokens text)[i]? = some (tokenAt (tokens text).toArray i) := by
  rw [tokenAt, List.getElem?_toArray, List.getElem?_eq_getElem made]
  rfl

theorem tokenAt_mem (made : i < (tokens text).length) : tokenAt (tokens text).toArray i ∈ tokens text :=
  List.mem_of_getElem? (exists_tokenAt made)

theorem lt_of_kindAt (other : kindAt (tokens text).toArray i ≠ .eof) : i < (tokens text).length := by
  refine Nat.lt_of_not_le fun out => other ?_
  rw [kindAt, List.getElem?_toArray, List.getElem?_eq_none out]
  rfl

/-- Only the last token is the end token. -/
theorem kindAt_ne_eof (made : i + 1 < (tokens text).length) : kindAt (tokens text).toArray i ≠ .eof := by
  obtain ⟨init, stop, all, others⟩ := (tokens_scans text).exists_last
  have found := exists_tokenAt (Nat.lt_of_succ_lt made)
  have inside : i < init.length := by
    rw [all, List.length_append, List.length_singleton] at made
    exact Nat.lt_of_succ_lt_succ made
  refine others _ (List.mem_of_getElem? (i := i) ?_)
  rw [← List.getElem?_append_left inside, ← all]
  exact found

/-- A token ends where the next one starts. -/
theorem stop_tokenAt (made : i + 1 < (tokens text).length) :
    (tokenAt (tokens text).toArray i).stop = (tokenAt (tokens text).toArray (i + 1)).start := by
  have follow := tokens_follow text
  rw [split_pair (exists_tokenAt (Nat.lt_of_succ_lt made)) (exists_tokenAt made)] at follow
  exact follow.append.1.last.1.trans follow.append.2.first.1.symm

theorem start_line_le (made : i + 1 < (tokens text).length) :
    (tokenAt (tokens text).toArray i).start.line ≤ (tokenAt (tokens text).toArray i).stop.line := by
  have wide := start_lt_stop (tokenAt_mem (Nat.lt_of_succ_lt made)) (kindAt_ne_eof made)
  rcases Position.lt_iff.mp wide with less | ⟨same, -⟩
  · exact Nat.le_of_lt less
  · exact Nat.le_of_eq same

/-- What comes later starts in no earlier line. -/
theorem stop_line_le (later : i < m) (made : m < (tokens text).length) :
    (tokenAt (tokens text).toArray i).stop.line ≤ (tokenAt (tokens text).toArray m).start.line := by
  induction m with
  | zero => exact absurd later (Nat.not_lt_zero i)
  | succ m ih =>
    rcases Nat.lt_succ_iff_lt_or_eq.mp later with before | rfl
    · rw [← stop_tokenAt made]
      exact Nat.le_trans (ih before (Nat.lt_of_succ_lt made)) (start_line_le made)
    · rw [stop_tokenAt made]

/-- Behind spaces and commas the line is the same. -/
theorem start_line_of_spaces (later : j < m) (made : m < (tokens text).length)
    (spaces : ∀ n, j < n → n < m → kindAt (tokens text).toArray n = .space ∨ kindAt (tokens text).toArray n = .comma) :
    (tokenAt (tokens text).toArray m).start.line = (tokenAt (tokens text).toArray j).stop.line := by
  induction m with
  | zero => exact absurd later (Nat.not_lt_zero j)
  | succ m ih =>
    rw [← stop_tokenAt made]
    rcases Nat.lt_succ_iff_lt_or_eq.mp later with before | rfl
    · have space := line_of_space (tokenAt_mem (Nat.lt_of_succ_lt made)) (spaces m before (Nat.lt_succ_self m))
      rw [space, ih before (Nat.lt_of_succ_lt made) fun n hj hn => spaces n hj (Nat.lt_succ_of_lt hn)]
    · rfl

/-- Behind spaces and the token that ends the line, a later line has begun. -/
theorem stop_line_lt (later : j < m) (behind : m < k) (made : k < (tokens text).length)
    (spaces : ∀ n, j < n → n < m → kindAt (tokens text).toArray n = .space ∨ kindAt (tokens text).toArray n = .comma)
    (ends : kindAt (tokens text).toArray m ∈ [TokenKind.newline, .comment, .docComment])
    (other : kindAt (tokens text).toArray k ≠ .newline ∧ kindAt (tokens text).toArray k ≠ .eof) :
    (tokenAt (tokens text).toArray j).stop.line < (tokenAt (tokens text).toArray k).start.line := by
  have inside : m < (tokens text).length := Nat.lt_trans behind made
  rw [← start_line_of_spaces later inside spaces]
  -- A line feed ends the line, be it the token itself or the one behind a comment.
  have feed {n : TokenId} (before : n < k) (kind : kindAt (tokens text).toArray n = .newline) :
      (tokenAt (tokens text).toArray n).start.line < (tokenAt (tokens text).toArray k).start.line :=
    Nat.lt_of_lt_of_le (line_lt_of_newline (tokenAt_mem (Nat.lt_trans before made)) kind) (stop_line_le before made)
  rcases List.mem_cons.mp ends with newline | comment
  · exact feed behind newline
  · have next : m + 1 < (tokens text).length := Nat.lt_of_le_of_lt behind made
    have scans := tokens_scans text
    rw [split_pair (exists_tokenAt inside) (exists_tokenAt next), List.append_assoc, List.singleton_append] at scans
    have kind : kindAt (tokens text).toArray m = .comment ∨ kindAt (tokens text).toArray m = .docComment := by
      simpa using comment
    have goesOn := scans.behind_comment kind
    have ne : k ≠ m + 1 := by
      rintro rfl
      exact goesOn.elim other.1 other.2
    have before : m + 1 < k := Nat.lt_of_le_of_ne behind ne.symm
    have feed' := feed before (goesOn.resolve_right (kindAt_ne_eof (Nat.lt_of_le_of_lt before made)))
    rw [← stop_tokenAt next] at feed'
    exact Nat.lt_of_le_of_lt (start_line_le next) feed'

end

/-! ### Stretches -/

section
variable {α : Type} {l : List α} {i j k : Nat} {a b : α}

theorem mem_extract (h : a ∈ l.extract k i) : ∃ m, k ≤ m ∧ m < i ∧ l[m]? = some a := by
  obtain ⟨m, inside, rfl⟩ := List.getElem_of_mem h
  rw [List.extract_eq_take_drop] at inside
  have short := List.length_take_le (i - k) (l.drop k)
  refine ⟨k + m, Nat.le_add_right k m, by omega, ?_⟩
  simp [List.extract_eq_take_drop]

theorem map_extract (made : i ≤ l.length) : (List.range' k (i - k)).map (l[·]?) = (l.extract k i).map some := by
  rw [List.extract_eq_take_drop]
  refine List.ext_getElem? fun m => ?_
  by_cases inside : m < i - k
  · have here : k + m < l.length := by omega
    simp [inside, List.getElem?_eq_getElem here]
  · simp [inside]

/-- A list is cut at two of its items. -/
theorem cut_between (ha : l[j]? = some a) (hb : l[i]? = some b) (less : j < i) :
    l = l.take j ++ a :: l.extract (j + 1) i ++ b :: l.drop (i + 1) := by
  obtain ⟨first, rfl⟩ := List.getElem?_eq_some_iff.mp ha
  obtain ⟨second, rfl⟩ := List.getElem?_eq_some_iff.mp hb
  have rest : l.drop i = (l.drop (j + 1)).drop (i - (j + 1)) := by rw [List.drop_drop, Nat.add_sub_cancel' less]
  rw [← List.drop_eq_getElem_cons second, rest, List.extract_eq_take_drop, List.append_assoc, List.cons_append,
    List.take_append_drop, ← List.drop_eq_getElem_cons first, List.take_append_drop]

theorem extract_append (le : j ≤ k) (le' : k ≤ i) : l.extract j k ++ l.extract k i = l.extract j i := by
  have behind : l.drop k = (l.drop j).drop (k - j) := by rw [List.drop_drop, Nat.add_sub_cancel' le]
  have both : i - j = (k - j) + (i - k) := by omega
  rw [List.extract_eq_take_drop, List.extract_eq_take_drop, List.extract_eq_take_drop, behind, both, List.take_add]

end

end SmithyIdl
