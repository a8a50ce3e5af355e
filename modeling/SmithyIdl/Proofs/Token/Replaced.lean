import SmithyIdl.Proofs.Token.Displaced

/-! # A text with one token replaced

Where two texts have the same tokens but for one, those before it stand where they did. Those behind it are moved; from
one on that is in the same column in both texts, all are moved by the same amounts. -/

namespace SmithyIdl

/-- The same content and characters, wherever the token stands. -/
structure Token.Same (t t' : Token) : Prop where
  content : t'.content = t.content
  lexeme : t'.lexeme = t.lexeme

instance Token.decidableSame : DecidableRel Token.Same := fun t t' =>
  decidable_of_iff (t'.content = t.content ∧ t'.lexeme = t.lexeme) ⟨fun h => ⟨h.1, h.2⟩, fun h => ⟨h.content, h.lexeme⟩⟩

/-- The tokens of the second text are those of the first one, but for the token `k`. -/
structure ReplacesToken (text text' : String) (k : Nat) : Prop where
  made : k < (tokens text).length
  made' : k < (tokens text').length
  before : List.Forall₂ Token.Same ((tokens text).take k) ((tokens text').take k)
  behind : List.Forall₂ Token.Same ((tokens text).drop (k + 1)) ((tokens text').drop (k + 1))

instance (text text' : String) (k : Nat) : Decidable (ReplacesToken text text' k) :=
  decidable_of_iff (k < (tokens text).length ∧ k < (tokens text').length ∧
    List.Forall₂ Token.Same ((tokens text).take k) ((tokens text').take k) ∧
    List.Forall₂ Token.Same ((tokens text).drop (k + 1)) ((tokens text').drop (k + 1)))
    ⟨fun ⟨made, made', before, behind⟩ => ⟨made, made', before, behind⟩, fun h => ⟨h.made, h.made', h.before, h.behind⟩⟩

/-! ### Places -/

namespace Scans

variable {d : Displacement} {o o' : Nat} {p p' : Position} {cs cs' : List Char} {t : Token} {us us' ts ts' : List Token}

/-- The first token begins where the characters do, and the others come right behind it. -/
theorem first (h : Scans o p cs (t :: ts)) : t.range = ⟨o, o + byteLength t.lexeme.toList⟩ ∧ t.start = p ∧
    t.stop = p.advance t.lexeme.toList ∧ (ts = [] ∨ ∃ rest, Scans t.range.stop t.stop rest ts) := by
  cases h with
  | nil => exact ⟨rfl, rfl, rfl, .inl rfl⟩
  | cons rest =>
    refine ⟨?_, rfl, ?_, .inr ⟨_, rest⟩⟩
    · rw [Token.scanned_lexeme]
      rfl
    · rw [Token.scanned_lexeme]
      rfl

/-- Every token is the first one of those from it on. -/
theorem exists_drop (h : Scans o p cs ts) {i : Nat} (here : ts[i]? = some t) :
    ∃ rest, Scans t.range.start t.start rest (ts.drop i) := by
  induction i generalizing o p cs ts with
  | zero =>
    cases ts with
    | nil => cases here
    | cons u us =>
      cases here
      obtain ⟨range, start, -⟩ := h.first
      exact ⟨cs, by rw [range, start]; exact h⟩
  | succ i ih =>
    cases ts with
    | nil => cases here
    | cons u us =>
      obtain ⟨-, -, -, rfl | ⟨rest, scans⟩⟩ := h.first
      · cases here
      · exact ih scans here

/-- Where tokens stand is said by the characters of those before them. -/
theorem displaced (same : List.Forall₂ Token.Same us us') (h : Scans o p cs (us ++ ts))
    (h' : Scans o' p' cs' (us' ++ ts')) (offsets : d.Offsets o o') (positions : d.Positions p p') :
    List.Forall₂ d.Tokens us us' := by
  induction same generalizing o o' p p' cs cs' with
  | nil => exact .nil
  | @cons t t' us us' first rest ih =>
    obtain ⟨range, start, stop, others⟩ := h.first
    obtain ⟨range', start', stop', others'⟩ := h'.first
    have ends : d.Offsets t.range.stop t'.range.stop := by
      rw [range, range', first.lexeme]
      exact offsets.add _
    have advanced : d.Positions t.stop t'.stop := by
      rw [stop, stop', first.lexeme]
      exact positions.advance _
    refine .cons ⟨first.content, first.lexeme, ⟨?_, ends⟩, ?_, advanced⟩ ?_
    · rwa [range, range']
    · rwa [start, start']
    · rcases others with none | ⟨_, scans⟩
      · obtain ⟨rfl, -⟩ := List.append_eq_nil_iff.mp none
        cases rest
        exact .nil
      · rcases others' with none | ⟨_, scans'⟩
        · obtain ⟨rfl, -⟩ := List.append_eq_nil_iff.mp none
          cases rest
          exact .nil
        · exact ih scans scans' ends advanced

end Scans

namespace Displacement

/-- Not moved at all. -/
def zero : Displacement := ⟨0, 0⟩

/-- How far away a token stands from another one. -/
def between (t t' : Token) : Displacement := ⟨t'.range.start - t.range.start, t'.start.line - t.start.line⟩

theorem offsets_zero {o o' : Nat} : zero.Offsets o o' ↔ o' = o := by
  rw [Offsets, zero, Int.add_zero, Int.ofNat_inj]

theorem positions_zero {p p' : Position} : zero.Positions p p' ↔ p' = p := by
  refine ⟨fun h => ?_, fun same => same ▸ ⟨by simp [zero], rfl⟩⟩
  have line := h.line
  have column := h.column
  obtain ⟨_, _⟩ := p
  obtain ⟨_, _⟩ := p'
  simp only [zero, Int.add_zero, Int.ofNat_inj] at line
  exact congrArg₂ Position.mk line column

theorem tokens_zero {t t' : Token} : zero.Tokens t t' ↔ t' = t := by
  refine ⟨fun h => ?_, fun same => ?_⟩
  · have content := h.content
    have lexeme := h.lexeme
    have first := offsets_zero.mp h.range.start
    have last := offsets_zero.mp h.range.stop
    have start := positions_zero.mp h.start
    have stop := positions_zero.mp h.stop
    obtain ⟨_, _, ⟨_, _⟩, _, _⟩ := t
    obtain ⟨_, _, ⟨_, _⟩, _, _⟩ := t'
    dsimp only at *
    subst_vars
    rfl
  · subst same
    exact ⟨rfl, rfl, ⟨offsets_zero.mpr rfl, offsets_zero.mpr rfl⟩, positions_zero.mpr rfl, positions_zero.mpr rfl⟩

variable {t t' : Token}

theorem between_offsets : (between t t').Offsets t.range.start t'.range.start := by
  change (t'.range.start : Int) = t.range.start + (t'.range.start - t.range.start)
  omega

theorem between_positions (column : t'.start.column = t.start.column) : (between t t').Positions t.start t'.start :=
  ⟨by simp only [between]; omega, column⟩

end Displacement

/-! ### Before and behind the token -/

namespace ReplacesToken

variable {text text' : String} {k i : Nat}

theorem exists_parts (h : ReplacesToken text text' k) : ∃ us t vs us' t' vs', tokens text = us ++ t :: vs ∧
    tokens text' = us' ++ t' :: vs' ∧ us.length = k ∧ List.Forall₂ Token.Same us us' ∧ List.Forall₂ Token.Same vs vs' :=
  ⟨_, _, _, _, _, _, by rw [← List.drop_eq_getElem_cons h.made, List.take_append_drop],
    by rw [← List.drop_eq_getElem_cons h.made', List.take_append_drop], List.length_take_of_le (Nat.le_of_lt h.made),
    h.before, h.behind⟩

/-- Before the token there are the same tokens in the same places. -/
theorem getElem?_eq (h : ReplacesToken text text' k) (before : i < k) : (tokens text')[i]? = (tokens text)[i]? := by
  obtain ⟨us, t, vs, us', t', vs', all, all', rfl, same, -⟩ := h.exists_parts
  have stays : List.Forall₂ Displacement.zero.Tokens us us' :=
    Scans.displaced same (all ▸ tokens_scans text) (all' ▸ tokens_scans text') (Displacement.offsets_zero.mpr rfl)
      (Displacement.positions_zero.mpr rfl)
  have equal : us = us' := List.forall₂_eq_eq_eq ▸ stays.imp fun _ _ h => (Displacement.tokens_zero.mp h).symm
  subst equal
  rw [all, all', List.getElem?_append_left before, List.getElem?_append_left before]

theorem length_eq (h : ReplacesToken text text' k) : (tokens text').length = (tokens text).length := by
  obtain ⟨us, t, vs, us', t', vs', all, all', -, same, same'⟩ := h.exists_parts
  simp [all, all', same.length_eq, same'.length_eq]

/-- Behind the token the same tokens come. From one on that is in the same column, all are moved by the same amounts. -/
theorem displaced (h : ReplacesToken text text' k) {t t' : Token} (behind : k < i) (here : (tokens text)[i]? = some t)
    (here' : (tokens text')[i]? = some t') (column : t'.start.column = t.start.column) :
    List.Forall₂ (Displacement.between t t').Tokens ((tokens text).drop i) ((tokens text').drop i) := by
  obtain ⟨us, u, vs, us', u', vs', all, all', rfl, before, same⟩ := h.exists_parts
  obtain ⟨j, rfl⟩ := Nat.exists_eq_add_of_lt behind
  have rest : (tokens text).drop (us.length + j + 1) = vs.drop j := by
    rw [all, Nat.add_assoc, List.drop_length_add_append, List.drop_succ_cons]
  have rest' : (tokens text').drop (us.length + j + 1) = vs'.drop j := by
    rw [all', before.length_eq, Nat.add_assoc, List.drop_length_add_append, List.drop_succ_cons]
  obtain ⟨cs, scans⟩ := (tokens_scans text).exists_drop here
  obtain ⟨cs', scans'⟩ := (tokens_scans text').exists_drop here'
  rw [← List.append_nil (List.drop ..), rest] at scans
  rw [← List.append_nil (List.drop ..), rest'] at scans'
  rw [rest, rest']
  exact Scans.displaced (List.forall₂_drop j same) scans scans' Displacement.between_offsets
    (Displacement.between_positions column)

end ReplacesToken

end SmithyIdl
