import SmithyIdl.Proofs.Text.Position
import SmithyIdl.Token.Stream

/-! # The tokens of a text

The tokens cut the text into pieces, each with the range of its bytes, and end with the one end token. The
contents of a closed string or text block are the slice of its token between the quotes. -/

namespace SmithyIdl

/-- Tokens cut characters that start at an offset, and end with the end token. -/
inductive Cuts : Nat → List Char → List Token → Prop where
  | eof {offset : Nat} {t : Token} (kind : t.kind = .eof) (lexeme : t.lexeme = "") (range : t.range = .empty offset) :
      Cuts offset [] [t]
  | cons {offset : Nat} {piece rest : List Char} {t : Token} {ts : List Token} (kind : t.kind ≠ .eof)
      (lexeme : t.lexeme = .ofList piece) (range : t.range = ⟨offset, offset + byteLength piece⟩)
      (cuts : Cuts (offset + byteLength piece) rest ts) : Cuts offset (piece ++ rest) (t :: ts)

namespace Cuts

variable {offset : Nat} {cs : List Char} {ts : List Token}

/-- Only the last token is the end token. -/
theorem exists_last (h : Cuts offset cs ts) :
    ∃ init last, ts = init ++ [last] ∧ last.kind = .eof ∧ last.lexeme = "" ∧ ∀ t ∈ init, t.kind ≠ .eof := by
  induction h with
  | eof kind lexeme range => exact ⟨[], _, rfl, kind, lexeme, nofun⟩
  | @cons offset piece rest t ts kind lexeme range cuts ih =>
    obtain ⟨init, last, rfl, hkind, hlexeme, others⟩ := ih
    refine ⟨t :: init, last, rfl, hkind, hlexeme, fun u hu => ?_⟩
    rcases List.mem_cons.mp hu with rfl | hu
    · exact kind
    · exact others u hu

/-- The pieces make up the text. -/
theorem lexemes (h : Cuts offset cs ts) : ts.flatMap (fun t => t.lexeme.toList) = cs := by
  induction h with
  | eof kind lexeme range => simp [lexeme]
  | cons kind lexeme range cuts ih => simp [lexeme, ih]

/-- No range goes past the end of the text. -/
theorem stop_le (h : Cuts offset cs ts) : ∀ t ∈ ts, t.range.stop ≤ offset + byteLength cs := by
  induction h with
  | eof kind lexeme range =>
    intro u hu
    obtain rfl := List.mem_singleton.mp hu
    rw [range]
    exact Nat.le_add_right ..
  | cons kind lexeme range cuts ih =>
    intro u hu
    rw [byteLength_append, ← Nat.add_assoc]
    rcases List.mem_cons.mp hu with rfl | hu
    · rw [range]
      exact Nat.le_add_right ..
    · exact ih u hu

end Cuts

/-! ### Scanning -/

namespace Scan

theorem decoded_kind_ne_eof {content : String → TokenContent} (h : ∀ value, (content value).kind ≠ .eof)
    (read : Except LexError (List Char)) : (decoded read content).kind ≠ .eof := by
  cases read with
  | error cause => simp [decoded, TokenContent.kind]
  | ok value => exact h _

theorem string_kind_ne_eof (cs : List Char) : (string cs).content.kind ≠ .eof := by
  unfold string
  split
  · simp [TokenContent.kind]
  · exact decoded_kind_ne_eof (by simp [TokenContent.kind]) _

theorem textBlock_kind_ne_eof (cs : List Char) : (textBlock cs).content.kind ≠ .eof := by
  unfold textBlock
  split
  · simp [TokenContent.kind]
  · exact decoded_kind_ne_eof (by simp [TokenContent.kind]) _

theorem quoted_kind_ne_eof (cs : List Char) : (quoted cs).content.kind ≠ .eof := by
  unfold quoted
  split
  · exact textBlock_kind_ne_eof _
  · exact string_kind_ne_eof _

theorem comment_kind_ne_eof (cs : List Char) : (comment cs).content.kind ≠ .eof := by
  unfold comment
  split
  · split <;> simp [TokenContent.kind]
  · simp [TokenContent.kind]

end Scan

/-- What a character starts is not the end token. -/
theorem scan_kind_ne_eof (c : Char) (cs : List Char) : (scan c cs).content.kind ≠ .eof := by
  unfold scan
  split
  case h_11 => split <;> simp [Scan.single, TokenContent.kind]
  case h_18 => exact Scan.comment_kind_ne_eof cs
  case h_19 => exact Scan.quoted_kind_ne_eof cs
  case h_20 => split <;> simp [Scan.number, TokenContent.kind]
  case h_21 =>
    split
    · simp [Scan.number, TokenContent.kind]
    · split <;> simp [TokenContent.kind]
  all_goals simp [Scan.single, TokenContent.kind]

/-! ### The stream -/

namespace Lexer

theorem drain_of_finished {l : Lexer} (h : l.finished = true) : l.drain = ([], l) := by
  rw [drain]
  split
  · rfl
  · next taken => simp [next?, h] at taken

theorem drain_cuts (l : Lexer) (running : l.finished = false) : Cuts l.offset l.rest l.drain.1 := by
  fun_induction drain l with
  | case1 l none => simp [next?, running] at none
  | case2 l t after taken bound ts last rest ih =>
    simp only [next?, running, Bool.false_eq_true, if_false, Option.some.injEq, Prod.mk.injEq] at taken
    obtain ⟨token, state⟩ := taken
    rw [rest] at ih
    cases hrest : l.rest with
    | nil =>
      simp only [nextToken, hrest] at token state
      subst token
      have finished : after.finished = true := by simp [← state, Token.kind, TokenContent.kind]
      rw [drain_of_finished finished, Prod.mk.injEq] at rest
      rw [← rest.1]
      exact .eof rfl rfl rfl
    | cons c cs =>
      simp only [nextToken, hrest] at token state
      have kind : t.kind ≠ .eof := by
        rw [← token]
        exact scan_kind_ne_eof c cs
      have goesOn : after.finished = false := by
        rw [token] at state
        rw [← state]
        exact decide_eq_false kind
      have cuts := ih goesOn
      rw [← List.take_append_drop (scan c cs).extra cs, ← List.cons_append]
      subst token
      subst state
      exact .cons kind rfl rfl cuts

end Lexer

/-- The tokens of a text cut it into pieces. -/
theorem tokens_cuts (text : String) : Cuts 0 text.toList (tokens text) := Lexer.drain_cuts (.ofText text) rfl

/-! ### Contents between quotes -/

namespace Scan

theorem closingQuote?_take {cs : List Char} {n : Nat} (h : closingQuote? cs = some n) :
    ∃ inner, cs.take n = inner ++ ['"'] ∧ n = inner.length + 1 := by
  fun_induction closingQuote? cs generalizing n with
  | case1 => cases h
  | case2 cs =>
    cases h
    exact ⟨[], rfl, rfl⟩
  | case3 c cs ih =>
    obtain ⟨m, hm, rfl⟩ := Option.map_eq_some_iff.mp h
    obtain ⟨inner, taken, rfl⟩ := ih hm
    exact ⟨'\\' :: c :: inner, by simp [List.take_succ_cons, taken], rfl⟩
  | case4 c cs _ _ ih =>
    obtain ⟨m, hm, rfl⟩ := Option.map_eq_some_iff.mp h
    obtain ⟨inner, taken, rfl⟩ := ih hm
    exact ⟨c :: inner, by simp [List.take_succ_cons, taken], rfl⟩

theorem closingQuotes?_take {cs : List Char} {n : Nat} (h : closingQuotes? cs = some n) :
    ∃ inner, cs.take n = inner ++ ['"', '"', '"'] ∧ n = inner.length + 3 := by
  fun_induction closingQuotes? cs generalizing n with
  | case1 => cases h
  | case2 cs =>
    cases h
    exact ⟨[], rfl, rfl⟩
  | case3 c cs ih =>
    obtain ⟨m, hm, rfl⟩ := Option.map_eq_some_iff.mp h
    obtain ⟨inner, taken, rfl⟩ := ih hm
    exact ⟨'\\' :: c :: inner, by simp [List.take_succ_cons, taken], rfl⟩
  | case4 c cs _ _ ih =>
    obtain ⟨m, hm, rfl⟩ := Option.map_eq_some_iff.mp h
    obtain ⟨inner, taken, rfl⟩ := ih hm
    exact ⟨c :: inner, by simp [List.take_succ_cons, taken], rfl⟩

theorem take_inner {cs inner quotes : List Char} {n : Nat} (h : cs.take (inner.length + n) = inner ++ quotes) :
    cs.take inner.length = inner := by
  have := congrArg (List.take inner.length) h
  rwa [List.take_take, Nat.min_eq_left (Nat.le_add_right ..), List.take_left] at this

end Scan

end SmithyIdl
