import Mathlib.Data.List.Forall2
import SmithyIdl.Proofs.Token.Places
import SmithyIdl.Proofs.Token.Scans

/-! # Reading from another place

How the characters from some place on are cut into tokens depends on these characters alone. In another text they give
the same tokens, all of them the same number of bytes and lines away, as long as they begin in the same column. -/

namespace SmithyIdl

theorem rel_getElem? {α β : Type} {R : α → β → Prop} {l : List α} {l' : List β} (h : List.Forall₂ R l l') (k : Nat) :
    Option.Rel R l[k]? l'[k]? := by
  induction h generalizing k with
  | nil => exact .none
  | cons first _ ih =>
    cases k with
    | zero => exact .some first
    | succ k => exact ih k

/-- How far away something stands in another text. Columns are never different. -/
structure Displacement where
  bytes : Int
  lines : Int

namespace Displacement

variable (d : Displacement)

/-- An offset and where it is moved to. -/
def Offsets (o o' : Nat) : Prop := (o' : Int) = o + d.bytes

/-- A position and where it is moved to. Lines are moved as a whole. -/
structure Positions (p p' : Position) : Prop where
  line : (p'.line : Int) = p.line + d.lines
  column : p'.column = p.column

/-- A range and where it is moved to. -/
structure Ranges (r r' : ByteRange) : Prop where
  start : d.Offsets r.start r'.start
  stop : d.Offsets r.stop r'.stop

/-- The same token, elsewhere. -/
structure Tokens (t t' : Token) : Prop where
  content : t'.content = t.content
  lexeme : t'.lexeme = t.lexeme
  range : d.Ranges t.range t'.range
  start : d.Positions t.start t'.start
  stop : d.Positions t.stop t'.stop

/-- The same characters to come, elsewhere. -/
structure Lexers (l l' : Lexer) : Prop where
  rest : l'.rest = l.rest
  offset : d.Offsets l.offset l'.offset
  position : d.Positions l.position l'.position
  finished : l'.finished = l.finished

variable {d} {p p' : Position} {o o' : Nat} {t t' : Token} {l l' : Lexer}

theorem Offsets.empty (h : d.Offsets o o') : d.Ranges (.empty o) (.empty o') := ⟨h, h⟩

theorem Offsets.add (h : d.Offsets o o') (n : Nat) : d.Offsets (o + n) (o' + n) := by
  unfold Offsets at h ⊢
  omega

theorem Positions.nextLine (h : d.Positions p p') : d.Positions p.nextLine p'.nextLine where
  line := by
    have line := h.line
    change ((p'.line + 1 : Nat) : Int) = (p.line + 1 : Nat) + d.lines
    omega
  column := rfl

/-- Reading on from the same column. -/
theorem Positions.advance (h : d.Positions p p') (cs : List Char) : d.Positions (p.advance cs) (p'.advance cs) := by
  fun_induction Position.advance p cs generalizing p' with
  | case1 => exact h
  | case2 p cs ih => exact ih h.nextLine
  | case3 p c cs pair ends ih =>
    rw [Position.advance.eq_3 p' c cs pair, if_pos ends]
    exact ih h.nextLine
  | case4 p c cs pair inside ih =>
    rw [Position.advance.eq_3 p' c cs pair, if_neg inside]
    exact ih ⟨h.line, congrArg (· + c.utf8Size) h.column⟩

theorem Tokens.kind_eq (h : d.Tokens t t') : t'.kind = t.kind := congrArg TokenContent.kind h.content

theorem Tokens.describe_eq (h : d.Tokens t t') : t'.describe = t.describe := by
  rw [Token.describe, Token.describe, h.kind_eq, h.lexeme]

theorem Lexers.nextToken (h : d.Lexers l l') :
    d.Tokens l.nextToken.1 l'.nextToken.1 ∧ d.Lexers l.nextToken.2 l'.nextToken.2 := by
  unfold Lexer.nextToken
  rw [h.rest]
  cases rest : l.rest with
  | nil => exact ⟨⟨rfl, rfl, h.offset.empty, h.position, h.position⟩, h⟩
  | cons c cs =>
    have offset := h.offset.add (byteLength (c :: cs.take (scan c cs).extra))
    have position := h.position.advance (c :: cs.take (scan c cs).extra)
    exact ⟨⟨rfl, rfl, ⟨h.offset, offset⟩, h.position, position⟩, ⟨rfl, offset, position, h.finished⟩⟩

end Displacement

namespace Lexer

variable {l : Lexer} {t : Token} {ts us : List Token} {cs : List Char}

/-- The next token takes some characters, maybe none at the end. -/
theorem exists_piece (l : Lexer) : ∃ piece, l.rest = piece ++ l.nextToken.2.rest ∧
    l.nextToken.2.offset = l.offset + byteLength piece := by
  unfold nextToken
  cases rest : l.rest with
  | nil => exact ⟨[], rest.symm, rfl⟩
  | cons c cs => exact ⟨c :: cs.take (scan c cs).extra, by simp, rfl⟩

/-- What is read somewhere in the stream is read by a lexer that starts there. -/
theorem exists_drain (h : l.drain.1 = us ++ t :: ts) : ∃ (before : List Char) (l' : Lexer), l.rest = before ++ l'.rest ∧
    l'.finished = false ∧ byteLength before + l.offset = t.range.start ∧ l'.offset = t.range.start ∧
    l'.position = t.start ∧ l'.drain.1 = t :: ts := by
  induction us generalizing l with
  | nil =>
    have running : l.finished = false := eq_false_of_ne_true fun ended => by
      rw [drain_of_finished ended] at h
      cases h
    obtain ⟨rfl, -⟩ := List.cons.inj ((drain_of_running running).symm.trans h)
    have place : l.nextToken.1.range.start = l.offset ∧ l.nextToken.1.start = l.position := by
      unfold nextToken
      cases l.rest <;> exact ⟨rfl, rfl⟩
    exact ⟨[], l, rfl, running, by rw [place.1, byteLength, Nat.zero_add], place.1.symm, place.2.symm, h⟩
  | cons u us ih =>
    have running : l.finished = false := eq_false_of_ne_true fun ended => by
      rw [drain_of_finished ended] at h
      cases h
    obtain ⟨-, h⟩ := List.cons.inj ((drain_of_running running).symm.trans h)
    obtain ⟨before, l', rest, running', start, others⟩ := ih h
    obtain ⟨piece, cut, offset⟩ := l.exists_piece
    dsimp only at rest start
    refine ⟨piece ++ before, l', ?_, running', ?_, others⟩
    · rw [cut, rest, List.append_assoc]
    · rw [byteLength_append, ← start, offset]
      omega

end Lexer

/-- A lexer elsewhere reads the same tokens. -/
theorem Displacement.Lexers.drain {d : Displacement} {l l' : Lexer} (h : d.Lexers l l') :
    List.Forall₂ d.Tokens l.drain.1 l'.drain.1 := by
  induction bound : l.bound using Nat.strongRecOn generalizing l l' with
  | ind n ih =>
    by_cases ended : l.finished = true
    · rw [Lexer.drain_of_finished ended, Lexer.drain_of_finished (h.finished.trans ended)]
      exact .nil
    · have running := eq_false_of_ne_true ended
      obtain ⟨same, after⟩ := h.nextToken
      rw [Lexer.drain_of_running running, Lexer.drain_of_running (h.finished.trans running)]
      refine .cons same (ih _ ?_ ⟨after.rest, after.offset, after.position, by rw [same.kind_eq]⟩ rfl)
      exact bound ▸ Lexer.bound_lt (t := l.nextToken.1) (by rw [Lexer.next?, if_neg ended])

end SmithyIdl
