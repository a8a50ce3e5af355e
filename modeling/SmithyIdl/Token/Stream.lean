import SmithyIdl.Token.Scan

/-!
# The tokens of a text

A lexer stands at an offset of the text and holds the characters from there on. Each step cuts off one
token; at the end of the text it yields the end token, again and again. As a stream it stops after the
first of these.
-/

namespace SmithyIdl

/-- The state of reading a text: the characters to come, where they start, and whether the stream is over. -/
structure Lexer where
  rest : List Char
  offset : Nat
  position : Position
  finished : Bool

namespace Lexer

/-- At the start of a text. -/
def ofText (text : String) : Lexer := ⟨text.toList, 0, .first, false⟩

/-- The next token; at the end of the text, the end token. -/
def nextToken (l : Lexer) : Token × Lexer :=
  match l.rest with
  | [] => (⟨.plain .eof, "", .empty l.offset, l.position, l.position⟩, l)
  | c :: cs =>
    let s := scan c cs
    let lexeme := c :: cs.take s.extra
    let offset := l.offset + byteLength lexeme
    let position := l.position.advance lexeme
    (⟨s.content, .ofList lexeme, ⟨l.offset, offset⟩, l.position, position⟩,
      { l with rest := cs.drop s.extra, offset, position })

/-- The next token of the stream, which ends behind the first end token. -/
def next? (l : Lexer) : Option (Token × Lexer) :=
  if l.finished then none
  else
    match l.nextToken with
    | (t, after) => some (t, { after with finished := t.kind = .eof })

/-- How often the stream can still yield, at most. -/
def bound (l : Lexer) : Nat := if l.finished then 0 else l.rest.length + 1

theorem bound_lt {l after : Lexer} {t : Token} (h : l.next? = some (t, after)) : after.bound < l.bound := by
  unfold next? at h
  split at h
  · simp at h
  · next running =>
    simp only [Option.some.injEq, Prod.mk.injEq] at h
    obtain ⟨token, state⟩ := h
    subst state
    simp only [bound, running, Bool.false_eq_true, if_false]
    unfold nextToken at token ⊢
    split
    · next none_left =>
      simp only [none_left] at token
      simp [Token.kind, TokenContent.kind]
    · next c cs some_left =>
      simp only [some_left, List.length_cons, List.length_drop]
      split <;> omega

/-- All tokens of the stream, and the state behind them. -/
def drain (l : Lexer) : List Token × Lexer :=
  match h : l.next? with
  | none => ([], l)
  | some (t, after) =>
    have := bound_lt h
    let (ts, last) := drain after
    (t :: ts, last)
termination_by l.bound

end Lexer

/-- The tokens of a text, the end token last. -/
def tokens (text : String) : List Token := (Lexer.ofText text).drain.1

end SmithyIdl
