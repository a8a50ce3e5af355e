import SmithyIdl.Proofs.Token.Stream

/-! # Scans of a text

The stream of a text is one scan behind the other, each from where the last one stopped. `Scans` says so of the
characters to come, with their offset and position, and of the tokens that they are cut into. -/

namespace SmithyIdl

namespace Token

/-- The token that is read at a place, when the character `c` comes and then `cs`. -/
def scanned (offset : Nat) (p : Position) (c : Char) (cs : List Char) : Token :=
  let piece := c :: cs.take (scan c cs).extra
  ⟨(scan c cs).content, .ofList piece, ⟨offset, offset + byteLength piece⟩, p, p.advance piece⟩

/-- The end token at a place. -/
def ending (offset : Nat) (p : Position) : Token := ⟨.plain .eof, "", .empty offset, p, p⟩

variable {offset : Nat} {p : Position} {c : Char} {cs : List Char}

theorem scanned_lexeme : (scanned offset p c cs).lexeme.toList = c :: cs.take (scan c cs).extra := String.toList_ofList

theorem scanned_kind_ne_eof : (scanned offset p c cs).kind ≠ .eof := scan_kind_ne_eof c cs

end Token

open Token (scanned ending)

/-- The characters that come at an offset and a position are cut into the tokens. -/
inductive Scans : Nat → Position → List Char → List Token → Prop where
  | nil (offset : Nat) (p : Position) : Scans offset p [] [ending offset p]
  | cons {offset : Nat} {p : Position} {c : Char} {cs : List Char} {ts : List Token}
      (rest : Scans (scanned offset p c cs).range.stop (scanned offset p c cs).stop (cs.drop (scan c cs).extra) ts) :
      Scans offset p (c :: cs) (scanned offset p c cs :: ts)

variable {offset : Nat} {p : Position} {cs : List Char} {ts : List Token}

namespace Lexer

/-- Behind the next token, the stream goes on unless this was the end token. -/
theorem drain_of_running {l : Lexer} (running : l.finished = false) :
    l.drain.1 = l.nextToken.1 ::
      (Lexer.mk l.nextToken.2.rest l.nextToken.2.offset l.nextToken.2.position
        (l.nextToken.1.kind = TokenKind.eof)).drain.1 := by
  rw [drain]
  split
  · next none => simp [next?, running] at none
  · next t after taken =>
    simp only [next?, running, Bool.false_eq_true, if_false, Option.some.injEq, Prod.mk.injEq] at taken
    obtain ⟨rfl, rfl⟩ := taken
    rfl

/-- Before the end of the text, the stream goes on behind the token that is read. -/
theorem drain_cons (c : Char) (cs : List Char) (offset : Nat) (p : Position) :
    (Lexer.mk (c :: cs) offset p false).drain.1 = scanned offset p c cs ::
      (Lexer.mk (cs.drop (scan c cs).extra) (scanned offset p c cs).range.stop (scanned offset p c cs).stop false).drain.1 := by
  have goesOn : decide ((scanned offset p c cs).kind = .eof) = false := decide_eq_false Token.scanned_kind_ne_eof
  rw [drain_of_running rfl, ← goesOn]
  rfl

theorem drain_scans (cs : List Char) (offset : Nat) (p : Position) :
    Scans offset p cs (Lexer.mk cs offset p false).drain.1 := by
  induction length : cs.length using Nat.strongRecOn generalizing cs offset p with
  | ind n ih =>
    cases cs with
    | nil =>
      rw [drain_of_running rfl, drain_of_finished (by rfl)]
      exact .nil offset p
    | cons c cs =>
      have shorter : (cs.drop (scan c cs).extra).length < n := by
        simp only [← length, List.length_drop, List.length_cons]
        omega
      rw [drain_cons]
      exact .cons (ih _ shorter _ _ _ rfl)

end Lexer

theorem tokens_scans (text : String) : Scans 0 .first text.toList (tokens text) := Lexer.drain_scans _ _ _

namespace Scans

/-- There is one way to cut the characters. -/
theorem unique {us : List Token} (h : Scans offset p cs ts) (h' : Scans offset p cs us) : ts = us := by
  induction h generalizing us with
  | nil =>
    cases h'
    rfl
  | cons _ ih =>
    cases h' with
    | cons rest => rw [ih rest]

/-- Every token but the end token is a scan. -/
theorem exists_scanned (h : Scans offset p cs ts) {t : Token} (among : t ∈ ts) (other : t.kind ≠ .eof) :
    ∃ offset p c cs, t = scanned offset p c cs := by
  induction h with
  | nil offset p =>
    obtain rfl := List.mem_singleton.mp among
    exact absurd rfl other
  | @cons offset p c cs ts _ ih =>
    rcases List.mem_cons.mp among with rfl | among
    · exact ⟨offset, p, c, cs, rfl⟩
    · exact ih among

/-- The end token comes last, and only there. -/
theorem exists_last (h : Scans offset p cs ts) :
    ∃ init stop, ts = init ++ [ending (offset + byteLength cs) stop] ∧ ∀ t ∈ init, t.kind ≠ .eof := by
  induction h with
  | nil offset p => exact ⟨[], p, rfl, nofun⟩
  | @cons offset p c cs ts _ ih =>
    obtain ⟨init, stop, rfl, others⟩ := ih
    refine ⟨scanned offset p c cs :: init, stop, ?_, ?_⟩
    · have all : byteLength (c :: cs) =
          byteLength (c :: cs.take (scan c cs).extra) + byteLength (cs.drop (scan c cs).extra) := by
        rw [← byteLength_append, List.cons_append, List.take_append_drop]
      rw [all, ← Nat.add_assoc]
      rfl
    · intro t among
      rcases List.mem_cons.mp among with rfl | among
      · exact Token.scanned_kind_ne_eof
      · exact others t among

/-- Every token but the end token takes a byte. -/
theorem length_le (h : Scans offset p cs ts) : ts.length ≤ byteLength cs + 1 := by
  induction h with
  | nil offset p => exact Nat.le_refl _
  | @cons offset p c cs ts _ ih =>
    have wide := c.utf8Size_pos
    have cut : byteLength cs = byteLength (cs.take (scan c cs).extra) + byteLength (cs.drop (scan c cs).extra) := by
      rw [← byteLength_append, List.take_append_drop]
    rw [List.length_cons, byteLength]
    omega

end Scans

end SmithyIdl
