import SmithyIdl.Proofs.Token.Scans

/-! # How the tokens partition a text

The stream of a text ends. Its tokens lie one behind the other from the start of the text to its end, only the last of
them is the end token, and what a token was read as shows in its kind. -/

namespace SmithyIdl

open Token (scanned ending)

/-! ### Values and errors -/

namespace TokenKind

/-- Whether tokens of a kind have a value. -/
def hasValue (k : TokenKind) : Bool := k = string || k = textBlock || k = number

end TokenKind

/-- Tokens that say no more than their kind have neither a value nor an error. -/
def TokenContent.IsProper : TokenContent → Prop
  | plain kind => kind.hasValue = false ∧ kind ≠ .error
  | _ => True

theorem Scan.decoded_isProper {f : String → TokenContent} (h : ∀ value, (f value).IsProper)
    (read : Except LexError (List Char)) : (decoded read f).IsProper := by
  cases read with
  | error cause => trivial
  | ok value => exact h _

theorem Scan.quoted_isProper (cs : List Char) : (quoted cs).content.IsProper := by
  unfold quoted
  split
  · simp only [textBlock]
    split
    · trivial
    · exact decoded_isProper (f := .textBlock) (fun _ => trivial) _
  · simp only [string]
    split
    · trivial
    · exact decoded_isProper (f := .string) (fun _ => trivial) _

theorem scan_isProper (c : Char) (cs : List Char) : (scan c cs).content.IsProper := by
  unfold scan
  split
  case h_11 => split <;> simp [Scan.single, TokenContent.IsProper, TokenKind.hasValue]
  case h_18 =>
    simp only [Scan.comment]
    split
    · split <;> simp [TokenContent.IsProper, TokenKind.hasValue]
    · trivial
  case h_19 => exact Scan.quoted_isProper cs
  case h_20 => split <;> trivial
  case h_21 =>
    split
    · trivial
    · split <;> simp [TokenContent.IsProper, TokenKind.hasValue]
  all_goals simp [Scan.single, TokenContent.IsProper, TokenKind.hasValue]

namespace TokenContent

variable {content : TokenContent}

theorem IsProper.literal? (h : content.IsProper) : content.literal?.isSome = content.kind.hasValue := by
  cases content with
  | plain kind => exact h.1.symm
  | _ => rfl

theorem IsProper.error? (h : content.IsProper) : content.error?.isSome = true ↔ content.kind = .error := by
  cases content with
  | plain kind => simp [TokenContent.error?, TokenContent.kind, h.2]
  | _ => simp [TokenContent.error?, TokenContent.kind]

end TokenContent

/-! ### The stream -/

namespace Lexer

/-- The stream yields the tokens, one call after the other. -/
inductive Yields : Lexer → List Token → Lexer → Prop where
  | nil (l : Lexer) : Yields l [] l
  | cons {l l' l'' : Lexer} {t : Token} {ts : List Token} (next : l.next? = some (t, l')) (rest : Yields l' ts l'') :
      Yields l (t :: ts) l''

/-- Asking for the next token over and over, whether the stream has ended or not. -/
def again (l : Lexer) : Nat → Lexer
  | 0 => l
  | n + 1 => (l.again n).nextToken.2

theorem again_of_nil {l : Lexer} (h : l.rest = []) (n : Nat) : l.again n = l := by
  induction n with
  | zero => rfl
  | succ n ih => rw [again, ih, nextToken, h]

theorem drain_yields (l : Lexer) : l.Yields l.drain.1 l.drain.2 ∧ l.drain.2.next? = none := by
  fun_induction drain l with
  | case1 l none => exact ⟨.nil l, none⟩
  | case2 l t after taken bound ts last rest ih =>
    rw [rest] at ih
    exact ⟨.cons taken ih.1, ih.2⟩

/-- The stream stops behind the end token, where it is asked for that. -/
theorem drain_stops (l : Lexer) (running : l.finished = false) :
    ∃ init, l.drain.1 = init ++ [ending l.drain.2.offset l.drain.2.position] ∧ l.drain.2.rest = [] := by
  fun_induction drain l with
  | case1 l none => simp [next?, running] at none
  | case2 l t after taken bound ts last rest ih =>
    simp only [next?, running, Bool.false_eq_true, if_false, Option.some.injEq, Prod.mk.injEq] at taken
    obtain ⟨rfl, rfl⟩ := taken
    by_cases ended : l.nextToken.1.kind = .eof
    · rw [drain_of_finished (by simpa using ended)] at rest
      cases chars : l.rest with
      | nil =>
        obtain ⟨rfl, rfl⟩ := Prod.mk.inj rest
        refine ⟨[], ?_, ?_⟩
        · simp [nextToken, chars, ending]
        · simp [nextToken, chars]
      | cons c cs =>
        simp only [nextToken, chars] at ended
        exact absurd ended (scan_kind_ne_eof c cs)
    · obtain ⟨init, all, chars⟩ := ih (decide_eq_false ended)
      rw [rest] at all chars
      dsimp only at all chars
      exact ⟨l.nextToken.1 :: init, by rw [all, List.cons_append], chars⟩

end Lexer

/-! ### Ranges -/

/-- The ranges of some tokens lie one behind the other between two offsets. -/
def Contiguous : Nat → List Token → Nat → Prop
  | start, [], stop => start = stop
  | start, t :: ts, stop => t.range.start = start ∧ Contiguous t.range.stop ts stop

namespace Scans

variable {offset : Nat} {p : Position} {cs : List Char} {ts : List Token}

theorem contiguous (h : Scans offset p cs ts) : Contiguous offset ts (offset + byteLength cs) := by
  induction h with
  | nil offset p => exact ⟨rfl, rfl⟩
  | @cons offset p c cs ts _ ih =>
    have all : byteLength (c :: cs) =
        byteLength (c :: cs.take (scan c cs).extra) + byteLength (cs.drop (scan c cs).extra) := by
      rw [← byteLength_append, List.cons_append, List.take_append_drop]
    refine ⟨rfl, ?_⟩
    rw [all, ← Nat.add_assoc]
    exact ih

theorem start_lt (h : Scans offset p cs ts) {t : Token} (among : t ∈ ts) (other : t.kind ≠ .eof) :
    t.range.start < t.range.stop := by
  obtain ⟨offset, p, c, cs, rfl⟩ := h.exists_scanned among other
  have wide := c.utf8Size_pos
  simp only [scanned, byteLength]
  omega

theorem isProper (h : Scans offset p cs ts) {t : Token} (among : t ∈ ts) : t.content.IsProper := by
  induction h with
  | nil offset p =>
    obtain rfl := List.mem_singleton.mp among
    simp [ending, TokenContent.IsProper, TokenKind.hasValue]
  | @cons offset p c cs ts _ ih =>
    rcases List.mem_cons.mp among with rfl | among
    · exact scan_isProper c cs
    · exact ih among

end Scans

/-- The stream of a text ends. Its tokens lie one behind the other from the start of the text to its end. All but the last
    take up some bytes. The last is the end token, which takes up none; the stream yields nothing behind it, while the
    next token is the end token at the same place however often it is asked for. Strings, text blocks and numbers have
    a value, and no other token has one; what is no token at all has an error, and no other token has one. -/
theorem lexer_partitions (text : String) : ∃ init last l,
    (Lexer.ofText text).Yields (init ++ [last]) l ∧ l.next? = none ∧ (∀ n, (l.again n).nextToken.1 = last) ∧
    tokens text = init ++ [last] ∧ Contiguous 0 (init ++ [last]) (byteLength text.toList) ∧
    last.kind = .eof ∧ last.range = .empty (byteLength text.toList) ∧
    (∀ t ∈ init, t.kind ≠ .eof ∧ t.range.start < t.range.stop) ∧
    ∀ t ∈ init ++ [last],
      (t.literal?.isSome = true ↔ t.kind = .string ∨ t.kind = .textBlock ∨ t.kind = .number) ∧
      (t.error?.isSome = true ↔ t.kind = .error) := by
  have scans := tokens_scans text
  obtain ⟨yields, stopped⟩ := (Lexer.ofText text).drain_yields
  obtain ⟨init, all, ended⟩ := (Lexer.ofText text).drain_stops rfl
  change tokens text = _ at all
  change (Lexer.ofText text).Yields (tokens text) _ at yields
  rw [all] at yields
  have others : ∀ t ∈ init, t.kind ≠ .eof := by
    obtain ⟨init', stop, all', others⟩ := scans.exists_last
    obtain ⟨rfl, -⟩ := List.append_inj' (all.symm.trans all') rfl
    exact others
  have place : ((Lexer.ofText text).drain.2).offset = byteLength text.toList := by
    obtain ⟨init', stop, all', -⟩ := scans.exists_last
    obtain ⟨-, same⟩ := List.append_inj' (all.symm.trans all') rfl
    have range := congrArg (fun t => t.range.start) (List.singleton_inj.mp same)
    simpa [ending, ByteRange.empty] using range
  refine ⟨init, _, _, yields, stopped, fun n => ?_, all, ?_, rfl, ?_, fun t among => ⟨others t among, ?_⟩,
    fun t among => ?_⟩
  · simp [Lexer.again_of_nil ended, Lexer.nextToken, ended, ending]
  · rw [← all]
    simpa using scans.contiguous
  · rw [← place]
    rfl
  · exact scans.start_lt (all ▸ List.mem_append_left _ among) (others t among)
  · have proper := scans.isProper (all ▸ among)
    refine ⟨?_, proper.error?⟩
    change t.content.literal?.isSome = true ↔ _
    rw [proper.literal?]
    simp [TokenKind.hasValue, Token.kind, or_assoc]

end SmithyIdl
