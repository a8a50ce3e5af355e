import SmithyIdl.Buffer.Basic
import SmithyIdl.Proofs.Text.Width
import SmithyIdl.Proofs.Token.Places
import SmithyIdl.Proofs.Token.Scans

/-! # Lines of a text

Where the lines of a text end can be listed without reading it token by token. The line and the column at an offset
are read off this list, and they are those that the tokens were given on the way. -/

namespace SmithyIdl

variable {cs ds : List Char} {n : Nat}

/-- The offsets behind the line breaks of a text, from the offset `n` on. A carriage return with a line feed behind it is
    one line break. -/
def lineEnds : Nat → List Char → List Nat
  | _, [] => []
  | n, '\r' :: '\n' :: cs => (n + 2) :: lineEnds (n + 2) cs
  | n, c :: cs =>
    if Scan.isLineEnd c then (n + c.utf8Size) :: lineEnds (n + c.utf8Size) cs else lineEnds (n + c.utf8Size) cs

/-- The position at a byte offset of a text: the line counts the line breaks before it, and the column the bytes behind
    the last of them. -/
def Position.ofOffset (cs : List Char) (offset : Nat) : Position :=
  let before := (lineEnds 0 cs).filter (· ≤ offset)
  ⟨1 + before.length, 1 + (offset - before.getLast?.getD 0)⟩

example : Position.ofOffset "a\r\nß\rc".toList 5 = ⟨2, 3⟩ := by decide

/-! ### Line ends and line breaks -/

theorem lineEnds_bounds : ∀ k ∈ lineEnds n cs, n < k ∧ k ≤ n + byteLength cs := by
  fun_induction lineEnds n cs with
  | case1 => simp
  | case2 n cs ih =>
    intro k hk
    have pair : byteLength ('\r' :: '\n' :: cs) = byteLength cs + 2 := by
      simp only [byteLength, show '\r'.utf8Size = 1 from rfl, show '\n'.utf8Size = 1 from rfl]
      omega
    rcases List.mem_cons.mp hk with rfl | hk
    · omega
    · have := ih k hk
      omega
  | case3 n c cs _ _ ih =>
    intro k hk
    have wide := c.utf8Size_pos
    simp only [byteLength]
    rcases List.mem_cons.mp hk with rfl | hk
    · omega
    · have := ih k hk
      omega
  | case4 n c cs _ _ ih =>
    intro k hk
    simp only [byteLength]
    have := ih k hk
    omega

theorem length_lineEnds (n : Nat) (cs : List Char) : (lineEnds n cs).length = lineBreaks cs := by
  fun_induction lineBreaks cs generalizing n with
  | case1 => simp [lineEnds]
  | case2 cs ih => simp [lineEnds, ih]
  | case3 c cs notPair ends ih => rw [lineEnds.eq_3 n c cs notPair, if_pos ends, List.length_cons, ih]
  | case4 c cs notPair inside ih => rw [lineEnds.eq_3 n c cs notPair, if_neg inside, ih]

theorem lineEnds_of_inside (h : lineBreaks cs = 0) : lineEnds n cs = [] := by
  rw [← List.length_eq_zero_iff, length_lineEnds, h]

/-- Behind the last line end the last line comes. -/
theorem getLast_lineEnds (n : Nat) (cs : List Char) :
    (lineEnds n cs).getLast?.getD n + byteLength (lastLine cs) = n + byteLength cs := by
  fun_induction lineEnds n cs with
  | case1 n => simp [lastLine]
  | case2 n cs ih =>
    have ends : Scan.isLineEnd '\n' = true := rfl
    have last : lastLine ('\r' :: '\n' :: cs) = lastLine cs := lastLine_append_cons ['\r'] cs ends
    rw [last, List.getLast?_cons, Option.getD_some, ih]
    simp only [byteLength, show '\r'.utf8Size = 1 from rfl, show '\n'.utf8Size = 1 from rfl]
    omega
  | case3 n c cs _ ends ih =>
    have last : lastLine (c :: cs) = lastLine cs := lastLine_append_cons [] cs ends
    rw [last, List.getLast?_cons, Option.getD_some, ih, byteLength]
    omega
  | case4 n c cs notPair inside ih =>
    by_cases none : lineBreaks cs = 0
    · have all : lineBreaks (c :: cs) = 0 := by
        rw [lineBreaks.eq_3 c cs notPair, if_neg inside, none]
      rw [lineEnds_of_inside none, lastLine_of_inside all]
      rfl
    · obtain ⟨k, last⟩ : ∃ k, (lineEnds (n + c.utf8Size) cs).getLast? = some k := by
        rw [← length_lineEnds (n + c.utf8Size)] at none
        exact ⟨_, List.getLast?_eq_some_getLast (List.ne_nil_of_length_pos (Nat.pos_of_ne_zero none))⟩
      rw [lastLine_cons_of_breaks none, byteLength]
      rw [last] at ih ⊢
      simp only [Option.getD_some] at ih ⊢
      omega

theorem lineEnds_append (whole : CutsNoPair cs ds) :
    lineEnds n (cs ++ ds) = lineEnds n cs ++ lineEnds (n + byteLength cs) ds := by
  fun_induction lineEnds n cs with
  | case1 n => rfl
  | case2 n cs ih =>
    rw [List.cons_append, List.cons_append, lineEnds, ih whole.cons.cons, List.cons_append]
    simp only [byteLength, show '\r'.utf8Size = 1 from rfl, show '\n'.utf8Size = 1 from rfl, ← Nat.add_assoc]
  | case3 n c cs notPair ends ih =>
    have notPair' : ∀ es, c = '\r' → cs ++ ds = '\n' :: es → False := by
      intro es hc hcs
      cases cs with
      | nil => exact whole (by rw [hc]; rfl) (by rw [List.nil_append] at hcs; rw [hcs]; rfl)
      | cons d cs =>
        cases hcs
        exact notPair cs hc rfl
    rw [List.cons_append, lineEnds.eq_3 n c _ notPair', if_pos ends, ih whole.cons, List.cons_append, byteLength,
      Nat.add_assoc]
  | case4 n c cs notPair inside ih =>
    have notPair' : ∀ es, c = '\r' → cs ++ ds = '\n' :: es → False := fun es hc _ => inside (by rw [hc]; rfl)
    rw [List.cons_append, lineEnds.eq_3 n c _ notPair', if_neg inside, ih whole.cons, byteLength, Nat.add_assoc]

/-- Where no carriage return is cut from its line feed, the characters before a place tell its position. -/
theorem Position.ofOffset_byteLength (whole : CutsNoPair cs ds) :
    Position.ofOffset (cs ++ ds) (byteLength cs) = Position.behind cs := by
  have before : (lineEnds 0 (cs ++ ds)).filter (· ≤ byteLength cs) = lineEnds 0 cs := by
    rw [lineEnds_append whole, List.filter_append]
    have left : (lineEnds 0 cs).filter (· ≤ byteLength cs) = lineEnds 0 cs := by
      rw [List.filter_eq_self]
      intro k hk
      have := lineEnds_bounds k hk
      simp only [decide_eq_true_eq]
      omega
    have right : (lineEnds (0 + byteLength cs) ds).filter (· ≤ byteLength cs) = [] := by
      rw [List.filter_eq_nil_iff]
      intro k hk
      have := lineEnds_bounds k hk
      simp only [decide_eq_true_eq]
      omega
    rw [left, right, List.append_nil]
  have last := getLast_lineEnds 0 cs
  simp only [ofOffset, behind, before, length_lineEnds]
  congr 2
  omega

/-! ### Tokens -/

namespace Scans

variable {offset : Nat} {p : Position} {ts us vs : List Token}

theorem lexemes_eq (h : Scans offset p cs ts) : lexemes ts = cs := by
  induction h with
  | nil => simp [Token.ending]
  | cons _ ih => rw [lexemes_cons, Token.scanned_lexeme, ih, List.cons_append, List.take_append_drop]

/-- No token ends between a carriage return and its line feed. -/
theorem keepsPairs {before : List Char} (h : Scans offset p cs (us ++ vs)) (whole : CutsNoPair before cs) :
    CutsNoPair (before ++ lexemes us) (lexemes vs) := by
  induction us generalizing offset p cs before with
  | nil =>
    have all : lexemes vs = cs := h.lexemes_eq
    rw [lexemes_nil, List.append_nil, all]
    exact whole
  | cons t us ih =>
    rw [List.cons_append] at h
    generalize all : us ++ vs = ws at h
    cases h with
    | nil =>
      obtain ⟨-, rfl⟩ := List.append_eq_nil_iff.mp all
      exact .nil
    | @cons _ _ c cs _ rest =>
      have behind := ih (all ▸ rest) ((scan_keepsPairs c cs).append_left before)
      rwa [lexemes_cons, Token.scanned_lexeme, ← List.append_assoc]

end Scans

variable {text : String} {t : Token}

/-- A token of a text stands between the characters before it and those behind it, and neither cut parts a carriage
    return from its line feed. -/
theorem tokens_cut (among : t ∈ tokens text) :
    ∃ before after, text.toList = before ++ t.lexeme.toList ++ after ∧ t.StandsAt before t.lexeme.toList ∧
      CutsNoPair before (t.lexeme.toList ++ after) ∧ CutsNoPair (before ++ t.lexeme.toList) after := by
  have scans := tokens_scans text
  obtain ⟨us, vs, all, stands⟩ := (tokens_follow text).exists_stands among
  rw [List.nil_append] at stands
  have first : CutsNoPair ([] ++ lexemes us) (lexemes (t :: vs)) := Scans.keepsPairs (all ▸ scans) nofun
  have second : CutsNoPair ([] ++ lexemes (us ++ [t])) (lexemes vs) :=
    Scans.keepsPairs (by rw [List.append_assoc, List.singleton_append, ← all]; exact scans) nofun
  rw [lexemes_append, lexemes_cons, lexemes_nil, List.append_nil] at second
  refine ⟨lexemes us, lexemes vs, ?_, stands, first, second⟩
  rw [← scans.lexemes_eq, all, lexemes_append, lexemes_cons, List.append_assoc]

/-- A token starts and ends at the positions of the two ends of its range. -/
theorem tokens_positions (among : t ∈ tokens text) :
    t.start = Position.ofOffset text.toList t.range.start ∧ t.stop = Position.ofOffset text.toList t.range.stop := by
  obtain ⟨before, after, all, stands, first, second⟩ := tokens_cut among
  rw [stands.start, stands.stop, stands.range, all]
  refine ⟨?_, (Position.ofOffset_byteLength second).symm⟩
  rw [List.append_assoc]
  exact (Position.ofOffset_byteLength first).symm

/-- Every token of a text of up to 2^32 - 2 bytes is reached with lines and columns of 32 bits. -/
theorem tokens_fit (small : byteLength text.toList + 1 < UInt32.size) (among : t ∈ tokens text) :
    t.start.Fits ∧ t.stop.Fits ∧ t.start.advance? t.lexeme.toList = some t.stop := by
  obtain ⟨before, after, all, stands, first, -⟩ := tokens_cut among
  rw [all, byteLength_append] at small
  have upTo := byteLength_append before t.lexeme.toList
  rw [stands.start, stands.stop]
  exact ⟨Position.fits_behind (by omega), Position.fits_behind (by omega),
    Position.behind_advance? first.left (by omega)⟩

/-- The next token starts where a token ends. -/
theorem tokens_adjoin {u : Token} {i : Nat} (first : (tokens text)[i]? = some t) (second : (tokens text)[i + 1]? = some u) :
    t.stop = u.start ∧ t.range.stop = u.range.start := by
  have follow := tokens_follow text
  rw [split_pair first second] at follow
  have stop := follow.append.1.last
  have start := follow.append.2.first
  exact ⟨stop.1.trans start.1.symm, stop.2.trans start.2.symm⟩

/-- In a text of up to 2^32 - 2 bytes, the tokens that a buffer captures start and end at the positions of the two ends of
    their ranges, and each ends where the next one starts. Lines and columns of 32 bits are enough to find them. -/
theorem captured_positions (filename : String) {text : String} (maxDepth : Nat)
    (small : byteLength text.toList + 1 < UInt32.size) :
    (∀ t ∈ (Buffer.ofText filename text maxDepth).tree.tokens,
      t.start = Position.ofOffset text.toList t.range.start ∧ t.stop = Position.ofOffset text.toList t.range.stop ∧
      t.start.Fits ∧ t.stop.Fits ∧ t.start.advance? t.lexeme.toList = some t.stop) ∧
    ∀ i t u, (Buffer.ofText filename text maxDepth).tree.tokens[i]? = some t →
      (Buffer.ofText filename text maxDepth).tree.tokens[i + 1]? = some u →
        t.stop = u.start ∧ t.range.stop = u.range.start := by
  refine ⟨fun t among => ?_, fun i t u first second => ?_⟩
  · have among : t ∈ tokens text := by simpa [Buffer.ofText, SyntaxTree.new] using among
    obtain ⟨start, stop⟩ := tokens_positions among
    exact ⟨start, stop, tokens_fit small among⟩
  · exact tokens_adjoin (by simpa [Buffer.ofText, SyntaxTree.new] using first)
      (by simpa [Buffer.ofText, SyntaxTree.new] using second)

theorem captured_positions_three_lines :
    byteLength "a\r\n\"ß\r\"".toList + 1 < UInt32.size ∧
    (∀ t ∈ (Buffer.ofText "a.smithy" "a\r\n\"ß\r\"" 5).tree.tokens,
      t.start = Position.ofOffset "a\r\n\"ß\r\"".toList t.range.start ∧
      t.stop = Position.ofOffset "a\r\n\"ß\r\"".toList t.range.stop ∧
      t.start.Fits ∧ t.stop.Fits ∧ t.start.advance? t.lexeme.toList = some t.stop) ∧
    ∀ i t u, (Buffer.ofText "a.smithy" "a\r\n\"ß\r\"" 5).tree.tokens[i]? = some t →
      (Buffer.ofText "a.smithy" "a\r\n\"ß\r\"" 5).tree.tokens[i + 1]? = some u →
        t.stop = u.start ∧ t.range.stop = u.range.start :=
  ⟨by decide, captured_positions "a.smithy" 5 (by decide)⟩

end SmithyIdl
