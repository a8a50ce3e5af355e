import SmithyIdl.Proofs.Literal.TextBlock

/-! # Line breaks of text blocks

A text block falls into lines at its line feeds, and a carriage return before a line feed goes with it. Elsewhere a
carriage return breaks a line on its own, but not in a text block: there it is a character of its line, and a text block
does not start with it. -/

namespace SmithyIdl.Literal

variable {c : Char} {cs raw body line : List Char} {lines : List (List Char)} {n : Nat}

/-- A text with a line feed for each of its line breaks: a line feed, a carriage return, or the pair of the two. -/
def withLineFeeds : List Char → List Char
  | [] => []
  | '\r' :: '\n' :: cs => '\n' :: withLineFeeds cs
  | c :: cs => (if c = '\r' then '\n' else c) :: withLineFeeds cs

/-- A line feed follows every carriage return. -/
inductive PairsReturns : List Char → Prop where
  | nil : PairsReturns []
  | pair {cs : List Char} (rest : PairsReturns cs) : PairsReturns ('\r' :: '\n' :: cs)
  | cons {c : Char} {cs : List Char} (other : c ≠ '\r') (rest : PairsReturns cs) : PairsReturns (c :: cs)

theorem withLineFeeds_cons (ne : c ≠ '\r') (cs : List Char) : withLineFeeds (c :: cs) = c :: withLineFeeds cs := by
  rw [withLineFeeds.eq_3 c cs fun _ same => absurd same ne, if_neg ne]

theorem withLineFeeds_lone (lone : ∀ ds, cs ≠ '\n' :: ds) : withLineFeeds ('\r' :: cs) = '\n' :: withLineFeeds cs := by
  rw [withLineFeeds.eq_3 _ cs fun ds _ => lone ds, if_pos rfl]

theorem mem_of_mem_withLineFeeds (among : c ∈ withLineFeeds cs) : c = '\n' ∨ c ∈ cs := by
  fun_induction withLineFeeds cs with
  | case1 => cases among
  | case2 cs ih => grind
  | case3 d cs _ ih => grind

/-! ### Lines -/

theorem splitLines_pair (cs : List Char) : splitLines ('\r' :: '\n' :: cs) = ['\r'] :: splitLines cs :=
  splitLines_cons (by decide) (splitLines_newline cs)

theorem linesOf_pair (cs : List Char) : linesOf ('\r' :: '\n' :: cs) = [] :: linesOf cs := by
  rw [linesOf, splitLines_pair, List.map_cons]
  rfl

theorem linesOf_newline (cs : List Char) : linesOf ('\n' :: cs) = [] :: linesOf cs := by
  rw [linesOf, splitLines_newline, List.map_cons]
  rfl

/-- Without carriage returns on their own both texts have the same lines. -/
theorem linesOf_withLineFeeds (paired : PairsReturns cs) : linesOf (withLineFeeds cs) = linesOf cs := by
  induction paired with
  | nil => rfl
  | pair _ ih => rw [withLineFeeds, linesOf_newline, linesOf_pair, ih]
  | @cons c cs other _ ih =>
    rw [withLineFeeds_cons other]
    by_cases newline : c = '\n'
    · rw [newline, linesOf_newline, linesOf_newline, ih]
    · obtain ⟨line, lines, split⟩ := exists_splitLines cs
      obtain ⟨line', lines', split'⟩ := exists_splitLines (withLineFeeds cs)
      rw [linesOf, linesOf, split, split', List.map_cons, List.map_cons] at ih
      obtain ⟨first, others⟩ := List.cons.inj ih
      rw [linesOf, linesOf, splitLines_cons newline split, splitLines_cons newline split', List.map_cons, List.map_cons,
        dropReturn_cons other, dropReturn_cons other, first, others]

theorem stripped_withLineFeeds (paired : PairsReturns body) : stripped (withLineFeeds body) = stripped body := by
  rw [stripped, stripped, linesOf_withLineFeeds paired]

/-! ### Counting line feeds -/

theorem length_splitLines (cs : List Char) : (splitLines cs).length = cs.count '\n' + 1 := by
  induction cs with
  | nil => rfl
  | cons c cs ih =>
    obtain ⟨line, lines, split⟩ := exists_splitLines cs
    by_cases newline : c = '\n'
    · rw [newline, splitLines_newline, List.length_cons, ih, List.count_cons_self]
    · rw [splitLines_cons newline split, List.length_cons, List.count_cons_of_ne newline, ← ih, split, List.length_cons]

theorem newline_not_mem_splitLines (among : line ∈ splitLines cs) : '\n' ∉ line := by
  induction cs generalizing line with
  | nil =>
    obtain rfl := List.mem_singleton.mp among
    nofun
  | cons c cs ih =>
    obtain ⟨first, rest, split⟩ := exists_splitLines cs
    by_cases newline : c = '\n'
    · rw [newline, splitLines_newline] at among
      rcases List.mem_cons.mp among with rfl | among
      · nofun
      · exact ih among
    · rw [splitLines_cons newline split] at among
      rw [split] at ih
      rcases List.mem_cons.mp among with rfl | among
      · rw [List.mem_cons, not_or]
        exact ⟨Ne.symm newline, ih List.mem_cons_self⟩
      · exact ih (List.mem_cons_of_mem _ among)

theorem mem_of_mem_dropReturn (among : c ∈ dropReturn line) : c ∈ line := by
  rw [dropReturn] at among
  split at among
  · exact List.dropLast_subset line among
  · exact among

theorem mem_of_mem_stripLine (among : c ∈ stripLine n line) : c ∈ line := by
  have kept : c ∈ (dropBytes? n line).getD [] := by
    rw [stripLine, trimEnd, List.mem_reverse] at among
    exact List.mem_reverse.mp ((List.dropWhile_sublist _).subset among)
  rw [← cutOff_append n line]
  exact List.mem_append_right _ kept

theorem count_intercalate (some : lines ≠ []) (inLine : ∀ line ∈ lines, '\n' ∉ line) :
    (['\n'].intercalate lines).count '\n' + 1 = lines.length := by
  induction lines with
  | nil => exact absurd rfl some
  | cons line lines ih =>
    obtain ⟨first, others⟩ := List.forall_mem_cons.mp inLine
    cases lines with
    | nil => simp [List.count_eq_zero_of_not_mem first]
    | cons next lines =>
      rw [List.intercalate_cons_cons, List.count_append, List.count_append, List.count_eq_zero_of_not_mem first,
        List.count_singleton_self, List.length_cons, ← ih (List.cons_ne_nil _ _) others]
      omega

/-- A text block without escapes has the line feeds that are written. -/
theorem count_stripped (body : List Char) : (stripped body).count '\n' = body.count '\n' := by
  have inLine : ∀ line ∈ (linesOf body).map (stripLine (commonIndentation (linesOf body))), '\n' ∉ line := by
    simp only [linesOf, List.mem_map]
    rintro _ ⟨_, ⟨line, among, rfl⟩, rfl⟩ newline
    exact newline_not_mem_splitLines among (mem_of_mem_dropReturn (mem_of_mem_stripLine newline))
  have count := count_intercalate (by simpa using linesOf_ne_nil body) inLine
  rw [← stripped, List.length_map, linesOf, List.length_map, length_splitLines] at count
  exact Nat.add_right_cancel count

theorem count_le_withLineFeeds (cs : List Char) : cs.count '\n' ≤ (withLineFeeds cs).count '\n' := by
  fun_induction withLineFeeds cs with
  | case1 => exact Nat.le_refl _
  | case2 cs ih => simpa using ih
  | case3 c cs _ ih =>
    by_cases ret : c = '\r'
    · rw [ret, if_pos rfl, List.count_cons_self, List.count_cons_of_ne (by decide)]
      exact Nat.le_succ_of_le ih
    · rw [if_neg ret, List.count_cons, List.count_cons]
      exact Nat.add_le_add_right ih _

/-- A carriage return on its own makes one more line feed, and nothing takes one away. -/
theorem count_withLineFeeds_eq_iff : (withLineFeeds cs).count '\n' = cs.count '\n' ↔ PairsReturns cs := by
  constructor
  · intro same
    fun_induction withLineFeeds cs with
    | case1 => exact .nil
    | case2 cs ih => exact .pair (ih (by simpa using same))
    | case3 c cs _ ih =>
      by_cases ret : c = '\r'
      · have le := count_le_withLineFeeds cs
        rw [ret, if_pos rfl, List.count_cons_self, List.count_cons_of_ne (by decide)] at same
        omega
      · rw [if_neg ret, List.count_cons, List.count_cons] at same
        exact .cons ret (ih (Nat.add_right_cancel same))
  · intro paired
    induction paired with
    | nil => rfl
    | pair _ ih => simpa [withLineFeeds] using ih
    | cons other _ ih => rw [withLineFeeds_cons other, List.count_cons, List.count_cons, ih]

/-! ### Values -/

/-- Without escapes the value is what the lines are stripped to. -/
theorem textBlock_of_plain (plain : '\\' ∉ raw) (opens : afterLineBreak? raw = some body) (inside : body ⊆ raw) :
    textBlock raw = .ok (stripped body) := by
  rw [textBlock_of_body opens, unescape_of_not_mem]
  intro among
  have kept : '\\' ∈ unspaced body :=
    (sublist_filter_stripped not_isSpacing_of_blank rfl rfl body).subset (List.mem_filter.mpr ⟨among, rfl⟩)
  exact plain (inside (List.mem_filter.mp kept).1)

theorem textBlock_of_no_break (newline : ∀ ds, raw ≠ '\n' :: ds) (pair : ∀ ds, raw ≠ '\r' :: '\n' :: ds) :
    textBlock raw = .error .noOpeningLineBreak := by
  rw [textBlock, afterLineBreak?.eq_3 raw pair newline]

/-- A text block whose carriage returns all come with a line feed says the same with line feeds alone. -/
theorem textBlock_of_pairsReturns (paired : PairsReturns raw) : textBlock (withLineFeeds raw) = textBlock raw := by
  cases paired with
  | nil => rfl
  | pair rest => rw [withLineFeeds, textBlock_of_body rfl, textBlock_of_body rfl, stripped_withLineFeeds rest]
  | @cons c cs other rest =>
    rw [withLineFeeds_cons other]
    by_cases newline : c = '\n'
    · rw [newline, textBlock_of_body rfl, textBlock_of_body rfl, stripped_withLineFeeds rest]
    · have refused (ds : List Char) : textBlock (c :: ds) = .error .noOpeningLineBreak :=
        textBlock_of_no_break (fun _ same => newline (List.cons.inj same).1) fun _ same => other (List.cons.inj same).1
      rw [refused, refused]

/-- The line feeds of the value tell how many lines there are, so a body with as many lines has no carriage return on
    its own. -/
theorem pairsReturns_of_stripped (same : stripped (withLineFeeds body) = stripped body) : PairsReturns body := by
  rw [← count_withLineFeeds_eq_iff, ← count_stripped, same, count_stripped]

theorem pairsReturns_of_textBlock (plain : '\\' ∉ raw) (opens : raw.head? = some '\n' ∨ raw.head? = some '\r')
    (same : textBlock (withLineFeeds raw) = textBlock raw) : PairsReturns raw := by
  have plain' : '\\' ∉ withLineFeeds raw := fun among => by
    rcases mem_of_mem_withLineFeeds among with newline | among
    · exact absurd newline (by decide)
    · exact plain among
  rcases opens with newline | ret
  · obtain ⟨cs, rfl⟩ := List.head?_eq_some_iff.mp newline
    rw [withLineFeeds_cons (by decide)] at plain' same
    rw [textBlock_of_plain plain' rfl (List.subset_cons_self ..), textBlock_of_plain plain rfl (List.subset_cons_self ..)]
      at same
    exact .cons (by decide) (pairsReturns_of_stripped (Except.ok.inj same))
  · obtain ⟨cs, rfl⟩ := List.head?_eq_some_iff.mp ret
    by_cases pair : ∃ ds, cs = '\n' :: ds
    · obtain ⟨ds, rfl⟩ := pair
      rw [withLineFeeds] at plain' same
      rw [textBlock_of_plain plain' rfl (List.subset_cons_self ..),
        textBlock_of_plain plain rfl fun _ among => List.mem_cons_of_mem _ (List.mem_cons_of_mem _ among)] at same
      exact .pair (pairsReturns_of_stripped (Except.ok.inj same))
    · -- The lone carriage return opens no text block, the line feed in its place does.
      have lone (ds : List Char) : cs ≠ '\n' :: ds := fun here => pair ⟨ds, here⟩
      rw [withLineFeeds_lone lone] at plain' same
      rw [textBlock_of_plain plain' rfl (List.subset_cons_self ..), textBlock_of_no_break (by simp) (by simpa using lone)]
        at same
      cases same

/-- A text block says the same with a line feed for each pair of a carriage return and a line feed. A carriage return on
    its own is no line break to it: without escapes, a text block that begins with a line break and has such a carriage
    return says something else with a line feed in its place. -/
theorem textBlock_withLineFeeds (raw : List Char) :
    (PairsReturns raw → textBlock (withLineFeeds raw) = textBlock raw) ∧
      ('\\' ∉ raw → raw.head? = some '\n' ∨ raw.head? = some '\r' →
        (textBlock (withLineFeeds raw) = textBlock raw ↔ PairsReturns raw)) :=
  ⟨textBlock_of_pairsReturns, fun plain opens => ⟨pairsReturns_of_textBlock plain opens, textBlock_of_pairsReturns⟩⟩

/-- A carriage return opens no text block, but a line feed does. -/
theorem textBlock_withLineFeeds_lone :
    '\\' ∉ ['\r', 'a'] ∧ (['\r', 'a'].head? = some '\n' ∨ ['\r', 'a'].head? = some '\r') ∧
      textBlock (withLineFeeds ['\r', 'a']) ≠ textBlock ['\r', 'a'] := by
  have plain : '\\' ∉ ['\r', 'a'] := by decide
  refine ⟨plain, .inr rfl, fun same => ?_⟩
  have paired := ((textBlock_withLineFeeds ['\r', 'a']).2 plain (.inr rfl)).mp same
  cases paired with
  | cons other _ => exact other rfl

end SmithyIdl.Literal
