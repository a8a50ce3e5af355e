import SmithyIdl.Proofs.Schema.Members
import SmithyIdl.Proofs.Token.Places

/-! # Rows that end in a line

Behind a statement the line does not begin anew, so what `endLine` lets pass is no trivia: a comma at the start of a
line would need a token before it that ends one. -/

namespace SmithyIdl

namespace Schema

variable {P : Symbol → Bool} {r s : Rows} {u : List Symbol} {a : Symbol}

/-- Whether every row that is not empty ends with a symbol for which `P` holds. -/
def endsWith (P : Symbol → Bool) : Rows → Bool
  | .zero => true
  | .epsilon => true
  | .char s => P s
  | .plus r s => endsWith P r && endsWith P s
  | .comp r s => endsWith P s && (!s.matchEpsilon || endsWith P r)
  | .star r => endsWith P r

theorem last_of_endsWith (h : endsWith P r = true) (hu : u ∈ r.matches') (last : u.getLast? = some a) : P a = true := by
  induction r generalizing u with
  | zero => exact hu.elim
  | epsilon =>
    obtain rfl : u = [] := hu
    cases last
  | char s =>
    obtain rfl : u = [s] := hu
    cases last
    exact h
  | plus r s ihr ihs =>
    obtain ⟨hr, hs⟩ := Bool.and_eq_true_iff.mp h
    rcases hu with hu | hu
    · exact ihr hr hu last
    · exact ihs hs hu last
  | comp r s ihr ihs =>
    obtain ⟨hs, before⟩ := Bool.and_eq_true_iff.mp h
    obtain ⟨x, hx, y, hy, rfl⟩ := hu
    rcases List.eq_nil_or_concat y with rfl | ⟨init, z, rfl⟩
    · have empty : s.matchEpsilon = true := (RegularExpression.rmatch_iff_matches' s []).mpr hy
      rw [empty, Bool.not_true, Bool.false_or] at before
      exact ihr before hx (by simpa using last)
    · exact ihs hs hy (by simpa [List.getLast?_append] using last)
  | star r ih =>
    obtain ⟨words, rfl, among⟩ := hu
    induction words with
    | nil => cases last
    | cons w words ihw =>
      obtain ⟨first, rest⟩ := List.forall_mem_cons.mp among
      rcases List.eq_nil_or_concat words.flatten with empty | ⟨init, z, joined⟩
      · rw [List.flatten_cons, empty, List.append_nil] at last
        exact ih h first last
      · refine ihw rest ?_
        rw [List.flatten_cons, joined] at last
        rw [joined]
        simpa [List.getLast?_append] using last

/-- Nodes that end in the line of their last token, as far as statements end with them. -/
def inLineKinds : List TreeKind :=
  [.shapeOrApplyStatement, .shapeStatement, .applyStatement, .shapeBody, .simpleShapeStatement, .enumStatement,
    .enumMembers, .listStatement, .listMembers, .mapStatement, .mapMembers, .structureStatement, .structureMembers,
    .unionStatement, .unionMembers, .serviceStatement, .resourceStatement, .operationStatement, .operationBody,
    .nodeObject, .shapeMixins, .applyStatementSingular, .applyStatementBlock, .trait, .traitBody, .shapeId,
    .shapeIdMember, .namespaceId, .spaces]

/-- Whether what a symbol stands for ends in the line of its last token. -/
def isInLine : Symbol → Bool
  | .token kind => kind.isInLine
  | .node kind => kind ∈ inLineKinds
  | .absoluteId => true

theorem production_inLine : ∀ k ∈ inLineKinds,
    endsWith isInLine (production k) = true ∧ (production k).matchEpsilon = false := by decide

end Schema

namespace Forest

open Schema

variable {ts : Array Token} {F : Forest} {s : Symbol}

theorem row_eq_nil : F.row ts = [] ↔ F = nil := by cases F <;> simp

/-- A row that ends with such a symbol ends with a token in which no line ends. -/
theorem last_token_inLine (conf : F.Conforms ts) (last : (F.row ts).getLast? = some s) (inLine : isInLine s = true) :
    ∃ init i, F.tokens = init ++ [i] ∧ (kindAt ts i).isInLine = true := by
  induction F generalizing s with
  | nil => cases last
  | leaf id token rest ih =>
    by_cases empty : rest = nil
    · subst empty
      cases last
      exact ⟨[], token, rfl, inLine⟩
    · obtain ⟨init, z, row⟩ := (List.eq_nil_or_concat (rest.row ts)).resolve_left (mt row_eq_nil.mp empty)
      obtain ⟨before, i, tokens, kind⟩ := ih conf (by simpa [row, List.getLast?_cons] using last) inLine
      exact ⟨token :: before, i, by simp [tokens], kind⟩
  | branch id label inner rest ihi ihr =>
    obtain ⟨row, below, behind⟩ := conf
    by_cases empty : rest = nil
    · subst empty
      cases last
      have among : label.kind ∈ inLineKinds := by
        unfold Symbol.ofNode at inLine
        split at inLine
        · next absolute => simp [absolute.1, inLineKinds]
        · exact of_decide_eq_true inLine
      obtain ⟨ends, nonempty⟩ := production_inLine _ among
      rcases List.eq_nil_or_concat (inner.row ts) with none | ⟨init, z, joined⟩
      · rw [none] at row
        have never := (RegularExpression.rmatch_iff_matches' _ []).mpr row
        rw [RegularExpression.rmatch, nonempty] at never
        cases never
      · have final : (inner.row ts).getLast? = some z := by simp [joined]
        obtain ⟨before, i, tokens, kind⟩ := ihi below final (last_of_endsWith ends row final)
        exact ⟨before, i, by simp [tokens], kind⟩
    · obtain ⟨init, z, row⟩ := (List.eq_nil_or_concat (rest.row ts)).resolve_left (mt row_eq_nil.mp empty)
      obtain ⟨before, i, tokens, kind⟩ := ihr behind (by simpa [row, List.getLast?_cons] using last) inLine
      exact ⟨inner.tokens ++ before, i, by simp [tokens], kind⟩

end Forest

namespace Buffer.Builds

variable {b : Buffer} {v : View} {text : String} {s : Symbol}

/-- Where no tree stands alone, the last token below the innermost node is the one before the cursor. -/
theorem cursor_eq {ts : Array Token} (builds : b.Builds ts v) (alone : v.loose = .nil) {init : List TokenId} {i : TokenId}
    (last : v.inner.children.tokens = init ++ [i]) : b.cursor = i + 1 := by
  have around := View.tokens_grow { v with inner := { v.inner with children := .nil } } v.inner.children
  have all : v.whole.tokens.Perm (List.range b.cursor) := by simpa [alone] using builds.shown.tokens
  have whole := all.eq_of_pairwise (fun i j _ _ hij hji => absurd hij (Nat.lt_asymm hji)) builds.shown.sorted.tokens
    List.pairwise_lt_range
  change v.whole.tokens = _ at around
  rw [around, last, ← List.append_assoc] at whole
  have length := congrArg List.length whole
  rw [List.length_append, List.length_singleton, List.length_range] at length
  rw [← length, List.range_succ] at whole
  have same := (List.append_inj' whole rfl).2
  rw [← length, List.singleton_inj.mp same]

/-- Behind a child in which the last line does not end, the next token is not the first of its line. -/
theorem column_ne_one (builds : b.Builds (SmithyIdl.tokens text).toArray v) (alone : v.loose = .nil)
    (last : (v.inner.children.row (SmithyIdl.tokens text).toArray).getLast? = some s) (inLine : Schema.isInLine s = true) :
    b.current.start.column ≠ 1 := by
  obtain ⟨init, i, tokens', kind⟩ := Forest.last_token_inLine (builds.tidy.open' v.inner List.mem_cons_self) last inLine
  have cursor := builds.cursor_eq alone tokens'
  have before := builds.shown.cursor
  obtain ⟨t, ht⟩ := builds.shown.exists_token (Nat.lt_of_lt_of_eq (Nat.lt_succ_self i) cursor.symm)
  obtain ⟨t', ht'⟩ : ∃ t', b.tree.tokens[i + 1]? = some t' := by
    obtain ⟨_, found, -⟩ := builds.shown.ends
    have bound := (Array.getElem?_eq_some_iff.mp found).1
    rw [cursor] at before
    exact ⟨_, Array.getElem?_eq_getElem (Nat.lt_of_le_of_lt before bound)⟩
  have here : b.current = t' := by
    rw [Buffer.current, Buffer.peek, Nat.add_zero, Nat.min_eq_left before, cursor, ht']
    rfl
  rw [builds.tokens] at ht ht'
  rw [here]
  refine SmithyIdl.column_ne_one (by simpa using ht) (by simpa using ht') ?_
  rwa [kindAt, ht] at kind

end Buffer.Builds

/-! ### Behind the end of a line -/

namespace Grammar

open SmithyIdl.Parser SmithyIdl.Schema

variable {b b' : Buffer} {v : View} {text : String} {s : Symbol} {docs : Docs}

theorem docComments_settled (ends : b.EndsWithEof) (before : b.current.kind.isWhitespace = false)
    (run : docComments.run b = .ok docs b') (clean : b'.errors = b.errors) : b'.current.kind.isTrivia = false := by
  unfold docComments at run
  obtain ⟨here, b₁, hask, run⟩ := bind_eq_ok.mp run
  cases hask
  by_cases here : b.isAt .docComment = true
  · rw [run_ite, if_pos here] at run
    obtain ⟨c, b₁, closed, done⟩ := bind_eq_ok.mp run
    cases done
    obtain ⟨a, value⟩ := scope_clean closed clean
    obtain ⟨b₂, b₃, leads, -, inner, -, same⟩ := (scope_ok closed).2 a value
    rw [Buffer.current_of_peek same]
    exact kind_of_shiftKinds (leads.endsWithEof ends) rfl inner
  · rw [run_ite, if_neg here] at run
    cases run
    rw [TokenKind.isTrivia, before, Bool.false_or]
    exact eq_false_of_ne_true here

theorem breakLine_settled (ends : b.EndsWithEof) (run : breakLine.run b = .ok docs b') (clean : b'.errors = b.errors) :
    b'.current.kind.isTrivia = false := by
  unfold breakLine at run
  obtain ⟨c, b₁, closed, done⟩ := bind_eq_ok.mp run
  cases done
  obtain ⟨a, value⟩ := scope_clean closed clean
  obtain ⟨b₂, b₃, leads, -, inner, leads', same⟩ := (scope_ok closed).2 a value
  obtain ⟨_, b₄, taken, inner⟩ := bind_eq_ok.mp inner
  obtain ⟨_, b₅, white, inner⟩ := bind_eq_ok.mp inner
  have before := leads.trans (Steady.ok taken)
  have clean₅ := ((before.trans (Steady.ok white)).clean ((Steady.ok inner).trans leads') clean).2
  have ends₄ := before.endsWithEof ends
  rw [Buffer.current_of_peek same]
  exact docComments_settled ((Steady.ok white).endsWithEof ends₄) (kind_of_shiftKinds ends₄ rfl white) inner
    ((Steady.ok inner).clean leads' clean₅).1

/-- Behind a child in which the last line does not end, the end of the line leaves no trivia. -/
theorem endLine_settled (builds : b.Builds (tokens text).toArray v) (alone : v.loose = .nil)
    (last : (v.inner.children.row (tokens text).toArray).getLast? = some s) (inLine : Schema.isInLine s = true)
    (run : endLine.run b = .ok docs b') (clean : b'.errors = b.errors) : b'.current.kind.isTrivia = false := by
  unfold endLine at run
  obtain ⟨_, b₁, spaced, run⟩ := bind_eq_ok.mp run
  obtain ⟨token, b₂, hask, run⟩ := bind_eq_ok.mp run
  cases hask
  have steady := lineEnd_steady b₁.current
  obtain ⟨clean₁, clean₂⟩ := (Steady.ok spaced).clean (steady.ok run) clean
  obtain ⟨w, u, builds₁, gains, hu⟩ := (spaces_writes : spaces.Writes False b blanks).rows builds spaced clean₁
  have last₁ : ∃ s', (w.inner.children.row (tokens text).toArray).getLast? = some s' ∧ Schema.isInLine s' = true := by
    rw [gains.row]
    rcases hu with rfl | rfl
    · exact ⟨s, by rwa [List.append_nil], inLine⟩
    · exact ⟨.node .spaces, by simp, rfl⟩
  obtain ⟨s', last', inLine'⟩ := last₁
  have column := builds₁.column_ne_one (gains.loose.trans alone) last' inLine'
  have ends := builds₁.shown.ends
  split at run
  · exact breakLine_settled ends run clean₂
  · exact breakLine_settled ends run clean₂
  · exact breakLine_settled ends run clean₂
  · next eof =>
    cases run
    rw [eof]
    rfl
  · rw [run_ite, if_neg column] at run
    cases run

theorem endLine_yields (alone : v.loose = .nil) (last : (v.inner.children.row (tokens text).toArray).getLast? = some s)
    (inLine : Schema.isInLine s = true) :
    endLine.Yields False (tokens text).toArray b v fun docs b' w u =>
      u ∈ lineEnd.matches' ∧ w.Held docs ∧ b'.current.kind.isTrivia = false := fun builds docs b' run clean => by
  obtain ⟨w, u, builds', gains, hu, held⟩ := endLine_writes.rows trivial builds run clean
  exact ⟨w, u, builds', gains, hu, held, endLine_settled builds alone last inLine run clean⟩

end Grammar

end SmithyIdl
