import SmithyIdl.Proofs.Buffer.Unique
import SmithyIdl.Proofs.Schema.Statements
import SmithyIdl.Proofs.Trivia.Shapes

/-! # Trivia around statements

A shape adopts the documentation comments before it, and the line of every statement ends. Traits are read before it is
known what they belong to, so meanwhile they stand alone. -/

set_option synthInstance.maxSize 2000

namespace SmithyIdl

open SmithyIdl.Parser

variable {b b' : Buffer} {v v' : View} {T : Forest} {ts : Array Token} {given docs : Option NodeId}
  {traits : Option NodeId}

/-- Documentation comments on a later line wait for the next statement, which begins with the next token. -/
structure Buffer.Waits (b : Buffer) (ts : Array Token) (v v' : View) (docs : Option NodeId) : Prop where
  builds : b.Builds ts v
  settled : b.current.kind.isTrivia = false
  held : v.Held docs
  due : ∃ j k, b.Due ts v v' docs j k ∧ kindAt ts j ≠ .lbrace ∧ (k < b.cursor → IsLate ts j k)

namespace Buffer.Waits

variable (h : b.Waits ts v v' docs)
include h

theorem gathers : b.Gathers ts v := by
  obtain ⟨j, k, due, -⟩ := h.due
  exact due.gathers

theorem names : v'.names = v.names := by
  obtain ⟨j, k, due, -⟩ := h.due
  obtain ⟨D, sheds, -⟩ := due.docs
  exact sheds.names

theorem loose : v'.loose = v.loose := by
  obtain ⟨j, k, due, -⟩ := h.due
  obtain ⟨D, sheds, -⟩ := due.docs
  exact sheds.loose

theorem enter {id : NodeId} {kind : TreeKind} (gathers : b'.Gathers ts (v.enter id (.plain kind))) (leads : b.Leads b')
    (same : b'.cursor = b.cursor) : b'.Waits ts (v.enter id (.plain kind)) (v'.enter id (.plain kind)) docs := by
  obtain ⟨j, k, due, other, late⟩ := h.due
  exact ⟨⟨gathers.shown, gathers.tokens, h.builds.tidy.enter _ _⟩, leads.current_of_same same ▸ h.settled,
    h.held.enter _ _, j, k, due.enter gathers same, other, same ▸ late⟩

end Buffer.Waits

/-! ### Traits that stand alone -/

namespace View.Owes

theorem orderly (h : v.Owes traits T) : T.Orderly ts := by
  cases traits with
  | none =>
    obtain rfl : T = .nil := h
    trivial
  | some d =>
    obtain ⟨⟨F, rfl⟩, -⟩ := h
    exact Forest.orderly_lower rfl

theorem sorted (h : v.Owes traits T) (sorted : v.whole.Sorted) : (v.whole ++ T).Sorted := by
  cases traits with
  | none =>
    obtain rfl : T = .nil := h
    rwa [Forest.append_nil]
  | some d => exact h.2

/-- Traits that stand alone have the tokens behind those of the tree. -/
theorem tokens (h : v.Owes traits T) (gathers : b.Gathers ts v) (shown : b'.Shows (v.aside T)) :
    T.tokens = List.range' b.cursor (b'.cursor - b.cursor) := by
  have all : (v.whole ++ T).tokens.Perm (List.range b'.cursor) := by
    simpa [View.aside, View.whole, View.frames, View.spine, gathers.alone] using shown.tokens
  have whole := all.eq_of_pairwise (fun i j _ _ hij hji => absurd hij (Nat.lt_asymm hji))
    (h.sorted gathers.shown.sorted).tokens List.pairwise_lt_range
  rw [Forest.tokens_append, gathers.shown.tokens_whole gathers.alone] at whole
  exact range_behind whole

end View.Owes

namespace Grammar

theorem attach_cursor (run : (withTraits traits attach).run b = .ok () b') : b'.cursor = b.cursor := by
  rcases withTraits_ok run with ⟨-, rfl⟩ | ⟨d, -, attached⟩
  · rfl
  · obtain ⟨t, -, rfl⟩ := attach_ok attached
    rfl

/-- A shape adopts the documentation comments that waited before its traits. -/
theorem statedShape_gathers {b₀ : Buffer} (waits : b₀.Waits ts v v' given) (owes : v.Owes traits T)
    (shown : b.Shows (v.aside T)) (leads : b₀.Leads b) (here : b.current.kind = .identifier)
    (run : (within .shapeOrApplyStatement (shapeStatement given traits)).run b = .ok () b')
    (clean : b'.errors = b.errors) :
    ∃ F, b'.Gathers ts (v'.grow F) ∧ F.Orderly ts ∧ F.row ts = [.node .shapeOrApplyStatement] := by
  obtain ⟨j, k, due, other, late⟩ := waits.due
  obtain ⟨D, sheds, spans⟩ := due.docs
  obtain ⟨b₁, b₆, shown₁, leads₁, same₁, stated, clean₁, -, -, -, close⟩ := within_shows shown run clean
  unfold shapeStatement at stated
  obtain ⟨b₂, b₅, shown₂, leads₂, same₂, inner, clean₂, -, -, -, close'⟩ := within_shows shown₁ stated clean₁
  obtain ⟨_, b₃, adopted, rest⟩ := bind_eq_ok.mp inner
  obtain ⟨_, b₄, attached, body⟩ := bind_eq_ok.mp rest
  have alone : v'.loose = .nil := sheds.loose.trans due.gathers.alone
  have leads₄ := (leads₁.trans leads₂).trans ((Steady.ok adopted).trans (Steady.ok attached))
  have same₄ : b₄.cursor = b.cursor :=
    (attach_cursor attached).trans ((adoptDocs_cursor adopted).trans (same₂.trans same₁))
  -- The traits stand alone until the documentation comments are adopted.
  obtain ⟨shown₃, items⟩ := ((sheds.enter _ _).aside T).adopted shown₂ adopted
  have owes₃ : (((v'.enter b.tree.size (.plain .shapeOrApplyStatement)).enter b₁.tree.size
      (.plain .shapeStatement)).grow D).Owes traits T := owes.of_items (items.trans (v.items_enter ..))
  have gathers₄ := due.gathers.of_shows (leads.trans leads₄).tokens (attach_shows shown₃ owes₃ attached) alone
  have clean₄ := (((Steady.ok adopted).trans (Steady.ok attached)).clean (Steady.ok body) clean₂).2
  obtain ⟨B, gathers₅, orderlyB⟩ := Orders.orders b₄ gathers₄ body clean₄
  have head : (T ++ B).tokens.head? = some b₀.cursor := by
    have next := gathers₄.shown.ends.hasNext (by rw [leads₄.current_of_same same₄, here]; decide)
    have lt : b₄.cursor < b₅.cursor := Eats.eats gathers₄.shown.ends next body
    have first : B.tokens.head? = some b.cursor := same₄ ▸ gathers₄.head_grown gathers₅ lt
    rw [Forest.tokens_append, owes.tokens due.gathers shown, List.head?_append, first, List.head?_range']
    rcases Nat.eq_or_lt_of_le leads.cursor with same | lt
    · rw [same, Nat.sub_self]
      rfl
    · rw [if_neg (Nat.sub_ne_zero_of_lt lt)]
      rfl
  rw [View.grow_grow, View.grow_grow] at gathers₅
  have closed := close (close' gathers₅.shown (View.enter_names ..)) (View.enter_names ..)
  rw [View.enter_grow_leave, View.enter_grow_leave] at closed
  have gathers := due.gathers.of_shows (leads.trans (Steady.ok run)).tokens closed alone
  refine ⟨_, gathers, ⟨fun _ => ⟨trivial, fun _ => ⟨?_, ?_⟩, trivial⟩, trivial⟩, rfl⟩
  · have settled := due.gathers.kindAt_cursor ▸ waits.settled
    exact ⟨j, k, b₀.cursor, ⟨due.trail, settled, D, T ++ B, rfl, spans, head⟩, other, late⟩
  · exact Forest.orderly_append.mpr ⟨spans.orderly, Forest.orderly_append.mpr ⟨owes.orderly, orderlyB⟩⟩

/-! ### Ends of statements -/

/-- The row of a statement with a line break behind it, which is missing only at the end of the text. -/
def IsLine (b' : Buffer) (row : List Symbol) : Prop :=
  row ∈ Schema.line.matches' ∨ b'.hasNext = false ∧ row ∈ Schema.lastLine.matches'

theorem hasNext_of_eof (h : b.Gathers ts v) (here : b.current.kind = .eof) : b.hasNext = false := by
  obtain ⟨text, rfl⟩ := h.lexed
  refine eq_false_of_ne_true fun next => ?_
  have inside := Buffer.hasNext_iff.mp next
  rw [Buffer.eof, h.tokens, List.size_toArray] at inside
  rw [← h.kindAt_cursor] at here
  exact kindAt_ne_eof (Nat.add_lt_of_lt_sub inside) here

/-- Documentation comments wait behind a statement and the end of its line, which are added to a view; the same holds
    of what stays behind when they are adopted. -/
def Ends (ts : Array Token) (b' : Buffer) (x : View) (docs : Docs) : Prop :=
  ∃ F F', b'.Waits ts (x.grow F) (x.grow F') docs ∧ (F.Orderly ts ∧ F'.Orderly ts) ∧
    IsLine b' (F.row ts) ∧ IsLine b' (F'.row ts)

theorem endStatement_ends {x : View} {S : Forest} (h : b.Gathers ts (x.grow S)) (builds : b.Builds ts (x.grow S))
    (orderly : S.Orderly ts) (node : S.row ts = [.node .shapeOrApplyStatement])
    (run : endStatement.run b = .ok docs b') (clean : b'.errors = b.errors) : Ends ts b' x docs := by
  obtain ⟨text, rfl⟩ := h.lexed
  unfold endStatement at run
  obtain ⟨r, b₁, caught, done⟩ := bind_eq_ok.mp run
  cases done
  obtain ⟨docs, rfl, ended⟩ := recovering_clean caught clean
  obtain ⟨inner, -⟩ := List.forall_mem_cons.mp builds.tidy.open'
  have conf := (Forest.conforms_append.mp inner).2
  obtain ⟨j, lt, last, blank⟩ := h.exists_last (s := .node .shapeOrApplyStatement) conf (by rw [node]; rfl) rfl
  obtain ⟨settled, other⟩ := TokenKind.isLast_iff.mp last
  obtain ⟨E, E', k, due, late, orderlyE, orderlyE', ends⟩ := endLine_due h settled other lt blank ended clean
  have last' : ((x.grow S).inner.children.row (tokens text).toArray).getLast? = some (.node .shapeOrApplyStatement) := by
    simp [View.grow, node]
  obtain ⟨w, u, builds', gains, -, held, settled'⟩ := endLine_yields h.alone last' rfl builds ended clean
  obtain rfl : (x.grow S).grow E = w :=
    builds'.shown.unique due.gathers.shown gains.names.symm gains.loose.symm
  have waits : b'.Waits (tokens text).toArray ((x.grow S).grow E) ((x.grow S).grow E') docs :=
    ⟨builds', settled', held, j, k, due, other, late⟩
  rw [View.grow_grow, View.grow_grow] at waits
  refine ⟨S ++ E, S ++ E', waits, ⟨Forest.orderly_append.mpr ⟨orderly, orderlyE⟩,
    Forest.orderly_append.mpr ⟨orderly, orderlyE'⟩⟩, ?_⟩
  rw [Forest.row_append, Forest.row_append, node]
  obtain ⟨row, row'⟩ | ⟨rfl, row, stop⟩ := ends
  · exact ⟨.inl (Language.append_mem_mul rfl row), .inl (Language.append_mem_mul rfl row')⟩
  · have inLine : ∃ s, (((x.grow S).grow E').inner.children.row (tokens text).toArray).getLast? = some s ∧
        Schema.isInLine s = true := by
      rcases row with row | row
      · exact ⟨.node .shapeOrApplyStatement, by simp [View.grow, node, show E'.row _ = [] from row], rfl⟩
      · exact ⟨.node .spaces, by simp [View.grow, show E'.row _ = [_] from row], rfl⟩
    obtain ⟨s, last, inLine⟩ := inLine
    have ended' := hasNext_of_eof due.gathers (stop.resolve_right (builds'.column_ne_one h.alone last inLine))
    have line := Language.append_mem_mul (l := (Schema.one .shapeOrApplyStatement).matches') rfl
      ((Schema.matches_sequence_one Schema.blanks).ge row)
    exact ⟨.inr ⟨ended', line⟩, .inr ⟨ended', line⟩⟩

/-! ### Statements -/

instance applyStatement_orders : Orders applyStatement := by
  unfold applyStatement
  infer_instance

/-- What keeps trivia orderly and is known to write a row. -/
theorem Orders.builds {α : Type} {p : Parser α} [Orders p] {r : Schema.Rows} {a : α} (writes : p.Writes False b r)
    (h : b.Gathers ts v) (builds : b.Builds ts v) (run : p.run b = .ok a b') (clean : b'.errors = b.errors) :
    ∃ F, b'.Gathers ts (v.grow F) ∧ b'.Builds ts (v.grow F) ∧ F.Orderly ts ∧ F.row ts ∈ r.matches' := by
  obtain ⟨F, gathers, orderly⟩ := Orders.orders b h run clean
  obtain ⟨w, u, builds', gains, row⟩ := writes.rows builds run clean
  obtain rfl : v.grow F = w := builds'.shown.unique gathers.shown gains.names.symm gains.loose.symm
  have same : v.inner.children.row ts ++ F.row ts = v.inner.children.row ts ++ u := by
    rw [← gains.row, View.grow, Forest.row_append]
  exact ⟨F, gathers, builds', orderly, List.append_cancel_left same ▸ row⟩

/-- Behind a statement documentation comments wait for the next one. -/
theorem shapeOrApplyStatement_ends (waits : b.Waits ts v v' given)
    (run : (shapeOrApplyStatement given).run b = .ok docs b') (clean : b'.errors = b.errors) :
    Ends ts b' v docs ∨ Ends ts b' v' docs := by
  unfold shapeOrApplyStatement at run
  obtain ⟨token, b₁, hask, run⟩ := bind_eq_ok.mp run
  cases hask
  rw [if_neg (by rw [waits.settled]; exact Bool.false_ne_true)] at run
  obtain ⟨traits, b₁, detached, rest⟩ := bind_eq_ok.mp run
  obtain ⟨clean₁, clean₂⟩ := (Steady.ok detached).clean (Steady.ok rest) clean
  obtain ⟨T, builds₁, owes⟩ := detachedTraits_builds waits.builds detached clean₁
  obtain ⟨apply, b₂, hask, rest⟩ := bind_eq_ok.mp rest
  cases hask
  rw [run_ite] at rest
  split at rest
  · next apply =>
    obtain ⟨_, b₂, misplaced, rest⟩ := bind_eq_ok.mp rest
    obtain ⟨_, b₃, stated, ended⟩ := bind_eq_ok.mp rest
    obtain ⟨clean₃, clean₄⟩ := (Steady.ok misplaced).clean (Steady.ok rest) clean₂
    obtain ⟨clean₅, clean₆⟩ := (Steady.ok stated).clean (Steady.ok ended) clean₄
    obtain ⟨rfl, rfl⟩ := (misplaced_ok misplaced).2 clean₃
    obtain rfl : T = .nil := owes
    have h := waits.gathers.of_shows (Steady.ok detached).tokens builds₁.shown waits.gathers.alone
    obtain ⟨F, h', builds', orderly, row⟩ :=
      Orders.builds (statedApply_writes (identifier_of_keyword apply)) h builds₁ stated clean₅
    exact .inl (endStatement_ends h' builds' orderly row ended clean₆)
  obtain ⟨shape, b₂, hask, rest⟩ := bind_eq_ok.mp rest
  cases hask
  rw [run_ite] at rest
  split at rest
  · next shape =>
    obtain ⟨_, b₂, stated, ended⟩ := bind_eq_ok.mp rest
    obtain ⟨clean₃, clean₄⟩ := (Steady.ok stated).clean (Steady.ok ended) clean₂
    have here := of_decide_eq_true shape
    obtain ⟨F, h, orderly, row⟩ :=
      statedShape_gathers waits owes builds₁.shown (Steady.ok detached) here stated clean₃
    obtain ⟨w, u, builds₂, gains, -⟩ := statedShape_yields waits.held owes here builds₁ stated clean₃
    obtain rfl : v'.grow F = w :=
      builds₂.shown.unique h.shown (waits.names.trans gains.names.symm) (waits.loose.trans gains.loose.symm)
    exact .inr (endStatement_ends h builds₂ orderly row ended clean₄)
  rw [run_ite] at rest
  split at rest
  · next some =>
    obtain ⟨_, b₂, misplaced, done⟩ := bind_eq_ok.mp rest
    cases done
    obtain ⟨rfl, -⟩ := (misplaced_ok misplaced).2 clean₂
    cases some
  · obtain ⟨_, b₂, reported, done⟩ := bind_eq_ok.mp rest
    cases done
    obtain ⟨b₃, b₄, -, -, -, failed, -⟩ := within_shows builds₁.shown reported clean₂
    cases failed

/-! ### All statements -/

/-- Rows of lines, of which only the last one may lack its line break, and then at the end of the text. -/
def AreLines (b' : Buffer) (row : List Symbol) : Prop :=
  row ∈ Schema.line.star.matches' ∨ b'.hasNext = false ∧ row ∈ Schema.lines.matches'

theorem AreLines.append {b₁ : Buffer} {u u' : List Symbol} (h : AreLines b u) (next : b.hasNext = true)
    (line : IsLine b₁ u') : AreLines b₁ (u ++ u') := by
  obtain among | ⟨ended, -⟩ := h
  · rcases line with line | ⟨ended, line⟩
    · exact .inl (Writes.append_mem_star among line)
    · exact .inr ⟨ended, Language.append_mem_mul among (.inr line)⟩
  · exact absurd (ended.symm.trans next) Bool.false_ne_true

theorem AreLines.lines {u : List Symbol} (h : AreLines b u) : u ∈ Schema.lines.matches' := by
  obtain among | ⟨-, lines⟩ := h
  · have whole := Language.append_mem_mul (m := (Schema.optional Schema.lastLine).matches') among (.inl rfl)
    rwa [List.append_nil] at whole
  · exact lines

/-- Behind some statements: to one of two views the lines so far are added, and the same holds of what stays behind when
    the next statement adopts what waits. -/
def Lined (ts : Array Token) (b' : Buffer) (v v' : View) (id : NodeId) (docs : Docs) : Prop :=
  ∃ x x' F F', (x = v ∨ x = v') ∧ (x' = v ∨ x' = v') ∧
    b'.Waits ts ((x.enter id (.plain .shapeStatements)).grow F) ((x'.enter id (.plain .shapeStatements)).grow F') docs ∧
    (F.Orderly ts ∧ F'.Orderly ts) ∧ AreLines b' (F.row ts) ∧ AreLines b' (F'.row ts)

theorem Lined.next {id : NodeId} (h : Lined ts b v v' id given) (next : b.hasNext = true)
    (run : (shapeOrApplyStatement given).run b = .ok docs b') (clean : b'.errors = b.errors) :
    Lined ts b' v v' id docs := by
  obtain ⟨x, x', F, F', base, base', waits, ⟨orderly, orderly'⟩, lines, lines'⟩ := h
  have goesOn {y : View} {H : Forest} (base : y = v ∨ y = v') (orderly : H.Orderly ts) (lines : AreLines b (H.row ts))
      (ended : Ends ts b' ((y.enter id (.plain .shapeStatements)).grow H) docs) : Lined ts b' v v' id docs := by
    obtain ⟨G, G', waits', ⟨orderlyG, orderlyG'⟩, line, line'⟩ := ended
    rw [View.grow_grow, View.grow_grow] at waits'
    refine ⟨y, y, H ++ G, H ++ G', base, base, waits', ⟨?_, ?_⟩, ?_, ?_⟩
    · exact Forest.orderly_append.mpr ⟨orderly, orderlyG⟩
    · exact Forest.orderly_append.mpr ⟨orderly, orderlyG'⟩
    · exact Forest.row_append ▸ lines.append next line
    · exact Forest.row_append ▸ lines.append next line'
  rcases shapeOrApplyStatement_ends waits run clean with ended | ended
  · exact goesOn base orderly lines ended
  · exact goesOn base' orderly' lines' ended

/-- The statements are lines. The first of them may adopt what waits before all. -/
theorem shapeStatements_orders (waits : b.Waits ts v v' given) (run : (shapeStatements given).run b = .ok () b')
    (clean : b'.errors = b.errors) :
    ∃ x F, (x = v ∨ x = v') ∧ b'.Gathers ts (x.grow F) ∧ F.Orderly ts := by
  unfold shapeStatements at run
  obtain ⟨b₁, b₂, gathers, leads, same, inner, clean, -, -, close⟩ := within_gathers waits.gathers run clean
  obtain ⟨docs, b₃, looped, done⟩ := bind_eq_ok.mp inner
  cases done
  have start : Lined ts b₁ v v' b.tree.size given :=
    ⟨v, v', .nil, .nil, .inl rfl, .inr rfl, by simpa using waits.enter gathers leads same, ⟨trivial, trivial⟩,
      .inl (Language.nil_mem_kstar _), .inl (Language.nil_mem_kstar _)⟩
  have rounds : ∀ given b₃ docs b₄, b₁.Leads b₃ → Lined ts b₃ v v' b.tree.size given → b₃.hasNext = true →
      (shapeOrApplyStatement given).run b₃ = .ok docs b₄ → b₄.errors = b₃.errors → Lined ts b₄ v v' b.tree.size docs :=
    fun _ _ _ _ _ before next stated clean => before.next next stated clean
  obtain ⟨⟨x, _, F, _, base, _, waits', ⟨orderly, -⟩, lines, -⟩, -⟩ := foldWhile_clean rounds start looped clean
  have closed := close waits'.gathers (View.enter_names ..)
  rw [View.enter_grow_leave] at closed
  exact ⟨x, _, base, closed, fun _ => ⟨lines.lines, orderly⟩, trivial⟩

end Grammar

end SmithyIdl
