import Mathlib.Data.List.Basic
import Mathlib.Order.Defs.PartialOrder
import SmithyIdl.Proofs.Token.Lines

/-! # The order of positions

Positions are ordered by line and then by column. Reading on leads to later positions, later bytes stand at later
positions, and of two tokens the first ends before the other starts. -/

namespace SmithyIdl

/-! ### Positions -/

namespace Position

instance : LT Position := ltOfOrd

instance : LE Position := leOfOrd

variable {p q : Position} {cs : List Char}

theorem lt_iff : p < q ↔ p.line < q.line ∨ p.line = q.line ∧ p.column < q.column := by
  change Position.compare p q = .lt ↔ _
  rw [Position.compare, Ordering.then_eq_lt, Nat.compare_eq_lt, Nat.compare_eq_eq, Nat.compare_eq_lt]

theorem le_iff : p ≤ q ↔ p.line < q.line ∨ p.line = q.line ∧ p.column ≤ q.column := by
  change (Position.compare p q).isLE = true ↔ _
  rw [Position.compare, Ordering.isLE_then_iff_or, Nat.compare_eq_lt, Nat.compare_eq_eq, Nat.isLE_compare]

instance : PartialOrder Position where
  le_refl p := le_iff.mpr (.inr ⟨rfl, Nat.le_refl _⟩)
  le_trans p q r := by
    simp only [le_iff]
    omega
  lt_iff_le_not_ge p q := by
    simp only [lt_iff, le_iff]
    omega
  le_antisymm p q := by
    obtain ⟨line, column⟩ := p
    obtain ⟨line', column'⟩ := q
    simp only [le_iff, mk.injEq]
    omega

theorem lt_advance (some : cs ≠ []) : p < p.advance cs := by
  have wide : 0 < byteLength cs := by
    obtain ⟨c, ds, rfl⟩ := List.exists_cons_of_ne_nil some
    exact Nat.lt_of_lt_of_le c.utf8Size_pos (Nat.le_add_right ..)
  rw [lt_iff, advance_eq]
  split
  · exact .inr ⟨rfl, Nat.lt_add_of_pos_right wide⟩
  · next breaks => exact .inl (Nat.lt_add_of_pos_right (Nat.pos_of_ne_zero breaks))

/-- A later byte stands in a later line, or in the same line with the same line ends before it. -/
theorem ofOffset_lt (cs : List Char) {n k : Nat} (h : n < k) : ofOffset cs n < ofOffset cs k := by
  have fewer : ((lineEnds 0 cs).filter (· ≤ n)).Sublist ((lineEnds 0 cs).filter (· ≤ k)) := by
    refine List.monotone_filter_right _ fun e he => ?_
    rw [decide_eq_true_eq] at he ⊢
    omega
  rw [lt_iff]
  dsimp only [ofOffset]
  rcases Nat.lt_or_ge ((lineEnds 0 cs).filter (· ≤ n)).length ((lineEnds 0 cs).filter (· ≤ k)).length with less | same
  · exact .inl (Nat.add_lt_add_left less 1)
  · have last : ((lineEnds 0 cs).filter (· ≤ n)).getLast?.getD 0 ≤ n := by
      cases ends : ((lineEnds 0 cs).filter (· ≤ n)).getLast? with
      | none => exact Nat.zero_le n
      | some e => exact of_decide_eq_true (List.mem_filter.mp (List.mem_of_getLast? ends)).2
    rw [← fewer.eq_of_length_le same]
    exact .inr ⟨rfl, by omega⟩

end Position

/-! ### Tokens -/

/-- Each token starts before it ends, and ends before the later ones start. -/
structure InOrder (ts : List Token) : Prop where
  wide : ∀ t ∈ ts, t.start < t.stop
  ordered : ts.Pairwise (·.stop ≤ ·.start)

namespace InOrder

variable {ts us : List Token} {t u : Token}

theorem append (h : InOrder (ts ++ us)) : InOrder ts ∧ InOrder us ∧ ∀ t ∈ ts, ∀ u ∈ us, t.stop ≤ u.start := by
  obtain ⟨wide, ordered⟩ := h
  obtain ⟨front, back, across⟩ := List.pairwise_append.mp ordered
  exact ⟨⟨fun t ht => wide t (List.mem_append_left _ ht), front⟩,
    ⟨fun t ht => wide t (List.mem_append_right _ ht), back⟩, across⟩

theorem first_le (h : InOrder ts) (first : ts.head? = some t) (among : u ∈ ts) : t.start ≤ u.start := by
  obtain ⟨ts, rfl⟩ := List.head?_eq_some_iff.mp first
  rcases List.mem_cons.mp among with rfl | among
  · exact le_refl _
  · exact le_trans (le_of_lt (h.wide t List.mem_cons_self)) ((List.pairwise_cons.mp h.ordered).1 u among)

theorem first_stop_le (h : InOrder ts) (first : ts.head? = some t) (among : u ∈ ts) : t.stop ≤ u.stop := by
  obtain ⟨ts, rfl⟩ := List.head?_eq_some_iff.mp first
  rcases List.mem_cons.mp among with rfl | later
  · exact le_refl _
  · exact le_trans ((List.pairwise_cons.mp h.ordered).1 u later) (le_of_lt (h.wide u among))

theorem le_last (h : InOrder ts) (last : ts.getLast? = some t) (among : u ∈ ts) : u.stop ≤ t.stop := by
  obtain ⟨ts, rfl⟩ := List.getLast?_eq_some_iff.mp last
  rcases List.mem_append.mp among with among | among
  · have touch := h.append.2.2 u among t (List.mem_singleton_self t)
    exact le_trans touch (le_of_lt (h.wide t (List.mem_of_getLast? last)))
  · rw [List.mem_singleton.mp among]

/-- No token comes twice. -/
theorem nodup (h : InOrder ts) : ts.Nodup := by
  refine List.Pairwise.imp_of_mem (fun {t u} ht _ before same => ?_) h.ordered
  subst same
  exact absurd (h.wide t ht) (not_lt_of_ge before)

end InOrder

theorem Follow.inOrder {before : List Char} {ts : List Token} (h : Follow before ts)
    (wide : ∀ t ∈ ts, t.start < t.stop) : InOrder ts := by
  induction h with
  | nil => exact ⟨nofun, .nil⟩
  | @cons before cs t ts stands rest ih =>
    have later := ih fun u hu => wide u (List.mem_cons_of_mem _ hu)
    refine ⟨wide, .cons (fun u hu => ?_) later.ordered⟩
    cases rest with
    | nil => cases hu
    | @cons _ _ v ts stands' _ =>
      have touch : t.stop = v.start := stands.stop.trans stands'.start.symm
      exact le_trans (le_of_eq touch) (later.first_le rfl hu)

variable {text : String} {t : Token}

theorem start_lt_stop (among : t ∈ tokens text) (other : t.kind ≠ .eof) : t.start < t.stop := by
  obtain ⟨offset, p, c, cs, rfl⟩ := (tokens_scans text).exists_scanned among other
  exact Position.lt_advance (List.cons_ne_nil _ _)

theorem nodup_tokens (text : String) : (tokens text).Nodup := by
  obtain ⟨init, last, all, eof, -, others⟩ := (tokens_cuts text).exists_last
  have follow := tokens_follow text
  rw [all] at follow ⊢
  have row : InOrder init :=
    follow.append.1.inOrder fun t ht => start_lt_stop (all ▸ List.mem_append_left _ ht) (others t ht)
  refine List.nodup_append.mpr ⟨row.nodup, List.pairwise_singleton _ last, fun t ht u hu => ?_⟩
  obtain rfl := List.mem_singleton.mp hu
  rintro rfl
  exact others t ht eof

/-- Where a token ends and the next one starts, the characters of the tokens before tell the position. -/
theorem ofOffset_lexemes {us vs : List Token} (all : tokens text = us ++ vs) :
    Position.ofOffset text.toList (byteLength (lexemes us)) = Position.behind (lexemes us) := by
  have scans := tokens_scans text
  have whole : lexemes us ++ lexemes vs = text.toList := by rw [← lexemes_append, ← all, scans.lexemes_eq]
  have cut : CutsNoPair ([] ++ lexemes us) (lexemes vs) := Scans.keepsPairs (all ▸ scans) nofun
  rw [← whole]
  exact Position.ofOffset_byteLength cut

/-- The bytes of a token stand between its ends. -/
theorem ofOffset_inside (among : t ∈ tokens text) {k : Nat} (behind : t.range.start < k) (before : k < t.range.stop) :
    t.start < Position.ofOffset text.toList k ∧ Position.ofOffset text.toList k < t.stop := by
  obtain ⟨us, vs, all, stands⟩ := (tokens_follow text).exists_stands among
  have range := stands.range
  have start := stands.start
  have stop := stands.stop
  have all' : tokens text = (us ++ [t]) ++ vs := by simp [all]
  have both : lexemes (us ++ [t]) = lexemes us ++ t.lexeme.toList := by simp
  rw [List.nil_append] at range start stop
  rw [range] at behind before
  rw [start, stop, ← both, ← ofOffset_lexemes all, ← ofOffset_lexemes all', both]
  exact ⟨Position.ofOffset_lt _ behind, Position.ofOffset_lt _ before⟩

end SmithyIdl
