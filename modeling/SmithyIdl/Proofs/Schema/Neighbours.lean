import Mathlib.Data.List.Chain
import SmithyIdl.Proofs.Schema.Productions

/-! # Neighbours in a row

Which symbols a row can have, which can come first in it, last, and right behind each other, is read off the
production. -/

namespace SmithyIdl.Schema

open RegularExpression (matchEpsilon)

/-- The symbols that a row can have. -/
def symbols : Rows → List Symbol
  | .zero | .epsilon => []
  | .char s => [s]
  | .plus r q | .comp r q => symbols r ++ symbols q
  | .star r => symbols r

/-- The symbols that a row can start with. -/
def firsts : Rows → List Symbol
  | .zero | .epsilon => []
  | .char s => [s]
  | .plus r q => firsts r ++ firsts q
  | .comp r q => firsts r ++ if r.matchEpsilon then firsts q else []
  | .star r => firsts r

/-- The symbols that a row can end with. -/
def lasts : Rows → List Symbol
  | .zero | .epsilon => []
  | .char s => [s]
  | .plus r q => lasts r ++ lasts q
  | .comp r q => lasts q ++ if q.matchEpsilon then lasts r else []
  | .star r => lasts r

/-- The symbols that can stand next to each other in a row. -/
def neighbours : Rows → List (Symbol × Symbol)
  | .zero | .epsilon | .char _ => []
  | .plus r q => neighbours r ++ neighbours q
  | .comp r q => neighbours r ++ neighbours q ++ (lasts r).product (firsts q)
  | .star r => neighbours r ++ (lasts r).product (firsts r)

variable {r q : Rows} {u : List Symbol} {s : Symbol}

theorem matchEpsilon_of_nil (h : [] ∈ r.matches') : r.matchEpsilon = true := (r.rmatch_iff_matches' []).mpr h

theorem mem_symbols (h : u ∈ r.matches') (among : s ∈ u) : s ∈ symbols r := by
  induction r generalizing u with
  | zero => cases h
  | epsilon =>
    obtain rfl := h
    cases among
  | char a =>
    obtain rfl := h
    exact among
  | plus r q ihr ihq =>
    rcases h with h | h
    · exact List.mem_append_left _ (ihr h among)
    · exact List.mem_append_right _ (ihq h among)
  | comp r q ihr ihq =>
    obtain ⟨v, hv, w, hw, rfl⟩ := h
    rcases List.mem_append.mp among with among | among
    · exact List.mem_append_left _ (ihr hv among)
    · exact List.mem_append_right _ (ihq hw among)
  | star r ih =>
    obtain ⟨L, rfl, all⟩ := Language.mem_kstar.mp h
    obtain ⟨w, hw, among⟩ := List.mem_flatten.mp among
    exact ih (all w hw) among

theorem mem_firsts (h : u ∈ r.matches') (first : s ∈ u.head?) : s ∈ firsts r := by
  induction r generalizing u with
  | zero => cases h
  | epsilon =>
    obtain rfl := h
    cases first
  | char a =>
    obtain rfl := h
    cases first
    exact List.mem_singleton_self _
  | plus r q ihr ihq =>
    rcases h with h | h
    · exact List.mem_append_left _ (ihr h first)
    · exact List.mem_append_right _ (ihq h first)
  | comp r q ihr ihq =>
    obtain ⟨v, hv, w, hw, rfl⟩ := h
    cases v with
    | nil =>
      rw [firsts, if_pos (matchEpsilon_of_nil hv)]
      exact List.mem_append_right _ (ihq hw first)
    | cons a v => exact List.mem_append_left _ (ihr hv first)
  | star r ih =>
    obtain ⟨L, rfl, all⟩ := Language.mem_kstar_iff_exists_nonempty.mp h
    cases L with
    | nil => cases first
    | cons v L =>
      obtain ⟨hv, some⟩ := all v List.mem_cons_self
      rw [List.flatten_cons, List.head?_append_of_ne_nil _ some] at first
      exact ih hv first

theorem mem_lasts (h : u ∈ r.matches') (last : s ∈ u.getLast?) : s ∈ lasts r := by
  induction r generalizing u with
  | zero => cases h
  | epsilon =>
    obtain rfl := h
    cases last
  | char a =>
    obtain rfl := h
    cases last
    exact List.mem_singleton_self _
  | plus r q ihr ihq =>
    rcases h with h | h
    · exact List.mem_append_left _ (ihr h last)
    · exact List.mem_append_right _ (ihq h last)
  | comp r q ihr ihq =>
    obtain ⟨v, hv, w, hw, rfl⟩ := h
    rcases List.eq_nil_or_concat w with rfl | ⟨w, a, rfl⟩
    · rw [lasts, if_pos (matchEpsilon_of_nil hw)]
      exact List.mem_append_right _ (ihr hv (by simpa using last))
    · exact List.mem_append_left _ (ihq hw (by simpa using last))
  | star r ih =>
    obtain ⟨L, rfl, all⟩ := Language.mem_kstar_iff_exists_nonempty.mp h
    rcases List.eq_nil_or_concat L with rfl | ⟨L, v, rfl⟩
    · cases last
    · obtain ⟨hv, some⟩ := all v (by simp)
      obtain ⟨w, a, rfl⟩ := (List.eq_nil_or_concat v).resolve_left some
      exact ih hv (by simpa using last)

/-- All symbols next to each other in a row are neighbours in its production. -/
theorem isChain_neighbours (h : u ∈ r.matches') : u.IsChain fun s t => (s, t) ∈ neighbours r := by
  induction r generalizing u with
  | zero => cases h
  | epsilon =>
    obtain rfl := h
    exact .nil
  | char a =>
    obtain rfl := h
    exact .singleton a
  | plus r q ihr ihq =>
    rcases h with h | h
    · exact (ihr h).imp fun _ _ => List.mem_append_left _
    · exact (ihq h).imp fun _ _ => List.mem_append_right _
  | comp r q ihr ihq =>
    obtain ⟨v, hv, w, hw, rfl⟩ := h
    refine List.isChain_append.mpr ⟨?_, ?_, fun s last t first => ?_⟩
    · exact (ihr hv).imp fun _ _ among => List.mem_append_left _ (List.mem_append_left _ among)
    · exact (ihq hw).imp fun _ _ among => List.mem_append_left _ (List.mem_append_right _ among)
    · exact List.mem_append_right _ (List.pair_mem_product.mpr ⟨mem_lasts hv last, mem_firsts hw first⟩)
  | star r ih =>
    obtain ⟨L, rfl, all⟩ := Language.mem_kstar.mp h
    clear h
    induction L with
    | nil => exact .nil
    | cons v L ihL =>
      obtain ⟨hv, all⟩ := List.forall_mem_cons.mp all
      have rest : L.flatten ∈ (RegularExpression.star r).matches' := Language.mem_kstar.mpr ⟨L, rfl, all⟩
      refine List.isChain_append.mpr ⟨(ih hv).imp fun _ _ => List.mem_append_left _, ihL all, fun s last t first => ?_⟩
      have head : t ∈ firsts r.star := mem_firsts rest first
      exact List.mem_append_right _ (List.pair_mem_product.mpr ⟨mem_lasts hv last, head⟩)

/-! ### Structures defined in place -/

/-- The nodes in which a structure can be defined in place. -/
def inlineHolders : List TreeKind :=
  [.idl, .shapeSection, .shapeStatements, .shapeOrApplyStatement, .shapeStatement, .shapeBody, .operationStatement,
    .operationBody, .operationInput, .operationOutput, .inlineStructure]

/-- Whether the symbol is neither the sign of such a structure nor a node in which one can stand. -/
def isSignless : Symbol → Bool
  | .token kind => kind ≠ .walrus
  | .node kind => kind ∉ inlineHolders
  | .absoluteId => true

theorem isSignless_of_matches (signless : (symbols r).all isSignless = true) (h : u ∈ r.matches') (among : s ∈ u) :
    isSignless s = true := List.all_eq_true.mp signless s (mem_symbols h among)

theorem isSignless_of_ofNode {kind : TreeKind} {first : Option TreeKind}
    (signless : isSignless (Symbol.ofNode kind first) = true) : isSignless (.node kind) = true := by
  unfold Symbol.ofNode at signless
  split at signless
  · next id =>
    rw [id.1]
    rfl
  · exact signless

/-- Below a node without a sign there is none either. -/
theorem isSignless_of_production {kind : TreeKind} (signless : isSignless (.node kind) = true)
    (among : s ∈ symbols (production kind)) : isSignless s = true := by
  have all : (symbols (production kind)).all isSignless = true := by
    cases kind <;> first | rfl | cases signless
  exact List.all_eq_true.mp all s among

theorem holder_of_walrus {kind : TreeKind} (among : .token .walrus ∈ symbols (production kind)) :
    kind = .inlineStructure := by
  cases kind <;> first | rfl | exact absurd among (by decide)

theorem holder_of_inlineStructure {kind : TreeKind} (among : .node .inlineStructure ∈ symbols (production kind)) :
    kind = .operationInput ∨ kind = .operationOutput := by
  cases kind <;> first | exact .inl rfl | exact .inr rfl | exact absurd among (by decide)

/-! ### Entries of an object -/

/-- Behind an entry comes an entry, whitespace or the closing brace, which is the last symbol; and no whitespace comes
behind whitespace. -/
theorem neighbours_nodeObject : ∀ p ∈ neighbours (production .nodeObject),
    p.1 ≠ .token .rbrace ∧
    (p.1 = .node .nodeObjectEntry → p.2 = .node .nodeObjectEntry ∨ p.2 = .node .whitespace ∨ p.2 = .token .rbrace) ∧
    (p.1 = .node .whitespace → p.2 = .node .nodeObjectEntry ∨ p.2 = .token .rbrace) := by decide

/-- Between an entry and the next one there is whitespace or nothing. -/
theorem between_entries {front between back : List Symbol}
    (h : front ++ .node .nodeObjectEntry :: between ++ .node .nodeObjectEntry :: back ∈
      (production .nodeObject).matches')
    (next : .node .nodeObjectEntry ∉ between) : between = [.node .whitespace] ∨ between = [] := by
  have chain := isChain_neighbours h
  rw [List.append_assoc, List.isChain_append, List.cons_append] at chain
  obtain ⟨-, chain, -⟩ := chain
  -- What stands between is no closing brace, as something comes behind it.
  have inside : ∀ s ∈ between, s ≠ .token .rbrace := by
    rintro s among rfl
    obtain ⟨us, vs, rfl⟩ := List.append_of_mem among
    rw [List.append_assoc, List.cons_append, ← List.cons_append, List.isChain_append] at chain
    obtain ⟨t, ts, some⟩ := List.exists_cons_of_ne_nil (l := vs ++ .node .nodeObjectEntry :: back) (by simp)
    rw [some, List.isChain_cons_cons] at chain
    exact (neighbours_nodeObject _ chain.2.1.1).1 rfl
  cases between with
  | nil => exact .inr rfl
  | cons s between =>
    rw [List.cons_append, List.isChain_cons_cons] at chain
    obtain ⟨first, chain⟩ := chain
    obtain ⟨noEntry, next⟩ := not_or.mp (mt List.mem_cons.mpr next)
    obtain ⟨noBrace, inside⟩ := List.forall_mem_cons.mp inside
    have white : s = .node .whitespace := by
      rcases (neighbours_nodeObject _ first).2.1 rfl with entry | white | brace
      · exact absurd entry.symm noEntry
      · exact white
      · exact absurd brace noBrace
    cases between with
    | nil => exact .inl (white ▸ rfl)
    | cons t between =>
      rw [List.cons_append, List.isChain_cons_cons] at chain
      rcases (neighbours_nodeObject _ chain.1).2.2 white with entry | brace
      · exact absurd (entry ▸ List.mem_cons_self) next
      · exact absurd brace (inside t List.mem_cons_self)

end SmithyIdl.Schema
