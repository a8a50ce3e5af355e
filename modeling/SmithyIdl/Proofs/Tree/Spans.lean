import SmithyIdl.Proofs.Token.Places
import SmithyIdl.Proofs.Tree.Reads

/-! # The stretch of a node

A tree whose tokens stand one behind the other takes the stretch of the text that their characters make up, and
its children with tokens cut this stretch into pieces. -/

namespace SmithyIdl

/-- Ranges one behind the other, from an offset to another. -/
def Tiles : Nat → List ByteRange → Nat → Prop
  | start, [], stop => start = stop
  | start, r :: rs, stop => r.start = start ∧ Tiles r.stop rs stop

namespace SyntaxTree

/-- Whether a node has tokens. -/
def hasTokens (t : SyntaxTree) (id : NodeId) : Bool :=
  match (Reading.tokenCount id).run' t with
  | .ok n => 0 < n
  | .error _ => false

/-- A node takes the characters `cs`, which stand behind `before`. -/
structure Takes (t : SyntaxTree) (id : NodeId) (before cs : List Char) : Prop where
  range : (Reading.range id).run' t = .ok ⟨byteLength before, byteLength (before ++ cs)⟩
  text : (Reading.text id).run' t = .ok (.ofList cs)
  start : (Reading.start id).run' t = .ok (.behind before)
  stop : (Reading.stop id).run' t = .ok (.behind (before ++ cs))

/-- The ranges of those of the nodes that have tokens go one behind the other from an offset to another. -/
def TiledBy (t : SyntaxTree) (ids : List NodeId) (start stop : Nat) : Prop :=
  ∃ rs, (ids.filter t.hasTokens).mapM (fun c => (Reading.range c).run' t) = .ok rs ∧ Tiles start rs stop

/-- A forest of the tree whose tokens are `ts`, which stand one behind the other from some characters on. -/
structure Lays (t : SyntaxTree) (parent : Option NodeId) (F : Forest) (before : List Char) (ts : List Token) :
    Prop where
  holds : t.Holds parent F
  fits : F.ids.length ≤ t.size
  nodup : F.ids.Nodup
  tokens : F.tokens.map (t.tokens[·]?) = ts.map some
  follow : Follow before ts

variable {t : SyntaxTree} {parent : Option NodeId} {F G D : Forest} {d : NodeId} {before : List Char}
  {ts : List Token}

namespace Lays

theorem append (h : t.Lays parent (F ++ G) before ts) :
    ∃ us vs, ts = us ++ vs ∧ t.Lays parent F before us ∧ t.Lays parent G (before ++ lexemes us) vs := by
  obtain ⟨holds, fits, nodup, tokens, follow⟩ := h
  obtain ⟨left, right⟩ := holds_append.mp holds
  rw [Forest.ids_append] at fits nodup
  rw [List.length_append] at fits
  rw [Forest.tokens_append, List.map_append] at tokens
  obtain ⟨us, vs, rfl, first, second⟩ := List.map_eq_append_iff.mp tokens.symm
  obtain ⟨front, back⟩ := follow.append
  obtain ⟨nodup, nodup', -⟩ := List.nodup_append.mp nodup
  exact ⟨us, vs, rfl, ⟨left, by omega, nodup, first.symm, front⟩, ⟨right, by omega, nodup', second.symm, back⟩⟩

theorem inner {label : Label} (h : t.Lays parent (.branch d label F .nil) before ts) :
    t.Lays (some d) F before ts := by
  obtain ⟨⟨-, holds, -⟩, fits, nodup, tokens, follow⟩ := h
  simp only [Forest.ids_branch, Forest.ids_nil, List.append_nil, List.length_cons, List.nodup_cons] at fits nodup
  simp only [Forest.tokens_branch, Forest.tokens_nil, List.append_nil] at tokens
  exact ⟨holds, by omega, nodup.2, tokens, follow⟩

/-- Every tree somewhere in a forest takes some of its tokens in a row. -/
theorem exists_tree (h : t.Lays parent F before ts) (hd : d ∈ F.ids) :
    ∃ parent' D us vs ws, D.roots = [d] ∧ ts = us ++ vs ++ ws ∧ t.Lays parent' D (before ++ lexemes us) vs := by
  induction F generalizing parent before ts with
  | nil => cases hd
  | leaf id token rest ih =>
    obtain ⟨us, vs, rfl, first, second⟩ := append (F := .leaf id token .nil) h
    rcases List.mem_cons.mp hd with rfl | hd
    · exact ⟨parent, _, [], us, vs, rfl, by simp, by simpa using first⟩
    · obtain ⟨parent', D, us', vs', ws, one, rfl, lays⟩ := ih second hd
      exact ⟨parent', D, us ++ us', vs', ws, one, by simp, by simpa using lays⟩
  | branch id label inner rest ihInner ihRest =>
    obtain ⟨us, vs, rfl, first, second⟩ := append (F := .branch id label inner .nil) h
    rcases List.mem_cons.mp hd with rfl | hd
    · exact ⟨parent, _, [], us, vs, rfl, by simp, by simpa using first⟩
    rcases List.mem_append.mp hd with hd | hd
    · obtain ⟨parent', D, us', vs', ws, one, rfl, lays⟩ := ihInner first.inner hd
      exact ⟨parent', D, us', vs', ws ++ vs, one, by simp, lays⟩
    · obtain ⟨parent', D, us', vs', ws, one, rfl, lays⟩ := ihRest second hd
      exact ⟨parent', D, us ++ us', vs', ws, one, by simp, by simpa using lays⟩

end Lays

/-! ### Readers -/

theorem reads_stop (h : t.Holds parent D) (one : D.roots = [d]) (fits : D.ids.length ≤ t.size) (nodup : D.ids.Nodup)
    {i : TokenId} {rest : List TokenId} {token : Token} (tokens : D.tokens = rest ++ [i])
    (found : t.tokens[i]? = some token) : Reads (Reading.stop d) t parent D d token.stop :=
  (reads_lastToken h one fits nodup tokens found).bind fun _ keeps => .pure keeps.holds

namespace Lays

theorem tokenCount (h : t.Lays parent D before ts) (one : D.roots = [d]) :
    (Reading.tokenCount d).run' t = .ok ts.length := by
  have count : D.tokens.length = ts.length := by simpa using congrArg List.length h.tokens
  have read := ((reads_tokenIds h.holds one h.fits h.nodup).map (g := Array.size)).run'
  rw [Reading.tokenCount, read]
  simp [count]

theorem hasTokens_iff (h : t.Lays parent D before ts) (one : D.roots = [d]) : t.hasTokens d = true ↔ ts ≠ [] := by
  rw [hasTokens, h.tokenCount one]
  simp [List.length_pos_iff]

theorem tokens_cons {u : Token} {us : List Token} (h : t.Lays parent D before (u :: us)) :
    ∃ i is, D.tokens = i :: is ∧ t.tokens[i]? = some u := by
  have tokens := h.tokens
  rw [List.map_cons] at tokens
  obtain ⟨i, is, split, found, -⟩ := List.map_eq_cons_iff.mp tokens
  exact ⟨i, is, split, found⟩

theorem tokens_concat {u : Token} {us : List Token} (h : t.Lays parent D before (us ++ [u])) :
    ∃ is i, D.tokens = is ++ [i] ∧ t.tokens[i]? = some u := by
  have tokens := h.tokens
  rw [List.map_append] at tokens
  obtain ⟨is, ks, split, -, right⟩ := List.map_eq_append_iff.mp tokens
  obtain ⟨i, rfl, found⟩ : ∃ i, ks = [i] ∧ t.tokens[i]? = some u := by simpa using right
  exact ⟨is, i, split, found⟩

theorem firstToken {u : Token} {us : List Token} (h : t.Lays parent D before (u :: us)) (one : D.roots = [d]) :
    (Reading.firstToken? d).run' t = .ok (some u) := by
  obtain ⟨i, is, split, found⟩ := h.tokens_cons
  exact (reads_firstToken h.holds one h.fits h.nodup split found).run'

theorem lastToken {u : Token} {us : List Token} (h : t.Lays parent D before (us ++ [u])) (one : D.roots = [d]) :
    (Reading.lastToken? d).run' t = .ok (some u) := by
  obtain ⟨is, i, split, found⟩ := h.tokens_concat
  exact (reads_lastToken h.holds one h.fits h.nodup split found).run'

/-- A tree with tokens takes their characters. -/
theorem takes (h : t.Lays parent D before ts) (one : D.roots = [d]) (some : ts ≠ []) :
    t.Takes d before (lexemes ts) := by
  obtain ⟨first, us, starts⟩ := List.exists_cons_of_ne_nil some
  obtain ⟨init, last, ends⟩ : ∃ init last, ts = init ++ [last] := ⟨_, _, (List.dropLast_concat_getLast some).symm⟩
  obtain ⟨i, is, hi, foundFirst⟩ := tokens_cons (starts ▸ h)
  obtain ⟨js, j, hj, foundLast⟩ := tokens_concat (ends ▸ h)
  obtain ⟨holds, fits, nodup, tokens, follow⟩ := h
  refine ⟨?_, ?_, ?_, ?_⟩
  · rw [(reads_range holds one fits nodup hi hj foundFirst foundLast).run', follow.cover starts ends]
  · rw [(reads_text holds one fits nodup tokens).run', ofList_lexemes]
  · subst starts
    rw [(reads_start holds one fits nodup hi foundFirst).run', follow.first.1]
  · subst ends
    rw [(reads_stop holds one fits nodup hj foundLast).run', follow.last.1]

/-- A tree in front of others whose stretches are one behind the other. -/
theorem tiles_cons (h : t.Lays parent (D ++ F) before ts) (one : D.roots = [d])
    (rest : ∀ {before ts}, t.Lays parent F before ts →
      t.TiledBy F.roots (byteLength before) (byteLength (before ++ lexemes ts))) :
    t.TiledBy (D ++ F).roots (byteLength before) (byteLength (before ++ lexemes ts)) := by
  obtain ⟨us, vs, rfl, first, second⟩ := h.append
  obtain ⟨rs, reads, tiles⟩ := rest second
  rw [lexemes_append, ← List.append_assoc, Forest.roots_append, one, List.singleton_append]
  by_cases none : us = []
  · subst none
    have skipped : t.hasTokens d = false := by simp [← Bool.not_eq_true, first.hasTokens_iff one]
    refine ⟨rs, ?_, by simpa using tiles⟩
    rwa [List.filter_cons_of_neg (by simp [skipped])]
  · have kept : t.hasTokens d = true := (first.hasTokens_iff one).mpr none
    refine ⟨⟨byteLength before, byteLength (before ++ lexemes us)⟩ :: rs, ?_, rfl, tiles⟩
    rw [List.filter_cons_of_pos kept, List.mapM_cons, (first.takes one none).range, reads]
    rfl

/-- The trees with tokens cut the stretch of a forest into pieces. -/
theorem tiles (h : t.Lays parent F before ts) :
    t.TiledBy F.roots (byteLength before) (byteLength (before ++ lexemes ts)) := by
  induction F generalizing before ts with
  | nil =>
    obtain rfl : ts = [] := by simpa using h.tokens
    exact ⟨[], rfl, by simp [Tiles]⟩
  | leaf id token rest ih => exact tiles_cons (D := .leaf id token .nil) h rfl ih
  | branch id label inner rest _ ih => exact tiles_cons (D := .branch id label inner .nil) h rfl ih

theorem exists_hasTokens (h : t.Lays parent F before ts) (some : ts ≠ []) : ∃ c ∈ F.roots, t.hasTokens c = true := by
  induction F generalizing before ts with
  | nil => exact absurd (by simpa using h.tokens) some
  | leaf id token rest _ =>
    obtain ⟨us, vs, rfl, first, -⟩ := append (F := .leaf id token .nil) h
    have one : us ≠ [] := by
      rintro rfl
      simpa using first.tokens
    exact ⟨id, List.mem_cons_self, (first.hasTokens_iff rfl).mpr one⟩
  | branch id label inner rest _ ih =>
    obtain ⟨us, vs, rfl, first, second⟩ := append (F := .branch id label inner .nil) h
    by_cases none : us = []
    · obtain ⟨c, hc, kept⟩ := ih second (by simpa [none] using some)
      exact ⟨c, List.mem_cons_of_mem _ hc, kept⟩
    · exact ⟨id, List.mem_cons_self, (first.hasTokens_iff rfl).mpr none⟩

/-- The children of a tree have its tokens. -/
theorem below (h : t.Lays parent D before ts) (one : D.roots = [d]) (children : t.childrenOf d ≠ []) :
    ∃ F, t.childrenOf d = F.roots ∧ t.Lays (some d) F before ts := by
  rcases Forest.eq_of_roots d one with ⟨token, rfl⟩ | ⟨label, inner, rfl⟩
  · obtain ⟨⟨_, node, -⟩, -⟩ := h.holds
    exact absurd (by simp [childrenOf, node, Node.children]) children
  · obtain ⟨⟨_, node, -⟩, -⟩ := h.holds
    exact ⟨inner, by simp [childrenOf, node, Node.children], h.inner⟩

/-- A tree with tokens and children is cut into those of them that have tokens. -/
theorem children_tile (h : t.Lays parent D before ts) (one : D.roots = [d]) (some : ts ≠ [])
    (children : t.childrenOf d ≠ []) :
    (∃ c ∈ t.childrenOf d, t.hasTokens c = true) ∧
      t.TiledBy (t.childrenOf d) (byteLength before) (byteLength (before ++ lexemes ts)) := by
  obtain ⟨F, below, lays⟩ := h.below one children
  rw [below]
  exact ⟨lays.exists_hasTokens some, lays.tiles⟩

end Lays

end SyntaxTree

end SmithyIdl
