import SmithyIdl.Proofs.Acceptance
import SmithyIdl.Proofs.Schema.Neighbours
import SmithyIdl.Proofs.Spans
import SmithyIdl.Proofs.Token.Adjacent
import SmithyIdl.Proofs.Trivia.Trees

/-! # What stands between entries and between statements

Whitespace between two entries of an object is read where it stands, but not asked for. So an entry can begin right
behind the last token of the one before, unless both tokens would be identifiers: these would be one.

Every statement stands with the end of its line. Spaces that the statement does not take itself are read before the line
break is opened, so they come to stand between the two. -/

namespace SmithyIdl

namespace Forest

variable {F : Forest} {l r : List NodeId} {ts : Array Token} {k : TokenKind}

theorem exists_append (h : F.roots = l ++ r) : ∃ G H, F = G ++ H ∧ G.roots = l ∧ H.roots = r := by
  induction F generalizing l with
  | nil =>
    obtain ⟨rfl, rfl⟩ := List.append_eq_nil_iff.mp h.symm
    exact ⟨nil, nil, rfl, rfl, rfl⟩
  | leaf id token rest ih =>
    cases l with
    | nil => exact ⟨nil, _, rfl, rfl, h⟩
    | cons i l =>
      obtain ⟨rfl, below⟩ := List.cons.inj h
      obtain ⟨G, H, rfl, rfl, same⟩ := ih below
      exact ⟨leaf id token G, H, rfl, rfl, same⟩
  | branch id label inner rest _ ih =>
    cases l with
    | nil => exact ⟨nil, _, rfl, rfl, h⟩
    | cons i l =>
      obtain ⟨rfl, below⟩ := List.cons.inj h
      obtain ⟨G, H, rfl, rfl, same⟩ := ih below
      exact ⟨branch id label inner G, H, rfl, rfl, same⟩

theorem tokens_ne_nil_of_row (h : .token k ∈ F.row ts) : F.tokens ≠ [] := by
  induction F with
  | nil => cases h
  | leaf => exact List.cons_ne_nil _ _
  | branch id label inner rest _ ih =>
    rcases List.mem_cons.mp h with here | below
    · unfold Symbol.ofNode at here
      split at here <;> cases here
    · exact List.append_ne_nil_of_right_ne_nil _ (ih below)

end Forest

theorem Schema.colon_mem_of_entry {u : List Symbol} (h : u ∈ Schema.entry.matches') : .token .colon ∈ u := by
  obtain ⟨key, -, _, ⟨space, -, _, ⟨colon, sign, rest, -, rfl⟩, rfl⟩, rfl⟩ := h
  obtain rfl := Schema.mem_tok.mp sign
  simp

namespace SyntaxTree

variable {t : SyntaxTree} {parent : Option NodeId} {D F : Forest} {d e e' : NodeId} {before : List Char}
  {ts us : List Token} {u : Token} {row : List Symbol} {k : TreeKind}

/-- Between an entry of an object and the next one there is one node of whitespace or nothing. -/
theorem Conforms.between_entries (conforms : t.Conforms) (object : t.kind? d = some .nodeObject)
    {front between back : List NodeId} (children : t.childrenOf d = front ++ e :: between ++ e' :: back)
    (kind : t.kind? e = some .nodeObjectEntry) (kind' : t.kind? e' = some .nodeObjectEntry)
    (others : ∀ c ∈ between, t.kind? c ≠ some .nodeObjectEntry) :
    (∃ w, between = [w] ∧ t.kind? w = some .whitespace) ∨ between = [] := by
  obtain ⟨node, found, sort⟩ := Option.map_eq_some_iff.mp object
  have inner : node.isLeaf = false := by
    obtain ⟨_ | _, _, _⟩ := node
    · cases sort
    · rfl
  obtain ⟨row, symbols, among⟩ := conforms d node found inner
  rw [sort] at among
  have whole := map_symbol? symbols
  rw [children, List.map_append, List.map_append, List.map_cons, List.map_cons] at whole
  obtain ⟨rs, rs', rfl, before, behind⟩ := List.map_eq_append_iff.mp whole
  obtain ⟨us, rs, rfl, -, before⟩ := List.map_eq_append_iff.mp before
  obtain ⟨s, mid, rfl, first, same⟩ := List.map_eq_cons_iff.mp before
  obtain ⟨s', vs, rfl, second, -⟩ := List.map_eq_cons_iff.mp behind
  obtain rfl := (kind?_iff_of_symbol? (by decide) (by decide) first.symm).mp kind
  obtain rfl := (kind?_iff_of_symbol? (by decide) (by decide) second.symm).mp kind'
  have next : .node .nodeObjectEntry ∉ mid := by
    intro entry
    have entry := List.mem_map_of_mem (f := some) entry
    rw [same] at entry
    obtain ⟨c, inside, symbol⟩ := List.mem_map.mp entry
    exact others c inside (kind?_of_symbol? symbol)
  rcases Schema.between_entries among next with rfl | rfl
  · obtain ⟨w, rest, rfl, symbol, none⟩ := List.map_eq_cons_iff.mp same.symm
    obtain rfl := List.map_eq_nil_iff.mp none
    exact .inl ⟨w, rfl, kind?_of_symbol? symbol⟩
  · exact .inr (List.map_eq_nil_iff.mp same.symm)

/-- An entry of an object has tokens. -/
theorem Lays.entry_ne_nil (h : t.Lays parent D before ts) (one : D.roots = [e]) (conforms : t.Conforms)
    (kind : t.kind? e = some .nodeObjectEntry) : ts ≠ [] := by
  rintro rfl
  have none : D.tokens = [] := by simpa using h.tokens
  rcases Forest.eq_of_roots e one with ⟨token, rfl⟩ | ⟨label, inner, rfl⟩
  · cases none
  · obtain ⟨⟨kept, node, -⟩, within, -⟩ := h.holds
    have empty : inner.tokens = [] := by simpa using none
    have entry : label.kind = .nodeObjectEntry := by
      rw [kind?, node] at kind
      exact Option.some.inj kind
    obtain ⟨row, children, among⟩ := conforms e _ node rfl
    have below : t.childrenOf e = inner.roots := by simp [childrenOf, node, Node.children]
    rw [row?, below, within.mapM_symbol (by simp [empty])] at children
    obtain rfl := Option.some.inj children
    have among : inner.row t.tokens ∈ (Schema.production label.kind).matches' := among
    rw [entry] at among
    exact Forest.tokens_ne_nil_of_row (Schema.colon_mem_of_entry among) empty

/-- Where a tree stands right behind another one, so do their tokens. -/
theorem Lays.touch (h : t.Lays parent F before ts) {front back : List NodeId} (children : F.roots = front ++ e :: e' :: back)
    (filled : ∀ {D before ts}, t.Lays parent D before ts → D.roots = [e] ∨ D.roots = [e'] → ts ≠ []) :
    ∃ us last first vs, ts = us ++ last :: first :: vs ∧ (Reading.lastToken? e).run' t = .ok (some last) ∧
      (Reading.firstToken? e').run' t = .ok (some first) := by
  obtain ⟨A, B, rfl, -, children⟩ := Forest.exists_append children
  obtain ⟨D, B, rfl, one, children⟩ := Forest.exists_append (l := [e]) children
  obtain ⟨D', B, rfl, one', -⟩ := Forest.exists_append (l := [e']) children
  obtain ⟨us, vs, rfl, -, h⟩ := h.append
  obtain ⟨ws, vs, rfl, lays, h⟩ := h.append
  obtain ⟨ws', vs, rfl, lays', -⟩ := h.append
  obtain ⟨ws, last, rfl⟩ : ∃ us last, ws = us ++ [last] :=
    ⟨_, _, (List.dropLast_concat_getLast (filled lays (.inl one))).symm⟩
  obtain ⟨first, ws', rfl⟩ := List.exists_cons_of_ne_nil (filled lays' (.inr one'))
  exact ⟨us ++ ws, last, first, ws' ++ vs, by simp, lays.lastToken one, lays'.firstToken one'⟩

end SyntaxTree

/-- In a file without errors, one node of whitespace stands between two entries of an object that follow each other, or
nothing: then the second begins with the token behind the last token of the first, and not both of them are identifiers. -/
theorem parse_separates_entries (filename text : String) (maxDepth : Nat) :
    ∃ m, parse filename text maxDepth = .ok m ∧ (m.hasErrors = .ok false →
      ∀ id front e between e' back, m.tree.kind? id = some .nodeObject →
        m.tree.childrenOf id = front ++ e :: between ++ e' :: back →
        m.tree.kind? e = some .nodeObjectEntry → m.tree.kind? e' = some .nodeObjectEntry →
        (∀ c ∈ between, m.tree.kind? c ≠ some .nodeObjectEntry) →
        (∃ w, between = [w] ∧ m.tree.kind? w = some .whitespace) ∨
          between = [] ∧ ∃ us last first vs, tokens text = us ++ last :: first :: vs ∧
            m.read (Reading.lastToken? e) = .ok (some last) ∧ m.read (Reading.firstToken? e') = .ok (some first) ∧
            ¬ (last.kind = .identifier ∧ first.kind = .identifier)) := by
  obtain ⟨b, parsed, sound⟩ := exists_conforming filename text maxDepth
  refine ⟨_, parsed, fun clean id front e between e' back object children kind kind' others => ?_⟩
  obtain ⟨F, finished, conforms⟩ := sound clean
  refine (conforms.between_entries object children kind kind' others).imp_right fun none => ⟨none, ?_⟩
  subst none
  obtain ⟨init, eof, all, -⟩ := (tokens_cuts text).exists_last
  obtain ⟨node, found, sort⟩ := Option.map_eq_some_iff.mp object
  have among : id ∈ (Forest.branch SyntaxTree.root (.plain .idl) F .nil).ids := by
    simpa using finished.mem_ids (Array.getElem?_eq_some_iff.mp found).1
  obtain ⟨parent, D, us, ts, ws, one, rfl, lays⟩ := (finished.lays all).exists_tree among
  obtain ⟨G, below, lays⟩ := lays.below one (by rw [children]; simp)
  rw [List.append_assoc, List.singleton_append] at children
  obtain ⟨vs, last, first, vs', rfl, read, read'⟩ := lays.touch (below.symm.trans children) fun lays one => by
    rcases one with one | one
    · exact lays.entry_ne_nil one conforms kind
    · exact lays.entry_ne_nil one conforms kind'
  have cut : tokens text = (us ++ vs) ++ last :: first :: (vs' ++ ws ++ [eof]) := by simp [all]
  refine ⟨_, last, first, _, cut, read, read', fun ⟨name, name'⟩ => ?_⟩
  have scans := tokens_scans text
  rw [cut] at scans
  exact scans.not_adjacent name name'

/-- Nothing stands between the entries, and no error is reported. -/
example : ((parse "a.smithy" "$a: \x7ba:1\"b\":2\x7d").toOption.map fun m =>
    (m.hasErrors.toOption, ((m.tree.descendants SyntaxTree.root).filter (m.tree.kind? · = some .nodeObject)).map
      fun id => (m.tree.childrenOf id).map m.tree.kind?)) =
    some (some false, [[some .token, some .nodeObjectEntry, some .nodeObjectEntry, some .token]]) := by decide +kernel

/-! ### Lines of statements -/

/-- In a file without errors a line break stands behind every statement but for the last one, behind which it may be
missing. Nothing but spaces comes between a statement and its line break, or behind the last statement. -/
theorem parse_ends_lines (filename text : String) (maxDepth : Nat) :
    ∃ m, parse filename text maxDepth = .ok m ∧ (m.hasErrors = .ok false →
      ∀ id, m.tree.kind? id = some .shapeStatements →
        ∃ row, m.tree.row? id = some row ∧ row ∈ Schema.lines.matches') := by
  obtain ⟨b, parsed, sound⟩ := exists_orderly filename text maxDepth
  refine ⟨_, parsed, fun clean id kind => ?_⟩
  obtain ⟨F, finished, conf, orderly⟩ := sound clean
  obtain ⟨way, label, inner, place, short, -, -, lines⟩ := finished.exists_orderlyNode conf orderly kind rfl
  exact ⟨_, finished.row?_eq place short, lines⟩

end SmithyIdl
