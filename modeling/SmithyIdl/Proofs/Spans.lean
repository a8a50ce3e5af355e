import SmithyIdl.Proofs.ParsedModel
import SmithyIdl.Proofs.Tree.Spans

/-! # The stretches of the nodes of a file

Every node of a parsed file takes a stretch of the text. Its text, its range and its two positions are all read off
the tokens below it, in three different ways, and agree. -/

namespace SmithyIdl

variable {text : String}

namespace Grammar.Finished

variable {b : Buffer} {F : Forest}

/-- The tree at the end of a text lays its tokens one behind the other. -/
theorem lays (h : Finished b text F .nil) {init : List Token} {last : Token} (all : SmithyIdl.tokens text = init ++ [last]) :
    b.tree.Lays none (.branch SyntaxTree.root (.plain .idl) F .nil) [] init where
  holds := h.holds
  fits := h.fits
  nodup := h.nodup
  tokens := by simpa using h.found all
  follow := by
    have whole := tokens_follow text
    rw [all] at whole
    exact whole.append.1

/-- Every node lays some tokens in a row, and the text is cut around their characters. -/
theorem exists_tree (h : Finished b text F .nil) {id : NodeId} (made : id < b.tree.size) :
    ∃ parent D before ts after, D.roots = [id] ∧ text.toList = before ++ lexemes ts ++ after ∧
      b.tree.Lays parent D before ts := by
  obtain ⟨init, last, all, -, empty, -⟩ := (tokens_cuts text).exists_last
  have among : id ∈ (Forest.branch SyntaxTree.root (.plain .idl) F .nil).ids := by
    simpa using h.ids.mem_iff.mpr (List.mem_range.mpr made)
  obtain ⟨parent, D, us, vs, ws, one, rfl, lays⟩ := (h.lays all).exists_tree among
  have whole : lexemes (SmithyIdl.tokens text) = text.toList := (tokens_cuts text).lexemes
  refine ⟨parent, D, _, vs, lexemes ws, one, ?_, lays⟩
  rw [← whole, all]
  simp [empty]

end Grammar.Finished

/-- Every node with tokens is the slice of the text at its range, its two positions are the line and the column of
    the ends of the range, and the ranges of its children with tokens go one behind the other from its start to its
    end. In a text of up to 2^32 - 2 bytes, 32 bits hold the positions. -/
theorem parse_spans (filename text : String) {maxDepth : Nat} (enough : 5 ≤ maxDepth) :
    ∃ m, parse filename text maxDepth = .ok m ∧ ∀ id < m.tree.size,
      (∃ n, m.read (Reading.tokenCount id) = .ok n) ∧
      (m.tree.hasTokens id = true → ∃ r cs start stop,
        m.read (Reading.range id) = .ok r ∧ slice? text.toList r = some cs ∧
        m.read (Reading.text id) = .ok (.ofList cs) ∧
        m.read (Reading.start id) = .ok start ∧ Position.at? text.toList r.start = some start ∧
        m.read (Reading.stop id) = .ok stop ∧ Position.at? text.toList r.stop = some stop ∧
        (byteLength text.toList + 1 < UInt32.size → start.Fits ∧ stop.Fits) ∧
        (m.tree.childrenOf id ≠ [] → (∃ c ∈ m.tree.childrenOf id, m.tree.hasTokens c = true) ∧
          m.tree.TiledBy (m.tree.childrenOf id) r.start r.stop)) := by
  obtain ⟨b, F, L, run, finished, below, -⟩ := Grammar.model_run filename text maxDepth
  obtain rfl := below (by omega) (by omega)
  refine ⟨_, parse_of_run run finished.finish, fun id made => ?_⟩
  obtain ⟨parent, D, before, ts, after, one, cut, lays⟩ := finished.exists_tree made
  refine ⟨⟨_, lays.tokenCount one⟩, fun holds => ?_⟩
  have nonempty := (lays.hasTokens_iff one).mp holds
  obtain ⟨range, string, start, stop⟩ := lays.takes one nonempty
  have first : Position.at? text.toList (byteLength before) = some (.behind before) := by
    rw [cut, List.append_assoc]
    exact Position.at?_byteLength ..
  have last : Position.at? text.toList (byteLength (before ++ lexemes ts)) = some (.behind (before ++ lexemes ts)) := by
    rw [cut]
    exact Position.at?_byteLength ..
  refine ⟨_, lexemes ts, _, _, range, ?_, string, start, first, stop, last, fun small => ?_,
    lays.children_tile one nonempty⟩
  · rw [cut, byteLength_append]
    exact slice?_middle ..
  · exact ⟨Position.fits_of_at? small first, Position.fits_of_at? small last⟩

theorem parse_spans_default :
    5 ≤ defaultMaxDepth ∧ ∃ m, parse "a.smithy" "$a: \"é\"\r\n@\na" defaultMaxDepth = .ok m ∧ ∀ id < m.tree.size,
      (∃ n, m.read (Reading.tokenCount id) = .ok n) ∧
      (m.tree.hasTokens id = true → ∃ r cs start stop,
        m.read (Reading.range id) = .ok r ∧ slice? "$a: \"é\"\r\n@\na".toList r = some cs ∧
        m.read (Reading.text id) = .ok (.ofList cs) ∧
        m.read (Reading.start id) = .ok start ∧ Position.at? "$a: \"é\"\r\n@\na".toList r.start = some start ∧
        m.read (Reading.stop id) = .ok stop ∧ Position.at? "$a: \"é\"\r\n@\na".toList r.stop = some stop ∧
        (byteLength "$a: \"é\"\r\n@\na".toList + 1 < UInt32.size → start.Fits ∧ stop.Fits) ∧
        (m.tree.childrenOf id ≠ [] → (∃ c ∈ m.tree.childrenOf id, m.tree.hasTokens c = true) ∧
          m.tree.TiledBy (m.tree.childrenOf id) r.start r.stop)) :=
  ⟨by decide, parse_spans "a.smithy" "$a: \"é\"\r\n@\na" (by decide)⟩

end SmithyIdl
