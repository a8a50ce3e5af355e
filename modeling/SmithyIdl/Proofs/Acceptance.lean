import SmithyIdl.Proofs.ParsedModel
import SmithyIdl.Proofs.Schema.Model
import SmithyIdl.Proofs.Schema.Trees

/-! # Accepted files

A file is accepted when its tree has no error node. Then the tree conforms to the schema; and a file with a token
that the lexer could not read is never accepted. -/

namespace SmithyIdl

namespace Grammar.Finished

variable {b : Buffer} {text : String} {F L : Forest} {i : NodeId}

theorem placed (h : Finished b text F L) : b.tree.Holds none (.branch SyntaxTree.root (.plain .idl) F .nil) := by
  have placed := h.shown.placed
  rwa [View.whole_of_one] at placed

theorem root_node (h : Finished b text F L) :
    ∃ kept, b.tree.nodes[SyntaxTree.root]? = some ⟨.branch (.plain .idl) F.roots.toArray, none, kept⟩ := by
  obtain ⟨⟨kept, node, -⟩, -⟩ := h.placed
  exact ⟨kept, node⟩

/-- Every node is the root, or below it, or in a tree that stands alone. -/
theorem mem_ids (h : Finished b text F L) (made : i < b.tree.size) : i = SyntaxTree.root ∨ i ∈ F.ids ∨ i ∈ L.ids := by
  have among := h.shown.ids.mem_iff.mpr (List.mem_range.mpr made)
  rw [View.whole_of_one] at among
  simpa using among

/-- The file has errors if there is an error node below the root. -/
theorem hasErrors (h : Finished b text F L) :
    (Reading.hasErrors SyntaxTree.root).run' b.tree = .ok (F.ids.any fun i => b.tree.kind? i = some .error) := by
  obtain ⟨kept, node⟩ := h.root_node
  have fits : F.ids.length + 1 + L.ids.length = b.tree.size := by simpa [View.whole_of_one] using h.shown.fits
  rw [SyntaxTree.hasErrors_run node (by simp [Node.kind, Label.kind]),
    SyntaxTree.descendants_of_holds h.placed (by omega)]

/-- An error node that does not stand alone is below the root. -/
theorem mem_ids_of_tag (h : Finished b text F L) {mark : Mark} (found : b.tree.tag? i = some (.inr (.error mark)))
    (apart : i ∉ L.ids) : i ∈ F.ids := by
  obtain ⟨kept, node⟩ := h.root_node
  rcases h.mem_ids (SyntaxTree.lt_size_of_tag? found) with rfl | below | alone
  · rw [SyntaxTree.tag?, node] at found
    cases found
  · exact below
  · exact absurd alone apart

theorem hasErrors_of_tag (h : Finished b text F L) {mark : Mark} (found : b.tree.tag? i = some (.inr (.error mark)))
    (apart : i ∉ L.ids) : (Reading.hasErrors SyntaxTree.root).run' b.tree = .ok true := by
  rw [h.hasErrors,
    List.any_eq_true.mpr ⟨i, h.mem_ids_of_tag found apart, decide_eq_true (SyntaxTree.kind?_of_tag? found)⟩]

theorem mem_childrenOf (h : Finished b text F L) {p : NodeId} (made : i < b.tree.size)
    (above : b.tree.parent? i = some p) : i ∈ b.tree.childrenOf p := by
  have among : i ∈ (Forest.branch SyntaxTree.root (.plain .idl) F .nil).ids ∨ i ∈ L.ids := by
    simpa [or_assoc] using h.mem_ids made
  rcases among with among | among
  · exact (h.placed.mem_childrenOf among above).resolve_left fun ⟨never, _⟩ => nomatch never
  · exact (h.shown.aside.mem_childrenOf among above).resolve_left fun ⟨never, _⟩ => nomatch never

/-- Where no tree stands alone, every token but the end token has a leaf. -/
theorem exists_leaf (h : Finished b text F .nil) {token : Token} (among : token ∈ SmithyIdl.tokens text)
    (other : token.kind ≠ .eof) : ∃ id i, b.tree.tag? id = some (.inl i) ∧ b.tree.tokens[i]? = some token := by
  obtain ⟨init, last, all, kind, -, -⟩ := (tokens_cuts text).exists_last
  rw [all] at among
  have inside : token ∈ init := (List.mem_append.mp among).resolve_right fun eof => by
    rw [List.mem_singleton.mp eof] at other
    exact other kind
  obtain ⟨i, bound, rfl⟩ := List.getElem_of_mem inside
  have eof : b.eof = init.length := by simp [Buffer.eof, h.tokens, all]
  have below : i ∈ F.tokens := by
    rw [h.leaves, eof]
    exact List.mem_range.mpr bound
  obtain ⟨id, -, leaf⟩ := h.placed.exists_leaf (i := i) (by simpa using below)
  exact ⟨id, i, leaf, by simp [h.tokens, all, List.getElem?_append_left bound, List.getElem?_eq_getElem bound]⟩

end Grammar.Finished

/-! ### Lexical errors -/

theorem Grammar.ofText_guarded (filename text : String) (maxDepth : Nat) :
    (Buffer.ofText filename text maxDepth).tree.Guarded :=
  ⟨fun _ _ leaf => (nomatch (SyntaxTree.tag?_new leaf).2), fun _ error => nomatch (SyntaxTree.tag?_new error).2⟩

/-- Under every limit, a file with a token that is an error has errors, and such a token is a child of an error node. -/
theorem parse_rejects_lexical_errors (filename text : String) (maxDepth : Nat) :
    ∃ m, parse filename text maxDepth = .ok m ∧ m.tree.tokens = (tokens text).toArray ∧
      ((∃ token ∈ tokens text, token.kind = .error) → m.hasErrors = .ok true) ∧
      ∀ id node i token, m.tree.nodes[id]? = some node → node.token? = some i → m.tree.tokens[i]? = some token →
        token.kind = .error →
          ∃ p, node.parent = some p ∧ id ∈ m.tree.childrenOf p ∧ m.tree.kind? p = some .error := by
  obtain ⟨b, F, L, run, finished, -, spared⟩ := Grammar.model_run filename text maxDepth
  have start := Grammar.ofText_shows filename text maxDepth
  have guarded : b.tree.Guarded :=
    Grammar.model_guards (by rw [run]; rfl) start.ends (Grammar.ofText_guarded filename text maxDepth)
  refine ⟨_, parse_of_run run finished.finish, finished.tokens, fun ⟨token, among, error⟩ => ?rejected,
    fun id node i token found leaf read error => ?placed⟩
  case rejected =>
    rcases spared with rfl | ⟨i, mark, found, apart⟩
    · obtain ⟨id, i, leaf, read⟩ := finished.exists_leaf among (by rw [error]; decide)
      obtain ⟨p, -, holds⟩ := guarded.leaves id i leaf (by rw [SyntaxTree.tokenKind?, read, Option.map_some, error])
      obtain ⟨mark, found⟩ := holds (by rw [SyntaxTree.tokenKind?, read, Option.map_some, error])
      exact finished.hasErrors_of_tag found (List.not_mem_nil)
    · exact finished.hasErrors_of_tag found apart
  case placed =>
    have kind : b.tree.tokenKind? i = some .error := by rw [SyntaxTree.tokenKind?, read, Option.map_some, error]
    have tag : b.tree.tag? id = some (.inl i) := SyntaxTree.tag?_of_token? found leaf
    obtain ⟨p, above, holds⟩ := guarded.leaves id i tag kind
    obtain ⟨mark, marked⟩ := holds kind
    refine ⟨p, ?_, finished.mem_childrenOf (SyntaxTree.lt_size_of_tag? tag) above, SyntaxTree.kind?_of_tag? marked⟩
    rwa [SyntaxTree.parent?, found] at above

/-! ### The schema -/

/-- Where a file has no errors, no problem was counted. -/
theorem exists_run (filename text : String) (maxDepth : Nat) :
    ∃ b F L, Grammar.model.run (.ofText filename text maxDepth) = .ok () b ∧ Grammar.Finished b text F L ∧
      parse filename text maxDepth = .ok ⟨filename, b.tree⟩ ∧
      (ParsedModel.hasErrors ⟨filename, b.tree⟩ = .ok false → b.errors = 0) := by
  obtain ⟨b, F, L, run, finished, -, spared⟩ := Grammar.model_run filename text maxDepth
  refine ⟨b, F, L, run, finished, parse_of_run run finished.finish, fun sound => ?_⟩
  have unmarked {i : NodeId} {mark : Mark} (found : b.tree.tag? i = some (.inr (.error mark))) : i ∈ L.ids := by
    by_contra apart
    cases sound.symm.trans (finished.hasErrors_of_tag found apart)
  by_contra counted
  obtain ⟨i, mark, -, found⟩ := (Parser.Steady.ok run).marked (Nat.pos_of_ne_zero counted)
  rcases spared with rfl | ⟨i, mark, found, apart⟩
  · cases unmarked found
  · exact apart (unmarked found)

theorem Grammar.ofText_builds (filename text : String) (maxDepth : Nat) :
    (Buffer.ofText filename text maxDepth).Builds (tokens text).toArray
      ⟨⟨SyntaxTree.root, .plain .idl, .nil⟩, [], .nil⟩ :=
  ⟨Grammar.ofText_shows filename text maxDepth, rfl, List.forall_mem_singleton.mpr trivial, trivial⟩

/-- Where no problem was counted, no tree stands alone and all trees conform to the schema. -/
theorem Grammar.Finished.conforming {filename text : String} {maxDepth : Nat} {b : Buffer} {F L : Forest}
    (h : Finished b text F L) (run : model.run (.ofText filename text maxDepth) = .ok () b) (sound : b.errors = 0) :
    ∃ G, Finished b text G .nil ∧
      (Forest.branch SyntaxTree.root (.plain .idl) G .nil).Conforms (SmithyIdl.tokens text).toArray := by
  obtain ⟨⟨⟨root, label, G⟩, outer, loose⟩, row, builds, gains, among⟩ :=
    Grammar.model_yields rfl (Grammar.ofText_builds filename text maxDepth) run sound
  obtain ⟨top, around⟩ := List.cons.inj gains.names
  cases top
  obtain rfl := List.map_eq_nil_iff.mp around
  obtain rfl : loose = .nil := gains.loose
  have children : G.row (SmithyIdl.tokens text).toArray = row := gains.row
  exact ⟨G, ⟨h.tokens, builds.shown, h.cursor⟩, children ▸ among, builds.tidy.open' _ List.mem_cons_self, trivial⟩

/-- Where all trees conform to the schema, so does what the array holds. -/
theorem Grammar.Finished.conforms {b : Buffer} {text : String} {F : Forest} (h : Finished b text F .nil)
    (whole : (Forest.branch SyntaxTree.root (.plain .idl) F .nil).Conforms (SmithyIdl.tokens text).toArray) :
    b.tree.Conforms := by
  rw [← h.tokens] at whole
  have made : ∀ i ∈ (Forest.branch SyntaxTree.root (.plain .idl) F .nil).tokens, i < b.tree.tokens.size := by
    intro i below
    have before : i < b.cursor := h.shown.lt_cursor (by simpa [View.whole_of_one] using below)
    obtain ⟨token, read⟩ := h.shown.exists_token before
    exact (Array.getElem?_eq_some_iff.mp read).1
  intro id node found inner
  have below : id ∈ (Forest.branch SyntaxTree.root (.plain .idl) F .nil).ids := by
    simpa using h.mem_ids (Array.getElem?_eq_some_iff.mp found).1
  exact h.placed.conforms whole made below found inner

/-- Where a file has no errors, no tree stands alone and the tree conforms to the schema. -/
theorem exists_conforming (filename text : String) (maxDepth : Nat) :
    ∃ b, parse filename text maxDepth = .ok ⟨filename, b.tree⟩ ∧
      (ParsedModel.hasErrors ⟨filename, b.tree⟩ = .ok false →
        ∃ F, Grammar.Finished b text F .nil ∧ b.tree.Conforms) := by
  obtain ⟨b, F, L, run, finished, parsed, sound⟩ := exists_run filename text maxDepth
  refine ⟨b, parsed, fun none => ?_⟩
  obtain ⟨G, finished, whole⟩ := finished.conforming run (sound none)
  exact ⟨G, finished, finished.conforms whole⟩

/-- Under every limit, a tree without errors conforms to the schema. -/
theorem parse_conforms (filename text : String) (maxDepth : Nat) :
    ∃ m, parse filename text maxDepth = .ok m ∧ (m.hasErrors = .ok false → m.tree.Conforms) := by
  obtain ⟨b, parsed, sound⟩ := exists_conforming filename text maxDepth
  refine ⟨_, parsed, fun clean => ?_⟩
  obtain ⟨F, -, conforms⟩ := sound clean
  exact conforms

end SmithyIdl
