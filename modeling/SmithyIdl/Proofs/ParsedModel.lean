import SmithyIdl.ParsedModel
import SmithyIdl.Proofs.Grammar.Costs
import SmithyIdl.Proofs.Token.Lines

/-! # Parsed files

Parsing gives a tree for every text and every limit on open nodes. All nodes that were made stand below the root,
and the leaves are the tokens of the text in order, unless the limit lets the statements be opened but refuses the
nodes that would take the traits of a statement back. -/

namespace SmithyIdl

/-! ### The end of a run -/

namespace Grammar.Finished

variable {b : Buffer} {text : String} {F L : Forest}

theorem openNodes (h : Finished b text F L) : b.openNodes = [SyntaxTree.root] := h.shown.openNodes

theorem finish (h : Finished b text F L) : b.finish = .ok b.tree := by
  rw [Buffer.finish, h.openNodes]
  rfl

/-- Where no tree stands alone, the root holds all of them. -/
theorem holds (h : Finished b text F .nil) : b.tree.Holds none (.branch SyntaxTree.root (.plain .idl) F .nil) := by
  have placed := h.shown.placed
  rwa [View.whole_of_one] at placed

theorem ids (h : Finished b text F .nil) : (SyntaxTree.root :: F.ids).Perm (List.range b.tree.size) := by
  simpa [View.whole_of_one] using h.shown.ids

theorem length_ids (h : Finished b text F .nil) : F.ids.length + 1 = b.tree.size := by
  simpa using h.ids.length_eq

theorem fits (h : Finished b text F .nil) :
    (Forest.branch SyntaxTree.root (.plain .idl) F .nil).ids.length ≤ b.tree.size := by
  simp [h.length_ids]

theorem nodup (h : Finished b text F .nil) : (Forest.branch SyntaxTree.root (.plain .idl) F .nil).ids.Nodup := by
  have nodup : (SyntaxTree.root :: F.ids).Nodup := h.ids.nodup_iff.mpr List.nodup_range
  simpa using nodup

/-- Where no tree stands alone, the leaves are the tokens before the end token, in order. -/
theorem leaves (h : Finished b text F .nil) : F.tokens = List.range b.eof := by
  have leaves := h.shown.tokens_whole rfl
  rwa [View.whole_of_one, Forest.tokens_branch, Forest.tokens_nil, List.append_nil, h.cursor] at leaves

/-- Where no tree stands alone, the tokens below the root are those before the end token. -/
theorem found (h : Finished b text F .nil) {init : List Token} {last : Token} (all : SmithyIdl.tokens text = init ++ [last]) :
    F.tokens.map (b.tree.tokens[·]?) = init.map some := by
  have last_out : b.eof = init.length := by simp [Buffer.eof, h.tokens, all]
  rw [h.leaves, last_out, h.tokens, all]
  refine List.ext_getElem (by simp) fun i _ bound => ?_
  have hi : i < init.length := by simpa using bound
  have inside : (init ++ [last])[i]? = some init[i] := by
    rw [List.getElem?_append_left hi, List.getElem?_eq_getElem hi]
  simpa using inside

/-- Where no tree stands alone, the text of the root is the text that was read. -/
theorem reads_text (h : Finished b text F .nil) :
    SyntaxTree.Reads (Reading.text SyntaxTree.root) b.tree none (.branch SyntaxTree.root (.plain .idl) F .nil)
      SyntaxTree.root text := by
  obtain ⟨init, last, all, -, lexeme, -⟩ := (tokens_cuts text).exists_last
  have found := h.found all
  have whole : String.join (init.map Token.lexeme) = text := by
    have pieces := (tokens_cuts text).lexemes
    rw [all, List.flatMap_append] at pieces
    apply String.toList_inj.mp
    rw [String.toList_join, List.flatMap_map, ← pieces]
    simp [lexeme]
  have := SyntaxTree.reads_text h.holds rfl h.fits h.nodup (by simpa using found)
  rwa [whole] at this

end Grammar.Finished

open Grammar (model Repetition)

theorem parse_of_run {filename text : String} {maxDepth : Nat} {b : Buffer}
    (run : model.run (.ofText filename text maxDepth) = .ok () b) (finish : b.finish = .ok b.tree) :
    parse filename text maxDepth = .ok ⟨filename, b.tree⟩ := by
  rw [Parser.run] at run
  rw [parse, run]
  change (b.finish >>= fun tree => pure (⟨filename, tree⟩ : ParsedModel)) = _
  rw [finish]
  rfl

/-- Every completed round of every repetition takes a token, so every text is parsed to its end. -/
theorem parse_progress (filename text : String) (maxDepth : Nat) :
    (∀ {σ : Type} {more : σ → Buffer → Bool} {round : σ → Parser σ}, Repetition more round →
      ∀ (b b' : Buffer) (s s' : σ), b.tree.tokens = (tokens text).toArray → more s b = true →
        (round s).run b = .ok s' b' → b.cursor < b'.cursor) ∧
    ∃ b, model.run (.ofText filename text maxDepth) = .ok () b ∧ b.cursor = b.eof ∧
      parse filename text maxDepth = .ok ⟨filename, b.tree⟩ := by
  refine ⟨fun rep b b' s s' same go run => ?_, ?_⟩
  · exact rep.advances.advances (Grammar.endsWithEof_of_tokens same) go run
  · obtain ⟨b, F, L, run, finished, -⟩ := Grammar.model_run filename text maxDepth
    exact ⟨b, run, finished.cursor, parse_of_run run finished.finish⟩

/-- The leaves of a parsed tree are the tokens of the text but for the end token, in order, so its text is the
    text that was parsed. -/
theorem parse_lossless (filename text : String) {maxDepth : Nat} (enough : 5 ≤ maxDepth) :
    ∃ init last m, tokens text = init ++ [last] ∧ last.kind = .eof ∧ (∀ t ∈ init, t.kind ≠ .eof) ∧
      parse filename text maxDepth = .ok m ∧ m.tree.tokens = (tokens text).toArray ∧
      m.read (Reading.tokenIds SyntaxTree.root) = .ok (Array.range init.length) ∧ m.text = .ok text := by
  obtain ⟨b, F, L, run, finished, below, -⟩ := Grammar.model_run filename text maxDepth
  obtain rfl := below (by omega) (by omega)
  obtain ⟨init, last, all, kind, -, others⟩ := (tokens_cuts text).exists_last
  have last_out : b.eof = init.length := by simp [Buffer.eof, finished.tokens, all]
  refine ⟨init, last, _, all, kind, others, parse_of_run run finished.finish, finished.tokens, ?_, ?_⟩
  · have ids := SyntaxTree.reads_tokenIds finished.holds rfl finished.fits finished.nodup
    rw [ParsedModel.read, ids.run', Forest.tokens_branch, finished.leaves, last_out]
    simp
  · exact finished.reads_text.run'

theorem parse_lossless_default :
    5 ≤ defaultMaxDepth ∧
    ∃ init last m, tokens "@\na" = init ++ [last] ∧ last.kind = .eof ∧ (∀ t ∈ init, t.kind ≠ .eof) ∧
      parse "a.smithy" "@\na" defaultMaxDepth = .ok m ∧ m.tree.tokens = (tokens "@\na").toArray ∧
      m.read (Reading.tokenIds SyntaxTree.root) = .ok (Array.range init.length) ∧ m.text = .ok "@\na" :=
  ⟨by decide, parse_lossless "a.smithy" "@\na" (by decide)⟩

/-! ### Trees outside -/

/-- Every node that was made stands below the root. -/
def SyntaxTree.Connected (t : SyntaxTree) : Prop := ∀ id < t.size, id ≠ root → id ∈ t.descendants root

instance (t : SyntaxTree) : Decidable t.Connected :=
  inferInstanceAs (Decidable (∀ id < t.size, id ≠ SyntaxTree.root → id ∈ t.descendants SyntaxTree.root))

theorem Grammar.Finished.connected {b : Buffer} {text : String} {F : Forest} (h : Finished b text F .nil) :
    b.tree.Connected := by
  intro id made other
  have below : b.tree.descendants SyntaxTree.root = F.ids :=
    SyntaxTree.descendants_of_holds h.holds (by simp [← h.length_ids])
  rw [below]
  have kept : id ∈ SyntaxTree.root :: F.ids := h.ids.mem_iff.mpr (List.mem_range.mpr made)
  exact (List.mem_cons.mp kept).resolve_left other

/-- Whether a text is parsed into a connected tree. -/
def parsesConnected (filename text : String) (maxDepth : Nat) : Bool :=
  match parse filename text maxDepth with
  | .ok m => m.tree.Connected
  | .error _ => false

/-- Where 3 nodes may be open, a statement is refused, and where 4 may be, the shape in it is; the traits before
    it are lost. -/
theorem not_connected :
    parsesConnected "a.smithy" "@\na" 3 = false ∧ parsesConnected "a.smithy" "@\na" 4 = false := by
  decide +kernel

/-- Under every limit but 3 and 4, every text gives a connected tree. -/
theorem parse_connected (maxDepth : Nat) :
    (∀ filename text, ∃ m, parse filename text maxDepth = .ok m ∧ m.tree.Connected) ↔
      maxDepth ≠ 3 ∧ maxDepth ≠ 4 := by
  constructor
  · intro always
    obtain ⟨m, run, connected⟩ := always "a.smithy" "@\na"
    have found : parsesConnected "a.smithy" "@\na" maxDepth = true := by
      rw [parsesConnected, run]
      exact decide_eq_true connected
    refine ⟨?_, ?_⟩
    · rintro rfl
      rw [not_connected.1] at found
      cases found
    · rintro rfl
      rw [not_connected.2] at found
      cases found
  · rintro ⟨three, four⟩ filename text
    obtain ⟨b, F, L, run, finished, below, -⟩ := Grammar.model_run filename text maxDepth
    obtain rfl := below three four
    exact ⟨_, parse_of_run run finished.finish, finished.connected⟩

end SmithyIdl
