import SmithyIdl.CommandLine
import SmithyIdl.Proofs.Acceptance
import SmithyIdl.Proofs.Tree.Total

/-! # Counted errors

The grammar counts the errors that it reports, and steers by the count. At the end of a file the count is the number of
error nodes below the root, so the errors that are read off the tree are those that were counted. -/

namespace SmithyIdl

namespace SyntaxTree

variable {t : SyntaxTree} {F : Forest} {i : NodeId}

/-- All error nodes of the tree, in the order of the text. -/
def errorNodes (t : SyntaxTree) : List NodeId := (root :: t.descendants root).filter fun i => t.kind? i = some .error

theorem Reasoned.kind?_eq_error_iff (h : t.Reasoned) : t.kind? i = some .error ↔ t.isMarked i = true := by
  rw [isMarked_iff]
  refine ⟨fun error => ?_, fun ⟨mark, found⟩ => kind?_of_tag? found⟩
  obtain ⟨⟨content, parent, kept⟩, found, kind⟩ := Option.map_eq_some_iff.mp error
  have tag : t.tag? i = some (Node.tag ⟨content, parent, kept⟩) := by rw [tag?, found, Option.map_some]
  cases content with
  | leaf => cases kind
  | branch label =>
    cases label with
    | plain kind' =>
      cases kind
      exact absurd tag (h i)
    | error mark => exact ⟨mark, tag⟩

/-- Where every node stands below the root, no error node is out of reach. -/
theorem Stands.length_errorNodes {label : Label} (h : t.Stands (.branch root label F .nil)) (reasoned : t.Reasoned) :
    t.errorNodes.length = t.marks := by
  have place : t.At [] (.branch root label F .nil) root := h.at_of_eq (A := .nil) (B := .nil) (by simp) rfl
  have all : (root :: t.descendants root).Perm (List.range t.size) := place.descendants_eq ▸ h.ids
  rw [errorNodes, marks, ← List.countP_eq_length_filter, all.countP_eq]
  refine List.countP_congr fun i _ => ?_
  rw [decide_eq_true_iff]
  exact reasoned.kind?_eq_error_iff

end SyntaxTree

/-! ### The end of a run -/

/-- The trees that are built and those that stand alone are all that there is. -/
theorem Buffer.Shows.stands {b : Buffer} {v : View} (h : b.Shows v) : b.tree.Stands (v.whole ++ v.loose) where
  holds := SyntaxTree.holds_append.mpr ⟨h.placed, h.aside⟩
  ids := by
    rw [Forest.ids_append]
    exact h.ids

namespace Grammar.Finished

variable {b : Buffer} {text : String} {F L : Forest}

theorem stands (h : Finished b text F L) : b.tree.Stands (.branch SyntaxTree.root (.plain .idl) F .nil ++ L) := by
  have stands := h.shown.stands
  rwa [View.whole_of_one] at stands

theorem sound_all (h : Finished b text F L) : b.tree.Sound (.branch SyntaxTree.root (.plain .idl) F .nil ++ L) where
  stands := h.stands
  tokens i below := by
    rw [Forest.tokens_append] at below
    have before : i < b.cursor := h.shown.lt_cursor (by rwa [View.whole_of_one])
    obtain ⟨token, read⟩ := h.shown.exists_token before
    exact (Array.getElem?_eq_some_iff.mp read).1

theorem sound (h : Finished b text F .nil) : b.tree.Sound (.branch SyntaxTree.root (.plain .idl) F .nil) := by
  simpa only [Forest.append_nil] using h.sound_all

end Grammar.Finished

/-! ### Reading the errors -/

theorem SyntaxTree.problem_run {t : SyntaxTree} {i : NodeId} {mark : Mark}
    (tag : t.tag? i = some (.inr (.error mark))) : (Reading.problem? i).run' t = .ok (some mark.problem) := by
  obtain ⟨⟨content, parent, kept⟩, found, same⟩ := Option.map_eq_some_iff.mp tag
  cases content with
  | leaf => cases same
  | branch label =>
    cases same
    change ((Reading.node i >>= fun n => Pure.pure (n.mark?.map Mark.problem)) t >>= _) = _
    rw [bind_of_ok (node_run found)]
    rfl

namespace ParsedModel

open SyntaxTree

variable {m : ParsedModel} {F : Forest}

instance errorRange_still (id : NodeId) : Still (errorRange id) := by
  unfold errorRange
  exact .bind_of inferInstance fun first => by cases first <;> infer_instance

instance errorOf_still (filename : String) (id : NodeId) : Still (errorOf filename id) := by
  unfold errorOf
  infer_instance

theorem errorOf_succeeds (h : m.tree.Sound F) (filename : String) {id : NodeId} (made : id < m.tree.size) :
    m.tree.Succeeds (errorOf filename id) fun _ => True := by
  have range : m.tree.Succeeds (errorRange id) fun _ => True := by
    refine (h.firstToken? made).bind fun first _ => ?_
    cases first with
    | none => exact h.range made
    | some first => exact .pure trivial
  exact (h.problem? made).bind fun _ _ => (h.start made).bind fun _ _ => range.bind fun _ _ => .pure trivial

/-- There is one error for each error node. -/
theorem exists_errors (h : m.tree.Sound F) (nodes : Reading.errors root m.tree = .ok (m.tree.errorNodes, m.tree)) :
    ∃ errors, m.errors = .ok errors ∧ errors.length = m.tree.errorNodes.length := by
  have all : m.tree.Succeeds (m.tree.errorNodes.mapM (errorOf m.filename)) fun errors =>
      errors.length = m.tree.errorNodes.length := by
    refine Succeeds.mapM fun i among => errorOf_succeeds h m.filename ?_
    obtain ⟨n, found, -⟩ := Option.map_eq_some_iff.mp (of_decide_eq_true (List.mem_filter.mp among).2)
    exact (Array.getElem?_eq_some_iff.mp found).1
  obtain ⟨errors, run, length⟩ := all.run'
  refine ⟨errors, ?_, length⟩
  change ((Reading.errors root >>= fun ids => ids.mapM (errorOf m.filename)) m.tree >>= _) = _
  rw [bind_of_ok nodes]
  exact run

end ParsedModel

/-! ### Parsed files -/

/-- The errors that were counted, those of the tree, and what is told about them. -/
structure ParsedModel.Counts (m : ParsedModel) (text : String) (count : Nat) : Prop where
  nodes : m.tree.errorNodes.length = count
  problems : ∀ i ∈ m.tree.errorNodes, ∃ problem, m.read (Reading.problem? i) = .ok (some problem)
  errors : ∃ errors, m.errors = .ok errors ∧ errors.length = count
  diagnostics : ∃ diagnostics, m.diagnostics = .ok diagnostics ∧ diagnostics.length = count
  hasErrors : m.hasErrors = .ok (0 < count)
  /-- Both commands end with status 1 if there are errors, and with status 0 if there are none. -/
  status : ∃ r r', CommandLine.check m text = .ok r ∧ CommandLine.tree m = .ok r' ∧
    r.status = (if count = 0 then 0 else 1) ∧ r'.status = r.status

theorem CommandLine.check_run {m : ParsedModel} {diagnostics : List Diagnostic} (text : String)
    (told : m.diagnostics = .ok diagnostics) :
    ∃ r, CommandLine.check m text = .ok r ∧ r.status = if diagnostics.length = 0 then 0 else 1 := by
  rw [CommandLine.check, told]
  refine ⟨_, rfl, ?_⟩
  cases diagnostics <;> rfl

theorem CommandLine.tree_run {m : ParsedModel} {any : Bool} {dump : String} (told : m.hasErrors = .ok any)
    (dumped : m.dump = .ok dump) : CommandLine.tree m = .ok ⟨if any then 1 else 0, dump, ""⟩ := by
  rw [CommandLine.tree, told, dumped]
  rfl

/-- Where every node stands below the root and every error node has a reason, all of them are told. -/
theorem ParsedModel.Counts.of_sound {m : ParsedModel} {F : Forest} {label : Label} (text : String)
    (sound : m.tree.Sound (.branch SyntaxTree.root label F .nil)) (reasoned : m.tree.Reasoned) :
    m.Counts text m.tree.marks := by
  obtain ⟨⟨kept, root, -⟩, -, -⟩ := sound.stands.holds
  have nodes := SyntaxTree.errors_run root
  have length := sound.stands.length_errorNodes reasoned
  obtain ⟨errors, read, told⟩ := exists_errors sound nodes
  have diagnostics : m.diagnostics = .ok (errors.map fun e => ⟨e.message, e.range⟩) := by
    rw [ParsedModel.diagnostics, read]
    rfl
  have any : (!m.tree.errorNodes.isEmpty) = decide (0 < m.tree.marks) := by
    rw [← length]
    cases m.tree.errorNodes <;> simp
  have hasErrors : m.hasErrors = .ok (0 < m.tree.marks) := by
    change ((Reading.errors SyntaxTree.root >>= fun ids => Pure.pure !ids.isEmpty) m.tree >>= _) = _
    rw [SyntaxTree.bind_of_ok nodes, ← any]
    rfl
  obtain ⟨dump, dumped, -⟩ := (sound.dump (Array.getElem?_eq_some_iff.mp root).1).run'
  refine ⟨length, fun i among => ?_, ⟨errors, read, told.trans length⟩, ⟨_, diagnostics, ?_⟩, hasErrors, ?_⟩
  · have error := reasoned.kind?_eq_error_iff.mp (of_decide_eq_true (List.mem_filter.mp among).2)
    obtain ⟨mark, tag⟩ := SyntaxTree.isMarked_iff.mp error
    exact ⟨mark.problem, SyntaxTree.problem_run tag⟩
  · rw [List.length_map, told, length]
  · obtain ⟨r, checked, status⟩ := CommandLine.check_run text diagnostics
    have shown := CommandLine.tree_run hasErrors (by rw [ParsedModel.dump, ParsedModel.read, dumped])
    have count : errors.length = m.tree.marks := told.trans length
    rw [List.length_map, count] at status
    refine ⟨r, _, checked, shown, status, Eq.trans ?_ status.symm⟩
    cases m.tree.marks <;> rfl

/-- Where no tree stands alone at the end of a file, the errors that were counted are the error nodes below the root. -/
theorem Grammar.Finished.counts {filename text : String} {maxDepth : Nat} {b : Buffer} {F : Forest}
    (h : Finished b text F .nil) (run : model.run (.ofText filename text maxDepth) = .ok () b) :
    ParsedModel.Counts ⟨filename, b.tree⟩ text b.errors := by
  have start := ofText_shows filename text maxDepth
  have guarded : b.tree.Guarded := model_guards (by rw [run]; rfl) start.ends (ofText_guarded filename text maxDepth)
  have counted : b.tree.marks + 0 = 0 + b.errors := (Parser.Steady.ok run).counted
  rw [Nat.add_zero, Nat.zero_add] at counted
  exact counted ▸ .of_sound text h.sound guarded.reasoned

theorem Grammar.model_counts (filename text : String) {maxDepth : Nat} (enough : 5 ≤ maxDepth) :
    ∃ b F, Grammar.model.run (.ofText filename text maxDepth) = .ok () b ∧ Grammar.Finished b text F .nil ∧
      ParsedModel.Counts ⟨filename, b.tree⟩ text b.errors := by
  obtain ⟨b, F, L, run, finished, below, -⟩ := Grammar.model_run filename text maxDepth
  obtain rfl := below (by omega) (by omega)
  exact ⟨b, F, run, finished, finished.counts run⟩

/-- Under every limit from 5 on, the errors that are counted are the error nodes of the tree. -/
theorem parse_counts_errors (filename text : String) {maxDepth : Nat} (enough : 5 ≤ maxDepth) :
    ∃ b m, Grammar.model.run (.ofText filename text maxDepth) = .ok () b ∧ b.finish = .ok m.tree ∧
      parse filename text maxDepth = .ok m ∧ m.Counts text b.errors := by
  obtain ⟨b, F, run, finished, counts⟩ := Grammar.model_counts filename text enough
  exact ⟨b, ⟨filename, b.tree⟩, run, finished.finish, parse_of_run run finished.finish, counts⟩

theorem parse_counts_errors_default : 5 ≤ defaultMaxDepth ∧
    ∃ b m, Grammar.model.run (.ofText "a.smithy" "string S\n@" defaultMaxDepth) = .ok () b ∧
      b.finish = .ok m.tree ∧ parse "a.smithy" "string S\n@" defaultMaxDepth = .ok m ∧
      m.Counts "string S\n@" b.errors :=
  ⟨by decide, parse_counts_errors "a.smithy" "string S\n@" (by decide)⟩

end SmithyIdl
