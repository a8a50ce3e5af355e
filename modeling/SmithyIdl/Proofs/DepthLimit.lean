import SmithyIdl.Proofs.Buffer.Simulation
import SmithyIdl.Proofs.ErrorCount
import SmithyIdl.Proofs.Lockstep.Statements

/-! # The limit on open nodes

Two runs on one text under two limits go through the same buffers until a node is refused in the run with the smaller
limit. A refusal is reported, and the report stays in the tree. So a tree that tells of no refusal is the tree under
every larger limit as well. -/

namespace SmithyIdl

/-- The same buffer under another limit. -/
def Buffer.withLimit (b : Buffer) (limit : Nat) : Buffer := { b with maxDepth := limit }

namespace Parser

variable {α β : Type}

/-- What succeeds does so under every limit, with the same effect. -/
class Unlimited (p : Parser α) : Prop where
  run : ∀ {b b' : Buffer} {a : α}, p.run b = .ok a b' → ∀ limit,
    p.run (b.withLimit limit) = .ok a (b'.withLimit limit)

namespace Unlimited

instance pure (a : α) : Unlimited (Pure.pure a : Parser α) where
  run h limit := by
    cases h
    rfl

theorem ask {f : Buffer → α} (same : ∀ b limit, f (b.withLimit limit) = f b) : Unlimited (Parser.ask f) where
  run {b b' a} h limit := by
    cases h
    rw [run_ask, same]

instance abort (why : Fault) : Unlimited (Parser.abort why : Parser α) := ⟨nofun⟩

instance push (node : NodeId) : Unlimited (Parser.push node) where
  run h limit := by
    cases h
    rfl

instance step : Unlimited Parser.step where
  run h limit := by
    cases h
    rfl

instance countError : Unlimited Parser.countError where
  run h limit := by
    cases h
    rfl

instance onTree (g : SyntaxTree → Except Fault (α × SyntaxTree)) : Unlimited (Parser.onTree g) where
  run {b b' a} h limit := by
    obtain ⟨t, edit, rfl⟩ := onTree_ok h
    change Parser.onTree g (b.withLimit limit) = _
    unfold Parser.onTree
    simp only [Buffer.withLimit, edit]

instance bind {p : Parser α} {f : α → Parser β} [Unlimited p] [∀ a, Unlimited (f a)] : Unlimited (p >>= f) where
  run {b b' c} h limit := by
    obtain ⟨a, b₁, first, rest⟩ := bind_eq_ok.mp h
    rw [run_bind_of_ok (run first limit)]
    exact run rest limit

instance ite {c : Prop} [Decidable c] {p q : Parser α} [Unlimited p] [Unlimited q] :
    Unlimited (if c then p else q) := by
  by_cases h : c
  · rw [if_pos h]
    infer_instance
  · rw [if_neg h]
    infer_instance

instance innermost : Unlimited (Parser.ask Buffer.innermost) := ask fun _ _ => rfl

instance shift : Unlimited Parser.shift := by
  have : Unlimited Parser.hasNext := ask fun _ _ => rfl
  have : Unlimited (Parser.ask Buffer.cursor) := ask fun _ _ => rfl
  unfold Parser.shift
  infer_instance

instance attach (node : NodeId) : Unlimited (Parser.attach node) := by
  unfold Parser.attach
  infer_instance

instance detach (node : NodeId) : Unlimited (Parser.detach node) := by
  have behind : ∀ parent : Option NodeId, Unlimited (match parent with
      | some parent => do let _ ← Parser.onTree fun t => t.remove parent node
      | none => return) := fun parent => by cases parent <;> infer_instance
  unfold Parser.detach
  infer_instance

instance openNode (kind : TreeKind) : Unlimited (Parser.openNode kind) := by
  unfold Parser.openNode
  infer_instance

instance addError (mark : Mark) : Unlimited (Parser.addError mark) := by
  unfold Parser.addError
  infer_instance

instance encloseInError (node : NodeId) (problem : Problem) : Unlimited (Parser.encloseInError node problem) := by
  unfold Parser.encloseInError
  infer_instance

instance adoptDocs (docs : Option NodeId) : Unlimited (Parser.adoptDocs docs) := by
  unfold Parser.adoptDocs
  cases docs with
  | none => infer_instance
  | some node =>
    have : Unlimited (Parser.ask fun b => (b.tree.childrenOf b.innermost).length) := ask fun _ _ => rfl
    have behind : ∀ n : Nat, Unlimited (match n with
        | 0 => do
          Parser.detach node
          Parser.attach node
        | n => Parser.abort (.docsNotFirst n)) := fun n => by split <;> infer_instance
    infer_instance

end Unlimited

end Parser

/-! ### Two limits -/

/-- Everything is the same, but more nodes may be open in the second run. -/
def Matching.spare : Matching where
  toLikeness := .same
  docs := Eq
  node := Eq
  errors := Eq
  lenient := True
  moves := True
  encloses := True
  errors_lt := lt_iff_of_eq

/-- The refusal of a node stands somewhere. -/
def SyntaxTree.Refused (t : SyntaxTree) : Prop :=
  ∃ i mark, t.tag? i = some (.inr (.error mark)) ∧ mark.problem = .tooDeep

/-- The same buffer under a limit that is not smaller. -/
structure Buffer.Roomier (b b' : Buffer) : Prop where
  eq : ∃ limit, b' = b.withLimit limit
  le : b.maxDepth ≤ b'.maxDepth

/-- A step that does not look at the limit does the same under both. -/
theorem Buffer.Roomier.step {b b' b₁ b₁' : Buffer} {α : Type} {a a' : α} {p : Parser α} [Parser.Unlimited p]
    [Parser.Steady p] (h : b.Roomier b') (run : p.run b = .ok a b₁) (run' : p.run b' = .ok a' b₁') :
    a = a' ∧ b₁.Roomier b₁' := by
  obtain ⟨⟨limit, rfl⟩, le⟩ := h
  have same := Parser.Unlimited.run run limit
  rw [run'] at same
  cases same
  refine ⟨rfl, ⟨limit, rfl⟩, ?_⟩
  rw [(Parser.Steady.ok run).maxDepth]
  exact le

/-- Until the first run meets a refusal, both do the same. -/
def Simulation.spare : Simulation .spare where
  same := Buffer.Roomier
  lost b := b.tree.Refused
  lost_leads := fun leads ⟨i, mark, found, refusal⟩ => ⟨i, mark, leads.tree.tag?_eq found, refusal⟩
  refused := fun {_ _ mark i} _ refusal run => ⟨i, mark, (Parser.addError_ok run).1, refusal⟩
  docs_of_node := id
  sees := by
    rintro b _ ⟨⟨limit, rfl⟩, -⟩
    exact ⟨rfl, fun _ => rfl⟩
  errors := by
    rintro b _ ⟨⟨limit, rfl⟩, -⟩
    rfl
  room := by
    rintro b _ ⟨⟨limit, rfl⟩, le⟩
    exact .inr ⟨trivial, Nat.sub_le_sub_right le _⟩
  deep := by
    rintro b _ ⟨⟨limit, rfl⟩, le⟩
    by_cases deep : b.maxDepth < b.openNodes.length
    · exact .inr ⟨trivial, decide_eq_true deep⟩
    · have deep' : ¬ limit < b.openNodes.length := fun deep' => deep (Nat.lt_of_le_of_lt le deep')
      exact .inl ((decide_eq_false deep').trans (decide_eq_false deep).symm)
  push := by
    rintro b _ i _ ⟨⟨limit, rfl⟩, le⟩ rfl
    exact ⟨⟨limit, rfl⟩, le⟩
  pop := by
    rintro b _ ⟨⟨limit, rfl⟩, le⟩
    exact ⟨⟨limit, rfl⟩, le⟩
  shift := fun h run run' => (h.step run run').2
  openNode := fun h run run' => h.step run run'
  addError := by
    intro b b' b₁ b₁' problem problem' i i' h like run run'
    obtain ⟨⟨limit, rfl⟩, -⟩ := id h
    obtain rfl := like.eq
    exact h.step run run'
  adoptDocs := by
    rintro b b' b₁ b₁' d _ h rfl run run'
    exact (h.step run run').2
  detach := by
    rintro b b' b₁ b₁' d _ - h rfl run run'
    exact (h.step run run').2
  attach := by
    rintro b b' b₁ b₁' d _ - h rfl run run'
    exact (h.step run run').2
  encloseInError := by
    rintro b b' b₁ b₁' d _ problem - h rfl - run run'
    exact (h.step run run').2

/-! ### Refusals in the tree -/

/-- The tree tells of a node that was refused. -/
def ParsedModel.TellsOfRefusal (m : ParsedModel) : Prop :=
  ∃ i ∈ m.tree.errorNodes, ∃ problem, m.read (Reading.problem? i) = .ok (some problem) ∧
    problem.message = "Maximum nesting depth exceeded"

namespace Grammar.Finished

variable {b : Buffer} {text : String} {F L : Forest} {i : NodeId} {mark : Mark}

theorem mem_errorNodes (h : Finished b text F L) (found : b.tree.tag? i = some (.inr (.error mark))) (apart : i ∉ L.ids) :
    i ∈ b.tree.errorNodes := by
  have fits : F.ids.length + 1 + L.ids.length = b.tree.size := by simpa [View.whole_of_one] using h.shown.fits
  refine List.mem_filter.mpr ⟨List.mem_cons_of_mem _ ?_, decide_eq_true (SyntaxTree.kind?_of_tag? found)⟩
  rw [SyntaxTree.descendants_of_holds h.placed (by omega)]
  exact h.mem_ids_of_tag found apart

/-- A refusal is told of, also where trees are left outside. -/
theorem tellsOfRefusal (h : Finished b text F L) {filename : String} (refused : b.tree.Refused)
    (spared : L = .nil ∨ ∃ i mark, b.tree.tag? i = some (.inr (.error mark)) ∧ mark.problem = .tooDeep ∧ i ∉ L.ids) :
    ParsedModel.TellsOfRefusal ⟨filename, b.tree⟩ := by
  obtain ⟨i, mark, found, refusal, apart⟩ :
      ∃ i mark, b.tree.tag? i = some (.inr (.error mark)) ∧ mark.problem = .tooDeep ∧ i ∉ L.ids := by
    rcases spared with rfl | inside
    · obtain ⟨i, mark, found, refusal⟩ := refused
      exact ⟨i, mark, found, refusal, List.not_mem_nil⟩
    · exact inside
  refine ⟨i, h.mem_errorNodes found apart, _, SyntaxTree.problem_run found, ?_⟩
  rw [refusal]
  rfl

end Grammar.Finished

/-- A tree that tells of no refusal is the tree under every larger limit, node by node. -/
theorem parse_within_limit (filename text : String) (maxDepth : Nat) :
    ∃ m, parse filename text maxDepth = .ok m ∧
      (¬ m.TellsOfRefusal → ∀ limit, maxDepth ≤ limit → parse filename text limit = .ok m) := by
  obtain ⟨b, F, L, run, finished, -, spared⟩ := Grammar.model_refuses filename text maxDepth
  refine ⟨_, parse_of_run run finished.finish, fun untold limit le => ?_⟩
  obtain ⟨b', F', L', run', finished', -⟩ := Grammar.model_run filename text limit
  have start : (Buffer.ofText filename text maxDepth).Roomier (.ofText filename text limit) := ⟨⟨limit, rfl⟩, le⟩
  have agree := (Grammar.model_lockstep (M := .spare) trivial trivial).agrees .spare start
  rw [run, run'] at agree
  cases agree with
  | escaped refused => exact absurd (finished.tellsOfRefusal refused spared) untold
  | ok _ same =>
    obtain ⟨⟨_, rfl⟩, -⟩ := same
    have parsed := parse_of_run run' finished'.finish
    exact parsed

end SmithyIdl
