import SmithyIdl.Proofs.Discipline.Trees

/-! # Where runs of traits stand

A run of traits before a statement is read before it is known what comes behind it. It comes to stand before the body of
the shape that it applies to, or alone in an error node that is located where it begins. -/

namespace SmithyIdl

namespace Forest

variable {A B below : Forest} {id : NodeId} {label : Label} {kind next : TreeKind}

theorem Follows.firstKind (h : (A ++ branch id label below B).Follows kind next) (here : label.kind = kind) :
    B.firstKind = some next := by
  induction A with
  | nil => exact h.1 here
  | leaf _ _ rest ih => exact ih h
  | branch _ _ _ rest _ ih => exact ih h.2

end Forest

/-- What begins with the earlier of two tokens starts with it. -/
theorem cover_start {text : String} {i j : TokenId} {first last : Token} (found : (tokens text)[i]? = some first)
    (found' : (tokens text)[j]? = some last) (le : i ≤ j) : (first.range.cover last.range).start = first.range.start := by
  refine Nat.min_eq_left ?_
  obtain ⟨made, rfl⟩ := List.getElem?_eq_some_iff.mp found
  obtain ⟨made', rfl⟩ := List.getElem?_eq_some_iff.mp found'
  rcases Nat.eq_or_lt_of_le le with rfl | lt
  · exact Nat.le_refl _
  · exact List.pairwise_iff_getElem.mp (tokens_follow text).starts_le i j made made' lt

namespace SyntaxTree

/-- Runs of traits that stand inside of a statement. -/
def IsInner (t : SyntaxTree) (p : NodeId) : Prop :=
  ∃ kind ∈ [TreeKind.shapeMember, .enumMember, .inlineStructure, .applyStatementBlock], t.kind? p = some kind

/-- Right behind the run of traits in the statement of a shape is the body of the shape. -/
def Precedes (t : SyntaxTree) (p id : NodeId) : Prop :=
  t.kind? p = some .shapeStatement ∧ ∃ front body back, t.childrenOf p = front ++ id :: body :: back ∧
    t.kind? body = some .shapeBody

end SyntaxTree

/-- The run of traits is all that there is in an error node, which is located at the first sign of the run. -/
structure ParsedModel.Misplaces (m : ParsedModel) (p id : NodeId) (mark : Mark) (sign : Token) : Prop where
  children : m.tree.childrenOf p = [id]
  error : m.tree.nodes[p]?.bind Node.mark? = some mark
  message : mark.problem.message ∈ ["Found traits attached to nothing", "Traits applied to apply statement"]
  first : m.read (Reading.firstToken? id) = .ok (some sign)
  kind : sign.kind = .atSign
  position : mark.position = sign.start
  offset : mark.offset = sign.range.start
  told : m.read (ParsedModel.errorOf m.filename p) = .ok ⟨mark.problem, m.filename, sign.start, sign.range⟩

theorem Problem.message_of_encloses {problem : Problem} (h : problem.encloses = true) :
    problem.message ∈ ["Found traits attached to nothing", "Traits applied to apply statement"] := by
  cases problem with
  | danglingTraits => exact List.mem_cons_self
  | traitsOnApply => exact List.mem_cons_of_mem _ List.mem_cons_self
  | _ => cases h

theorem ParsedModel.Misplaces.kind? {m : ParsedModel} {p id : NodeId} {mark : Mark} {sign : Token}
    (h : m.Misplaces p id mark sign) : m.tree.kind? p = some .error := by
  obtain ⟨⟨content, up, kept⟩, found, error⟩ := Option.bind_eq_some_iff.mp h.error
  rw [SyntaxTree.kind?, found]
  cases content with
  | leaf => cases error
  | branch label =>
    cases label with
    | plain => cases error
    | error => rfl

/-- No production is that of an error. -/
theorem SyntaxTree.Conforms.kind?_ne_error {t : SyntaxTree} {p : NodeId} (h : t.Conforms) : t.kind? p ≠ some .error := by
  intro error
  obtain ⟨row, -, never⟩ := h.exists_row error (by decide)
  exact never

namespace ParsedModel.LawfulAs

open SyntaxTree

variable {m : ParsedModel} {text : String} {F J : Forest} {way : List Frame} {p id : NodeId} {mark : Mark} {first : Token}

theorem misplaces (file : m.LawfulAs text F)
    (h : m.tree.At way (.branch p (.error mark) (.branch id (.plain .traitStatements) J .nil) .nil) p)
    (encloses : mark.problem.encloses = true) (leads : J.Leads (SmithyIdl.tokens text).toArray first)
    (sign : first.kind = .atSign) (starts : mark.StartsAt (SmithyIdl.tokens text).toArray first) :
    m.Misplaces p id mark first := by
  obtain ⟨i, rest, begins, found⟩ := leads.tokens
  obtain ⟨position, j, k, last, found₁, found₂, le, offset⟩ := starts
  have read : m.tree.tokens[i]? = some first := file.tokens ▸ found
  have place := h.descend (X := .nil) (Y := .nil) (E := .branch id (.plain .traitStatements) J .nil) rfl
  have within : (Forest.branch id (.plain .traitStatements) J .nil).tokens = i :: rest := by simp [begins]
  have leaves : m.tree.leaves p = i :: rest := h.leaves_eq.trans (by simp [begins])
  obtain ⟨⟨kept, node, -⟩, -⟩ := h.inside
  refine ⟨h.children_eq, by rw [node]; rfl, Problem.message_of_encloses encloses,
    (reads_firstToken place.inside place.one place.size_ids place.nodup_ids within read).run', sign, position, ?_, ?_⟩
  · rw [List.getElem?_toArray] at found₁ found₂
    rw [offset, cover_start found₁ found₂ le]
  · rw [ParsedModel.read, (Agrees.errorOf m.filename p).reads file.stands, errorOf_first h.lt_size leaves read, errorAt,
      node, if_neg (by rw [leaves]; exact List.cons_ne_nil _ _)]
    rfl

/-- A run of traits stands inside of a statement, before the body of a shape, or alone in an error. -/
theorem place_of_run (file : m.LawfulAs text F) (sort : m.tree.kind? id = some .traitStatements)
    (up : m.tree.parent? id = some p) :
    m.tree.IsInner p ∨ m.tree.Precedes p id ∨ ∃ mark sign, m.Misplaces p id mark sign := by
  obtain ⟨way, label, inner, place, node, -⟩ := file.stands.exists_lawfulParent file.lawful up
  have child := file.stands.mem_childrenOf.mpr up
  have holds := node.traits ((place.mem_solid (by decide)).mpr ⟨id, child, sort⟩)
  rw [place.children_eq] at child
  cases label with
  | error mark =>
    obtain ⟨encloses, d, J, first, rfl, leads, sign, starts⟩ := holds
    obtain rfl := List.mem_singleton.mp child
    exact .inr (.inr ⟨mark, first, file.misplaces place encloses leads sign starts⟩)
  | plain kind =>
    by_cases statement : kind = .shapeStatement
    · subst statement
      obtain ⟨A, D, B, rfl, one⟩ := Forest.exists_root child
      have here := place.descend one
      obtain ⟨label, below, rfl⟩ : ∃ label below, D = .branch id label below .nil := by
        rcases Forest.eq_of_roots id one with ⟨token, rfl⟩ | branch
        · cases sort.symm.trans here.inside.kind?_leaf
        · exact branch
      have run : label.kind = .traitStatements := Option.some.inj (here.kind?_branch.symm.trans sort)
      have follows : (A ++ .branch id label below .nil ++ B).Follows .traitStatements .shapeBody := holds
      rw [Forest.append_assoc] at follows
      have next : B.firstKind = some .shapeBody := follows.firstKind run
      have behind := (holds_append.mp place.inside.2.1).2.firstKind
      rw [next] at behind
      obtain ⟨body, head, kind⟩ := Option.bind_eq_some_iff.mp behind
      obtain ⟨back, roots⟩ := List.head?_eq_some_iff.mp head
      exact .inr (.inl ⟨place.kind?_branch, A.roots, body, back, by simp [place.children_eq, roots], kind⟩)
    · exact .inl ⟨kind, (Forest.holdsTraits_plain statement).mp holds, place.kind?_branch⟩

end ParsedModel.LawfulAs

/-- Under every limit no run of traits is left between the statements of shapes. It stands in a statement, before the body
    of a shape, or in an error. In a file without errors it is never in an error. -/
theorem parse_places_traits (filename text : String) (maxDepth : Nat) :
    ∃ m, parse filename text maxDepth = .ok m ∧
      (∀ p, m.tree.kind? p = some .shapeStatements → ∀ c ∈ m.tree.childrenOf p,
        m.tree.kind? c ≠ some .traitStatements) ∧
      (∀ id ∈ m.tree.descendants SyntaxTree.root, m.tree.kind? id = some .traitStatements →
        ∃ p, m.tree.parent? id = some p ∧
          (m.tree.IsInner p ∨ m.tree.Precedes p id ∨ ∃ mark sign, m.Misplaces p id mark sign)) ∧
      (m.hasErrors = .ok false →
        ∀ id ∈ m.tree.descendants SyntaxTree.root, m.tree.kind? id = some .traitStatements →
          ∃ p, m.tree.parent? id = some p ∧ (m.tree.IsInner p ∨ m.tree.Precedes p id)) := by
  obtain ⟨m, F, parsed, file⟩ := exists_lawful filename text maxDepth
  refine ⟨m, parsed, fun p kind c child sort => ?_, fun id below sort => ?_, fun clean id below sort => ?_⟩
  · have place := file.place_of_run sort (file.stands.mem_childrenOf.mp child)
    rcases place with ⟨other, among, same⟩ | ⟨same, -⟩ | ⟨mark, sign, misplaced⟩
    · obtain rfl := Option.some.inj (kind.symm.trans same)
      revert among
      decide
    · cases kind.symm.trans same
    · cases kind.symm.trans misplaced.kind?
  · obtain ⟨p, up, -⟩ := file.stands.exists_parent below
    exact ⟨p, up, file.place_of_run sort up⟩
  · obtain ⟨p, up, -⟩ := file.stands.exists_parent below
    rcases file.place_of_run sort up with inner | before | ⟨mark, sign, misplaced⟩
    · exact ⟨p, up, .inl inner⟩
    · exact ⟨p, up, .inr before⟩
    · exact absurd misplaced.kind? (file.conforms clean).kind?_ne_error

end SmithyIdl
