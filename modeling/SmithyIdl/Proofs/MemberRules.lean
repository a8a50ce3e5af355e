import SmithyIdl.Proofs.Discipline.Trees
import SmithyIdl.Proofs.Schema.Neighbours

/-! # Which members may stand where

A list has one member, a map a key and then a value, an operation each of its properties once, and only enums and
structures have values for their members. This is so in trees with errors too, where members that failed are left. -/

namespace SmithyIdl

namespace SyntaxTree

/-- A child is of one of the kinds. -/
def HasChild (t : SyntaxTree) (kinds : List TreeKind) (id : NodeId) : Prop :=
  ∃ c ∈ t.childrenOf id, ∃ kind ∈ kinds, t.kind? c = some kind

/-- Where members, their values and properties stand. -/
structure Disciplined (t : SyntaxTree) : Prop where
  list : ∀ p, t.kind? p = some .listMembers → (t.childrenOfKind .listMember p).length ≤ 1
  map : ∀ p, t.kind? p = some .mapMembers → (t.childrenOfKind .shapeMember p).length ≤ 2
  /-- Only the first member of a map is a key. -/
  mapKey : ∀ p m ms, t.kind? p = some .mapMembers → t.childrenOfKind .shapeMember p = m :: ms →
    ∀ m' ∈ ms, ¬ t.HasChild TreeKind.mapKeys m'
  /-- Only behind a key there is a value. -/
  mapValue : ∀ p m ms, t.kind? p = some .mapMembers → t.childrenOfKind .shapeMember p = m :: ms →
    (∃ m' ∈ ms, t.HasChild TreeKind.mapValues m') → t.HasChild TreeKind.mapKeys m
  /-- Behind a value there is nothing. -/
  mapEnd : ∀ p m ms, t.kind? p = some .mapMembers → t.childrenOfKind .shapeMember p = m :: ms →
    t.HasChild TreeKind.mapValues m → ms = []
  operation : ∀ p, t.kind? p = some .operationBody → ∀ kind ∈ TreeKind.operationProperties,
    (t.childrenOfKind kind p).length ≤ 1
  value : ∀ c ∈ t.descendants root, t.kind? c = some .valueAssignment → ∃ p, t.parent? c = some p ∧
    (t.kind? p = some .enumMember ∨ t.kind? p = some .shapeMember ∧
      ∃ q, t.parent? p = some q ∧ t.kind? q = some .structureMember)

/-- The members of a map are none, a key, a value, or a key and a value. -/
def KeyThenValue (members : List (List TreeKind)) : Prop :=
  members = [] ∨ (∃ kind ∈ TreeKind.mapKeys ++ TreeKind.mapValues, members = [[kind]]) ∨
    ∃ key ∈ TreeKind.mapKeys, ∃ value ∈ TreeKind.mapValues, members = [[key], [value]]

variable {t : SyntaxTree} {F : Forest} {ts : Array Token} {p c m : NodeId} {kinds : List TreeKind}

theorem hasChild_iff (solid : .whitespace ∉ kinds) : t.HasChild kinds p ↔ ∃ kind ∈ t.solidBelow p, kind ∈ kinds := by
  have of_mem {kind : TreeKind} (mem : kind ∈ kinds) : kind ∈ t.solidBelow p ↔ ∃ c ∈ t.childrenOf p, t.kind? c = some kind :=
    mem_solidBelow fun white => solid (white ▸ mem)
  constructor
  · rintro ⟨c, child, kind, mem, sort⟩
    exact ⟨kind, (of_mem mem).mpr ⟨c, child, sort⟩, mem⟩
  · rintro ⟨kind, among, mem⟩
    obtain ⟨c, child, sort⟩ := (of_mem mem).mp among
    exact ⟨c, child, kind, mem, sort⟩

theorem targets_solidBelow : targets (t.solidBelow p) = targets (t.kindsBelow p) := by
  rw [targets, solidBelow, List.filter_filter, targets]
  refine List.filter_congr fun kind _ => ?_
  cases kind <;> rfl

/-- The keys and values of a member are among its targets. -/
theorem mem_targets (sub : kinds ⊆ Schema.memberTargets) (solid : .whitespace ∉ kinds) :
    t.HasChild kinds p ↔ ∃ kind ∈ targets (t.solidBelow p), kind ∈ kinds := by
  rw [hasChild_iff solid]
  refine exists_congr fun kind => ?_
  rw [targets, List.mem_filter, and_assoc]
  exact and_congr_right fun _ => ⟨fun mem => ⟨decide_eq_true (sub mem), mem⟩, And.right⟩

section
variable (h : t.Stands F) (lawful : F.Lawful ts)
include h lawful

theorem Stands.mapRows (sort : t.kind? p = some .mapMembers) :
    Forest.MapRows ((t.childrenOfKind .shapeMember p).map t.solidBelow) := by
  obtain ⟨way, inner, place, node, -⟩ := h.exists_lawfulNode lawful sort (by decide)
  rw [place.childrenOfKind_inside (by decide) (by decide)]
  exact node.map rfl

/-- A second member of a map has no key, and comes behind a key. -/
theorem Stands.mapMembers_cases (sort : t.kind? p = some .mapMembers) :
    t.childrenOfKind .shapeMember p = [] ∨ (∃ m, t.childrenOfKind .shapeMember p = [m]) ∨
      ∃ m m', t.childrenOfKind .shapeMember p = [m, m'] ∧ t.HasChild TreeKind.mapKeys m ∧
        ¬ t.HasChild TreeKind.mapValues m ∧ ¬ t.HasChild TreeKind.mapKeys m' := by
  have rows := h.mapRows lawful sort
  have apart : ∀ kind ∈ TreeKind.mapKeys, kind ∉ TreeKind.mapValues := by decide
  match members : t.childrenOfKind .shapeMember p with
  | [] => exact .inl rfl
  | [m] => exact .inr (.inl ⟨m, rfl⟩)
  | [m, m'] =>
    rw [members] at rows
    obtain ⟨key, keys, values⟩ := rows
    refine .inr (.inr ⟨m, m', rfl, (hasChild_iff (by decide)).mpr key, fun value => ?_, fun key' => ?_⟩)
    · obtain ⟨kind, among, value⟩ := (mem_targets (by decide) (by decide)).mp value
      exact apart kind (keys kind among) value
    · obtain ⟨kind, among, key'⟩ := (mem_targets (by decide) (by decide)).mp key'
      exact apart kind key' (values kind among)
  | m :: m' :: m'' :: ms =>
    rw [members] at rows
    exact rows.elim

theorem Stands.value_parent (up : t.parent? c = some p) (sort : t.kind? c = some .valueAssignment) :
    t.kind? p = some .enumMember ∨ t.kind? p = some .shapeMember := by
  obtain ⟨way, label, inner, place, node, -⟩ := h.exists_lawfulParent lawful up
  have among := (place.mem_solid (by decide)).mpr ⟨c, h.mem_childrenOf.mpr up, sort⟩
  rcases node.value among with rfl | rfl
  · exact .inl place.kind?_branch
  · exact .inr place.kind?_branch

theorem Stands.member_parent (up : t.parent? m = some p) (sort : t.kind? m = some .shapeMember)
    (child : c ∈ t.childrenOf m) (value : t.kind? c = some .valueAssignment) : t.kind? p = some .structureMember := by
  obtain ⟨way, label, inner, place, node, -⟩ := h.exists_lawfulParent lawful up
  have among : t.solidBelow m ∈ inner.inside .shapeMember := by
    rw [← place.childrenOfKind_inside (by decide) (by decide)]
    exact List.mem_map_of_mem (List.mem_filter.mpr ⟨h.mem_childrenOf.mpr up, by simpa using sort⟩)
  obtain rfl := node.member _ among ((mem_solidBelow (by decide)).mpr ⟨c, child, value⟩)
  exact place.kind?_branch

/-- Lawful trees are disciplined. -/
theorem Stands.disciplined (top : t.kind? root = some .idl) : t.Disciplined where
  list p sort := by
    obtain ⟨way, inner, place, node, -⟩ := h.exists_lawfulNode lawful sort (by decide)
    rw [place.length_childrenOfKind (by decide)]
    exact node.list rfl
  operation p sort kind among := by
    obtain ⟨way, inner, place, node, -⟩ := h.exists_lawfulNode lawful sort (by decide)
    have solid : kind ≠ .whitespace := by
      rintro rfl
      revert among
      decide
    rw [place.length_childrenOfKind solid]
    exact node.operation rfl kind among
  map p sort := by
    rcases h.mapMembers_cases lawful sort with none | ⟨m, one⟩ | ⟨m, m', two, -⟩
    · simp [none]
    · simp [one]
    · simp [two]
  mapKey p m ms sort members := by
    rcases h.mapMembers_cases lawful sort with none | ⟨m, one⟩ | ⟨m, m', two, -, -, other⟩
    · cases members.symm.trans none
    · cases members.symm.trans one
      nofun
    · cases members.symm.trans two
      simpa using other
  mapValue p m ms sort members := by
    rcases h.mapMembers_cases lawful sort with none | ⟨m, one⟩ | ⟨m, m', two, key, -⟩
    · cases members.symm.trans none
    · cases members.symm.trans one
      rintro ⟨_, never, _⟩
      cases never
    · cases members.symm.trans two
      exact fun _ => key
  mapEnd p m ms sort members := by
    rcases h.mapMembers_cases lawful sort with none | ⟨m, one⟩ | ⟨m, m', two, -, other, -⟩
    · cases members.symm.trans none
    · cases members.symm.trans one
      exact fun _ => rfl
    · cases members.symm.trans two
      exact fun value => absurd value other
  value c below sort := by
    obtain ⟨p, up, above⟩ := h.exists_parent below
    refine ⟨p, up, (h.value_parent lawful up sort).imp_right fun member => ⟨member, ?_⟩⟩
    rcases above with rfl | below
    · cases top.symm.trans member
    · obtain ⟨q, up', -⟩ := h.exists_parent below
      exact ⟨q, up', h.member_parent lawful up' member (h.mem_childrenOf.mpr up) sort⟩

end

end SyntaxTree

/-! ### Trees without errors -/

namespace Schema

/-- A member has one target. -/
theorem targets_of_shapeMember {u : List Symbol} (h : u ∈ (production .shapeMember).matches') :
    ∃ kind ∈ memberTargets, targets (u.map Symbol.kind) = [kind] := by
  have none {r : Rows} (other : ∀ s ∈ symbols r, s.kind ∉ memberTargets) {u : List Symbol} (hu : u ∈ r.matches') :
      targets (u.map Symbol.kind) = [] := by
    refine List.filter_eq_nil_iff.mpr fun kind among => ?_
    obtain ⟨s, mem, rfl⟩ := List.mem_map.mp among
    simpa using other s (mem_symbols hu mem)
  obtain ⟨docs, hDocs, _, ⟨run, hRun, _, ⟨_, ⟨target, hTarget, behind, hBehind, rfl⟩, last, hLast, rfl⟩, rfl⟩, rfl⟩ := h
  obtain ⟨_, mem, hTarget⟩ := mem_anyOf.mp hTarget
  obtain ⟨kind, among, rfl⟩ := List.mem_map.mp mem
  obtain rfl := mem_one.mp hTarget
  have here : targets ([Symbol.node kind].map Symbol.kind) = [kind] :=
    List.filter_cons_of_pos (decide_eq_true among)
  have before := none (by decide) hDocs
  have traits := none (by decide) hRun
  have after := none (r := sequence [trailing]) (by decide) hBehind
  have rest := none (r := sequence []) (by decide) hLast
  refine ⟨kind, among, ?_⟩
  simp only [List.map_append, targets_append, before, traits, here, after, rest, List.nil_append, List.append_nil]

end Schema

namespace SyntaxTree

variable {t : SyntaxTree} {F : Forest} {ts : Array Token} {p m : NodeId}

theorem kindsBelow_of_row? {row : List Symbol} (h : t.row? p = some row) : t.kindsBelow p = row.map Symbol.kind := by
  have kinds : (t.childrenOf p).map t.kind? = (row.map some).map (Option.map Symbol.kind) := by
    rw [map_symbol? h, List.map_map]
    refine List.map_congr_left fun c child => ?_
    obtain ⟨s, -, here⟩ := List.mem_map.mp (map_symbol? h ▸ List.mem_map_of_mem child)
    rw [Function.comp_apply, ← here]
    exact kind?_of_symbol? here.symm
  calc (t.childrenOf p).filterMap t.kind?
    _ = ((t.childrenOf p).map t.kind?).filterMap id := by rw [List.filterMap_map, Function.id_comp]
    _ = ((row.map Symbol.kind).map some).filterMap id := by rw [kinds, List.map_map, List.map_map]; rfl
    _ = row.map Symbol.kind := by rw [List.filterMap_map]; exact List.filterMap_some

/-- Without errors every member has one target. -/
theorem Conforms.exists_target (h : t.Conforms) (sort : t.kind? m = some .shapeMember) :
    ∃ kind ∈ Schema.memberTargets, targets (t.kindsBelow m) = [kind] := by
  obtain ⟨row, symbols, among⟩ := h.exists_row sort (by decide)
  rw [kindsBelow_of_row? symbols]
  exact Schema.targets_of_shapeMember among

/-- Without errors the members of a map are a key, a value, or both. -/
theorem Stands.keyThenValue (h : t.Stands F) (lawful : F.Lawful ts) (conforms : t.Conforms)
    (sort : t.kind? p = some .mapMembers) :
    KeyThenValue ((t.childrenOfKind .shapeMember p).map fun m => targets (t.kindsBelow m)) := by
  have rows := h.mapRows lawful sort
  have one {m : NodeId} (among : m ∈ t.childrenOfKind .shapeMember p) : ∃ kind, targets (t.kindsBelow m) = [kind] :=
    (conforms.exists_target (by simpa using (List.mem_filter.mp among).2)).imp fun _ => And.right
  rcases h.mapMembers_cases lawful sort with none | ⟨m, alone⟩ | ⟨m, m', two, -⟩
  · exact .inl (by rw [none]; rfl)
  · obtain ⟨kind, target⟩ := one (m := m) (by simp [alone])
    rw [alone] at rows ⊢
    refine .inr (.inl ⟨kind, List.mem_append.mpr (rows kind ?_), by simp [target]⟩)
    simp [targets_solidBelow, target]
  · obtain ⟨key, target⟩ := one (m := m) (by simp [two])
    obtain ⟨value, target'⟩ := one (m := m') (by simp [two])
    rw [two] at rows ⊢
    obtain ⟨-, keys, values⟩ := rows
    exact .inr (.inr ⟨key, keys key (by simp [targets_solidBelow, target]), value,
      values value (by simp [targets_solidBelow, target']), by simp [target, target']⟩)

end SyntaxTree

/-- Under every limit the tree is disciplined; and in a file without errors each map has no members, a key, a value, or a
    key and then a value. -/
theorem parse_disciplines_members (filename text : String) (maxDepth : Nat) :
    ∃ m, parse filename text maxDepth = .ok m ∧ m.tree.Disciplined ∧ (m.hasErrors = .ok false →
      ∀ p, m.tree.kind? p = some .mapMembers → SyntaxTree.KeyThenValue
        ((m.tree.childrenOfKind .shapeMember p).map fun member => targets (m.tree.kindsBelow member))) := by
  obtain ⟨m, F, parsed, file⟩ := exists_lawful filename text maxDepth
  exact ⟨m, parsed, file.stands.disciplined file.lawful file.top, fun clean p sort =>
    file.stands.keyThenValue file.lawful (file.conforms clean) sort⟩

end SmithyIdl
