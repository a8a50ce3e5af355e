import SmithyIdl.Proofs.Buffer.Lockstep
import SmithyIdl.Proofs.Buffer.Moves
import SmithyIdl.Proofs.Schema.Rows
import SmithyIdl.Proofs.Tree.Thinned

/-! # What may stand where

Some nodes stand in few places only, also in trees with errors: the values of members, runs of traits, the members of
lists and maps, and the properties of operations. And in a value nothing stands behind a part that has an error in it.
Whitespace plays no role in most of this, as documentation comments are moved. -/

namespace SmithyIdl

namespace TreeKind

/-- Nodes that may stand everywhere. -/
@[reducible]
def isUnruled : TreeKind → Bool
  | valueAssignment | traitStatements | shapeMember | listMember | operationInput | operationOutput
  | operationErrors => false
  | _ => true

/-- The parts of a value. One of them that has an error in it is the last child. -/
def parts : TreeKind → List TreeKind
  | nodeArray => [nodeValue]
  | nodeObject => [nodeObjectEntry]
  | traitStructure => [traitStructureEntry]
  | traitBody => [traitStructure, traitBodyValue]
  | _ => []

/-- Nodes in which it only matters what ruled ones are in them. -/
@[reducible]
def isFree : TreeKind → Bool
  | nodeArray | nodeObject | traitStructure | traitBody | traitStatements | shapeStatement => false
  | _ => true

theorem parts_of_isFree {kind : TreeKind} (free : kind.isFree = true) : kind.parts = [] := by
  cases kind <;> first | rfl | cases free

theorem not_mem_parts (kind : TreeKind) : .whitespace ∉ kind.parts ∧ .token ∉ kind.parts ∧ .error ∉ kind.parts := by
  cases kind <;> decide

/-- The nodes of the keys of maps. -/
def mapKeys : List TreeKind := [explicitMapKey, elidedMapKey]

/-- The nodes of the values of maps. -/
def mapValues : List TreeKind := [explicitMapValue, elidedMapValue]

/-- The nodes of the properties of operations. -/
def operationProperties : List TreeKind := [operationInput, operationOutput, operationErrors]

end TreeKind

/-- The nodes of the names and targets among the children of a member. -/
def targets (row : List TreeKind) : List TreeKind := row.filter (· ∈ Schema.memberTargets)

theorem targets_append (u w : List TreeKind) : targets (u ++ w) = targets u ++ targets w := List.filter_append ..

namespace Forest

/-! ### Parts of forests -/

/-- The kinds of the trees but for whitespace. -/
def solid : Forest → List TreeKind
  | nil => []
  | leaf _ _ rest => .token :: rest.solid
  | branch _ label _ rest => if label = .plain .whitespace then rest.solid else label.kind :: rest.solid

/-- What stands in the trees of a kind. -/
def inside (kind : TreeKind) : Forest → List (List TreeKind)
  | nil => []
  | leaf _ _ rest => rest.inside kind
  | branch _ label inner rest => if label = .plain kind then inner.solid :: rest.inside kind else rest.inside kind

/-- No error is below. -/
def Clean : Forest → Prop
  | nil => True
  | leaf _ _ rest => rest.Clean
  | branch _ label inner rest => label.mark? = none ∧ inner.Clean ∧ rest.Clean

/-- The first token stands first, and not in whitespace. -/
def Leads (ts : Array Token) (first : Token) : Forest → Prop
  | nil => False
  | leaf _ i _ => ts[i]? = some first
  | branch _ label inner _ => label ≠ .plain .whitespace ∧ inner.Leads ts first

/-- A run of traits, if there is one. It begins with a sign. -/
def TraitRun (ts : Array Token) : Option NodeId → Forest → Prop
  | none, F => F = nil
  | some d, F => ∃ T first, F = branch d (.plain .traitStatements) T nil ∧ T.Leads ts first ∧ first.kind = .atSign

/-- Right behind each tree of a kind stands one of another. -/
def Follows (kind next : TreeKind) : Forest → Prop
  | nil => True
  | leaf _ _ rest => rest.Follows kind next
  | branch _ label _ rest => (label.kind = kind → rest.firstKind = some next) ∧ rest.Follows kind next

/-- No part has an error in it. -/
def Unbroken (parts : List TreeKind) : Forest → Prop
  | nil => True
  | leaf _ _ rest => rest.Unbroken parts
  | branch _ label inner rest => (label.kind ∈ parts → inner.Clean) ∧ rest.Unbroken parts

/-- Nothing stands behind a part that has an error in it. -/
def EndsBroken (parts : List TreeKind) : Forest → Prop
  | nil => True
  | leaf _ _ rest => rest.EndsBroken parts
  | branch _ label inner rest => (label.kind ∈ parts → ¬ inner.Clean → rest = nil) ∧ rest.EndsBroken parts

/-- The kinds of the trees that are ruled. -/
def ruled (F : Forest) : List TreeKind := F.solid.filter (!·.isUnruled)

/-- No tree is ruled. -/
def Ordinary (F : Forest) : Prop := ∀ kind ∈ F.solid, kind.isUnruled = true

section
variable {ts : Array Token} {first : Token} {F G : Forest} {id : NodeId} {token : TokenId} {label : Label}
  {kind next : TreeKind} {parts : List TreeKind}

@[simp] theorem solid_nil : nil.solid = [] := rfl

@[simp] theorem solid_leaf : (leaf id token F).solid = .token :: F.solid := rfl

theorem solid_branch (other : label ≠ .plain .whitespace) :
    (branch id label F G).solid = label.kind :: G.solid := if_neg other

@[simp] theorem solid_append : (F ++ G).solid = F.solid ++ G.solid := by
  induction F with
  | nil => rfl
  | leaf id token rest ih => rw [leaf_append, solid_leaf, solid_leaf, ih, List.cons_append]
  | branch id label inner rest _ ih =>
    rw [branch_append]
    by_cases white : label = .plain .whitespace
    · subst white
      exact ih
    · rw [solid_branch white, solid_branch white, ih, List.cons_append]

theorem inside_branch : (branch id (.plain kind) F G).inside kind = F.solid :: G.inside kind := if_pos rfl

theorem inside_branch_of_ne (other : label ≠ .plain kind) : (branch id label F G).inside kind = G.inside kind :=
  if_neg other

@[simp] theorem inside_append : (F ++ G).inside kind = F.inside kind ++ G.inside kind := by
  induction F with
  | nil => rfl
  | leaf id token rest ih => exact ih
  | branch id label inner rest _ ih =>
    rw [branch_append]
    by_cases here : label = .plain kind
    · subst here
      rw [inside_branch, inside_branch, ih, List.cons_append]
    · rw [inside_branch_of_ne here, inside_branch_of_ne here, ih]

/-- Where no tree is of the kind, nothing stands in one. -/
theorem inside_eq_nil (white : kind ≠ .whitespace) (none : kind ∉ F.solid) : F.inside kind = [] := by
  induction F with
  | nil => rfl
  | leaf id token rest ih => exact ih fun among => none (List.mem_cons_of_mem _ among)
  | branch id label inner rest _ ih =>
    by_cases here : label = .plain kind
    · subst here
      rw [solid_branch (by simpa using white)] at none
      exact absurd List.mem_cons_self none
    · rw [inside_branch_of_ne here]
      refine ih fun among => none ?_
      rw [solid]
      split
      · exact among
      · exact List.mem_cons_of_mem _ among

theorem clean_branch : (branch id label F G).Clean ↔ label.mark? = none ∧ F.Clean ∧ G.Clean := .rfl

theorem follows_append_of_ne (none : kind ∉ F.solid) (white : kind ≠ .whitespace) :
    (F ++ G).Follows kind next ↔ G.Follows kind next := by
  induction F with
  | nil => exact .rfl
  | leaf id token rest ih => exact ih fun among => none (List.mem_cons_of_mem _ among)
  | branch id label inner rest _ ih =>
    by_cases here : label = .plain .whitespace
    · subst here
      exact ⟨fun h => (ih none).mp h.2, fun h => ⟨fun same => absurd same.symm white, (ih none).mpr h⟩⟩
    · rw [solid_branch here, List.mem_cons, not_or] at none
      exact ⟨fun h => (ih none.2).mp h.2, fun h => ⟨fun same => absurd same.symm none.1, (ih none.2).mpr h⟩⟩

theorem unbroken_branch : (branch id label F G).Unbroken parts ↔ (label.kind ∈ parts → F.Clean) ∧ G.Unbroken parts :=
  .rfl

@[simp] theorem unbroken_append : (F ++ G).Unbroken parts ↔ F.Unbroken parts ∧ G.Unbroken parts := by
  induction F with
  | nil => exact (iff_of_eq (true_and _)).symm
  | leaf id token rest ih => exact ih
  | branch id label inner rest _ ih => rw [branch_append, unbroken_branch, unbroken_branch, ih, and_assoc]

theorem Unbroken.append_endsBroken (h : F.Unbroken parts) (h' : G.EndsBroken parts) : (F ++ G).EndsBroken parts := by
  induction F with
  | nil => exact h'
  | leaf id token rest ih => exact ih h
  | branch id label inner rest _ ih => exact ⟨fun part broken => absurd (h.1 part) broken, ih h.2⟩

theorem Unbroken.endsBroken (h : F.Unbroken parts) : F.EndsBroken parts := by
  simpa using h.append_endsBroken (G := nil) trivial

/-- Where no tree is a part, none is a broken one. -/
theorem unbroken_of_solid (white : .whitespace ∉ parts) (none : ∀ kind ∈ F.solid, kind ∉ parts) :
    F.Unbroken parts := by
  induction F with
  | nil => trivial
  | leaf id token rest ih => exact ih fun kind among => none kind (List.mem_cons_of_mem _ among)
  | branch id label inner rest _ ih =>
    by_cases here : label = .plain .whitespace
    · subst here
      exact ⟨fun part => absurd part white, ih none⟩
    · rw [solid_branch here, List.forall_mem_cons] at none
      exact ⟨fun part => absurd part none.1, ih none.2⟩

theorem endsBroken_none : F.EndsBroken [] := (unbroken_of_solid (by simp) (by simp)).endsBroken

@[simp] theorem ordinary_nil : nil.Ordinary := nofun

@[simp] theorem ordinary_leaf : (leaf id token F).Ordinary ↔ F.Ordinary := by
  rw [Ordinary, solid_leaf, List.forall_mem_cons]
  exact and_iff_right rfl

@[simp] theorem ordinary_append : (F ++ G).Ordinary ↔ F.Ordinary ∧ G.Ordinary := by
  rw [Ordinary, solid_append, List.forall_mem_append]
  rfl

theorem ordinary_branch (free : label.kind.isUnruled = true) : (branch id label F nil).Ordinary := by
  intro kind among
  by_cases white : label = .plain .whitespace
  · subst white
    cases among
  · rw [solid_branch white] at among
    obtain rfl := List.mem_singleton.mp among
    exact free

@[simp] theorem ruled_append : (F ++ G).ruled = F.ruled ++ G.ruled := by
  rw [ruled, solid_append, List.filter_append, ruled, ruled]

theorem ruled_branch (here : label.kind.isUnruled = false) : (branch id label F nil).ruled = [label.kind] := by
  have solid : (branch id label F nil).solid = [label.kind] := solid_branch (by rintro rfl; cases here)
  rw [ruled, solid, List.filter_singleton, here]
  rfl

theorem ruled_of_solid (same : F.solid = G.solid) : F.ruled = G.ruled := by rw [ruled, same, ruled]

theorem Ordinary.ruled_eq_nil (h : F.Ordinary) : F.ruled = [] :=
  List.filter_eq_nil_iff.mpr fun kind among => by simp [h kind among]

theorem ordinary_of_ruled (none : F.ruled = []) : F.Ordinary := fun kind among => by
  simpa using List.filter_eq_nil_iff.mp none kind among

theorem mem_ruled (here : kind.isUnruled = false) : kind ∈ F.ruled ↔ kind ∈ F.solid := by
  rw [ruled, List.mem_filter, here]
  exact and_iff_left rfl

theorem count_ruled (here : kind.isUnruled = false) : F.ruled.count kind = F.solid.count kind :=
  List.count_filter (by rw [here]; rfl)

theorem Ordinary.inside_eq_nil (h : F.Ordinary) : F.inside .shapeMember = [] :=
  Forest.inside_eq_nil nofun fun among => absurd (h _ among) Bool.false_ne_true

/-- The first token of a forest. -/
theorem Leads.tokens (h : F.Leads ts first) : ∃ i rest, F.tokens = i :: rest ∧ ts[i]? = some first := by
  induction F with
  | nil => cases h
  | leaf id token rest => exact ⟨token, _, rfl, h⟩
  | branch id label inner rest ih =>
    obtain ⟨i, below, tokens, read⟩ := ih h.2
    exact ⟨i, below ++ rest.tokens, by rw [tokens_branch, tokens, List.cons_append], read⟩

theorem TraitRun.solid_eq {traits : Option NodeId} (h : F.TraitRun ts traits) :
    F.solid = [] ∨ F.solid = [.traitStatements] := by
  cases traits with
  | none => exact .inl (h ▸ rfl)
  | some d =>
    obtain ⟨T, first, rfl, -⟩ := h
    exact .inr (solid_branch (by simp))

theorem Leads.append (h : F.Leads ts first) (G : Forest) : (F ++ G).Leads ts first := by
  cases F with
  | nil => cases h
  | leaf => exact h
  | branch => exact h

end

/-! ### Thinned forests -/

namespace Thins

variable {ts : Array Token} {first : Token} {F G : Forest} {kind next : TreeKind} {parts : List TreeKind}

theorem solid_eq (h : G.Thins F) : G.solid = F.solid := by
  induction h with
  | nil => rfl
  | leaf id token _ ih => rw [solid_leaf, solid_leaf, ih]
  | branch id label _ _ _ ih => rw [solid, solid, ih]
  | drop id inner _ ih => exact ih

theorem inside_eq (h : G.Thins F) (white : kind ≠ .whitespace) : G.inside kind = F.inside kind := by
  induction h with
  | nil => rfl
  | leaf id token _ ih => exact ih
  | branch id label inner _ _ ih => rw [inside, inside, ih, inner.solid_eq]
  | drop id inner _ ih =>
    rw [inside_branch_of_ne (by simpa using white.symm)]
    exact ih

theorem ordinary (h : G.Thins F) (ordinary : F.Ordinary) : G.Ordinary := by
  rw [Ordinary, h.solid_eq]
  exact ordinary

theorem clean (h : G.Thins F) (clean : F.Clean) : G.Clean := by
  induction h with
  | nil => trivial
  | leaf id token _ ih => exact ih clean
  | branch id label _ _ ihInner ihRest => exact ⟨clean.1, ihInner clean.2.1, ihRest clean.2.2⟩
  | drop id inner _ ih => exact ih clean.2.2

theorem leads (h : G.Thins F) (leads : F.Leads ts first) : G.Leads ts first := by
  induction h with
  | nil => exact leads
  | leaf => exact leads
  | branch id label _ _ ih => exact ⟨leads.1, ih leads.2⟩
  | drop => exact absurd rfl leads.1

theorem firstKind_eq (h : G.Thins F) (first : F.firstKind = some kind) (white : kind ≠ .whitespace) :
    G.firstKind = some kind := by
  cases h with
  | nil => exact first
  | leaf => exact first
  | branch => exact first
  | drop => exact absurd (Option.some.inj first).symm white

theorem follows (h : G.Thins F) (follows : F.Follows kind next) (white : next ≠ .whitespace) :
    G.Follows kind next := by
  induction h with
  | nil => trivial
  | leaf id token _ ih => exact ih follows
  | branch id label _ rest _ ih => exact ⟨fun here => rest.firstKind_eq (follows.1 here) white, ih follows.2⟩
  | drop id inner _ ih => exact ih follows.2

theorem endsBroken (h : G.Thins F) (ends : F.EndsBroken parts) : G.EndsBroken parts := by
  induction h with
  | nil => trivial
  | leaf id token _ ih => exact ih ends
  | branch id label inner rest _ ih =>
    refine ⟨fun part broken => ?_, ih ends.2⟩
    have none := ends.1 part fun clean => broken (inner.clean clean)
    subst none
    exact rest.eq_nil
  | drop id inner _ ih => exact ih ends.2

end Thins

/-! ### Lawful forests -/

/-- The members of a map: a key, a value, or a key and then a value. A member that failed may have no target. -/
def MapRows : List (List TreeKind) → Prop
  | [] => True
  | [m] => ∀ kind ∈ targets m, kind ∈ TreeKind.mapKeys ∨ kind ∈ TreeKind.mapValues
  | [m, m'] => (∃ kind ∈ m, kind ∈ TreeKind.mapKeys) ∧ (∀ kind ∈ targets m, kind ∈ TreeKind.mapKeys) ∧
      ∀ kind ∈ targets m', kind ∈ TreeKind.mapValues
  | _ => False

/-- Where a run of traits may stand: alone in an error node that is located at its first token, before the body of a
shape, and in what is part of a statement. -/
def HoldsTraits (ts : Array Token) : Label → Forest → Prop
  | .error mark, F => mark.problem.encloses = true ∧ ∃ d inner first, F = branch d (.plain .traitStatements) inner nil ∧
      inner.Leads ts first ∧ first.kind = .atSign ∧ mark.StartsAt ts first
  | .plain .shapeStatement, F => F.Follows .traitStatements .shapeBody
  | .plain kind, _ => kind ∈ [.shapeMember, .enumMember, .inlineStructure, .applyStatementBlock]

theorem holdsTraits_plain {ts : Array Token} {kind : TreeKind} {F : Forest} (other : kind ≠ .shapeStatement) :
    HoldsTraits ts (.plain kind) F ↔ kind ∈ [.shapeMember, .enumMember, .inlineStructure, .applyStatementBlock] := by
  cases kind <;> first | exact absurd rfl other | exact .rfl

/-- What may stand in a node. -/
structure LawfulNode (ts : Array Token) (label : Label) (F : Forest) : Prop where
  value : .valueAssignment ∈ F.solid → label = .plain .enumMember ∨ label = .plain .shapeMember
  member : ∀ m ∈ F.inside .shapeMember, .valueAssignment ∈ m → label = .plain .structureMember
  list : label = .plain .listMembers → F.solid.count .listMember ≤ 1
  map : label = .plain .mapMembers → MapRows (F.inside .shapeMember)
  operation : label = .plain .operationBody → ∀ kind ∈ TreeKind.operationProperties, F.solid.count kind ≤ 1
  traits : .traitStatements ∈ F.solid → HoldsTraits ts label F
  run : label = .plain .traitStatements → ∃ first, F.Leads ts first ∧ first.kind = .atSign
  parts : F.EndsBroken label.kind.parts

/-- All nodes are lawful. -/
def Lawful (ts : Array Token) : Forest → Prop
  | nil => True
  | leaf _ _ rest => rest.Lawful ts
  | branch _ label inner rest => LawfulNode ts label inner ∧ inner.Lawful ts ∧ rest.Lawful ts

section
variable {ts : Array Token} {F G : Forest} {id : NodeId} {label : Label}

@[simp] theorem lawful_nil : nil.Lawful ts := trivial

@[simp] theorem lawful_leaf {token : TokenId} : (leaf id token F).Lawful ts ↔ F.Lawful ts := .rfl

@[simp] theorem lawful_branch : (branch id label F G).Lawful ts ↔
    LawfulNode ts label F ∧ F.Lawful ts ∧ G.Lawful ts := .rfl

@[simp] theorem lawful_append : (F ++ G).Lawful ts ↔ F.Lawful ts ∧ G.Lawful ts := by
  induction F with
  | nil => exact (iff_of_eq (true_and _)).symm
  | leaf id token rest ih => exact ih
  | branch id label inner rest _ ih =>
    rw [branch_append, lawful_branch, lawful_branch, ih, and_assoc, and_assoc]

/-- A lawful run of traits begins with a sign. -/
theorem TraitRun.of_lawful {T : Forest} {d : NodeId} (one : T.roots = [d]) (solid : T.solid = [.traitStatements])
    (lawful : T.Lawful ts) : T.TraitRun ts (some d) := by
  cases T with
  | nil => cases one
  | leaf => cases solid
  | branch id label inner rest =>
    obtain ⟨rfl, none⟩ := List.cons.inj one
    obtain rfl := eq_nil_of_roots none
    by_cases white : label = .plain .whitespace
    · subst white
      cases solid
    · rw [solid_branch white] at solid
      cases label with
      | error => cases solid
      | plain kind =>
        obtain rfl : kind = .traitStatements := (List.cons.inj solid).1
        obtain ⟨first, leads, sign⟩ := (lawful_branch.mp lawful).1.run rfl
        exact ⟨inner, first, rfl, leads, sign⟩

/-- What stands in an open place of a lawful forest is lawful. -/
theorem Lawful.of_plug {way : List Frame} (h : (plug way F).Lawful ts) : F.Lawful ts := by
  induction way generalizing F with
  | nil => exact h
  | cons f way ih =>
    have inner := (lawful_branch.mp (ih h)).2.1
    exact (lawful_append.mp (lawful_append.mp inner).1).2

/-- What a node of a kind may have in it, by the ruled nodes alone. -/
structure Fits (kind : TreeKind) (F : Forest) : Prop where
  value : .valueAssignment ∈ F.ruled → kind = .enumMember ∨ kind = .shapeMember
  member : ∀ m ∈ F.inside .shapeMember, .valueAssignment ∈ m → kind = .structureMember
  list : kind = .listMembers → F.ruled.count .listMember ≤ 1
  map : kind = .mapMembers → MapRows (F.inside .shapeMember)
  operation : kind = .operationBody → ∀ sort ∈ TreeKind.operationProperties, F.ruled.count sort ≤ 1
  traits : .traitStatements ∈ F.ruled → kind ∈ [.shapeMember, .enumMember, .inlineStructure, .applyStatementBlock]

namespace Fits

variable {kind : TreeKind}

theorem congr (h : F.Fits kind) (ruled : G.ruled = F.ruled) (inside : G.inside .shapeMember = F.inside .shapeMember) :
    G.Fits kind where
  value := ruled ▸ h.value
  member := inside ▸ h.member
  list := ruled ▸ h.list
  map := inside ▸ h.map
  operation := ruled ▸ h.operation
  traits := ruled ▸ h.traits

theorem nil : Forest.nil.Fits kind :=
  ⟨nofun, nofun, fun _ => Nat.zero_le 1, fun _ => trivial, fun _ _ _ => Nat.zero_le 1, nofun⟩

theorem of_ordinary (h : F.Ordinary) : F.Fits kind := nil.congr h.ruled_eq_nil h.inside_eq_nil

theorem append_ordinary (h : F.Fits kind) (ordinary : G.Ordinary) : (F ++ G).Fits kind :=
  h.congr (by simp [ordinary.ruled_eq_nil]) (by simp [ordinary.inside_eq_nil])

theorem ordinary_append (h : G.Fits kind) (ordinary : F.Ordinary) : (F ++ G).Fits kind :=
  h.congr (by simp [ordinary.ruled_eq_nil]) (by simp [ordinary.inside_eq_nil])

theorem thins (h : F.Fits kind) (thin : G.Thins F) : G.Fits kind :=
  h.congr (ruled_of_solid thin.solid_eq) (thin.inside_eq nofun)

theorem lawfulNode (free : kind.isFree = true) (h : F.Fits kind) : LawfulNode ts (.plain kind) F where
  value among := by simpa using h.value ((mem_ruled rfl).mpr among)
  member m among value := congrArg _ (h.member m among value)
  list here := by
    have ruled : TreeKind.listMember.isUnruled = false := rfl
    exact count_ruled ruled ▸ h.list (by simpa using here)
  map here := h.map (by simpa using here)
  operation here sort among := by
    have ruled : sort.isUnruled = false := by
      revert sort
      decide
    exact count_ruled (F := F) ruled ▸ h.operation (by simpa using here) sort among
  traits among := by
    refine (holdsTraits_plain ?_).mpr (h.traits ((mem_ruled rfl).mpr among))
    rintro rfl
    cases free
  run here := by
    cases here
    cases free
  parts := by
    rw [Label.kind, TreeKind.parts_of_isFree free]
    exact endsBroken_none

end Fits

/-- Where nothing is ruled, it only matters how runs of traits begin and where broken parts stand. -/
theorem LawfulNode.of_unruled (h : F.Ordinary)
    (run : label = .plain .traitStatements → ∃ first, F.Leads ts first ∧ first.kind = .atSign)
    (parts : F.EndsBroken label.kind.parts) : LawfulNode ts label F := by
  have none {kind : TreeKind} (ruled : kind.isUnruled = false) : kind ∉ F.solid := fun among =>
    absurd (ruled.symm.trans (h kind among)) Bool.noConfusion
  refine ⟨fun among => absurd among (none rfl), ?_, fun _ => ?_, fun _ => ?_, fun _ kind among => ?_,
    fun among => absurd among (none rfl), run, parts⟩
  · simp [h.inside_eq_nil]
  · rw [List.count_eq_zero.mpr (none rfl)]
    exact Nat.zero_le 1
  · rw [h.inside_eq_nil]
    trivial
  · have ruled : kind.isUnruled = false := by
      revert kind
      decide
    rw [List.count_eq_zero.mpr (none ruled)]
    exact Nat.zero_le 1

theorem LawfulNode.of_parts (h : F.Ordinary) (notRun : label ≠ .plain .traitStatements)
    (parts : F.EndsBroken label.kind.parts) : LawfulNode ts label F :=
  .of_unruled h (fun here => absurd here notRun) parts

theorem LawfulNode.of_ordinary (free : label.kind.isFree = true) (h : F.Ordinary) : LawfulNode ts label F := by
  refine .of_parts h ?_ ?_
  · rintro rfl
    cases free
  · rw [TreeKind.parts_of_isFree free]
    exact endsBroken_none

/-- A run of traits, alone in an error that encloses it. -/
theorem LawfulNode.of_enclosed {mark : Mark} {d : NodeId} {J : Forest} {first : Token}
    (encloses : mark.problem.encloses = true) (leads : J.Leads ts first) (sign : first.kind = .atSign) (starts : mark.StartsAt ts first) :
    LawfulNode ts (.error mark) (branch d (.plain .traitStatements) J nil) := by
  have solid : (branch d (.plain .traitStatements) J nil).solid = [.traitStatements] := solid_branch (by simp)
  have inside : (branch d (.plain .traitStatements) J nil).inside .shapeMember = [] := inside_branch_of_ne (by simp)
  exact ⟨by simp [solid], by simp [inside], nofun, nofun, nofun,
    fun _ => ⟨encloses, d, J, first, rfl, leads, sign, starts⟩, nofun, endsBroken_none⟩

/-- Documentation comments, a run of traits, and the body of the shape that it belongs to. -/
theorem LawfulNode.of_shape {D T X : Forest} {i : NodeId} {traits : Option NodeId} (white : D.solid = [])
    (run : T.TraitRun ts traits) :
    LawfulNode ts (.plain .shapeStatement) (D ++ T ++ branch i (.plain .shapeBody) X nil) := by
  generalize body : branch i (.plain .shapeBody) X nil = B
  have solid : B.solid = [.shapeBody] := body ▸ solid_branch (by simp)
  have all : ∀ kind ∈ (D ++ T ++ B).solid, kind = .traitStatements ∨ kind = .shapeBody := by
    rcases run.solid_eq with run | run <;> simp [white, run, solid]
  have none {kind : TreeKind} (other : kind ≠ .traitStatements ∧ kind ≠ .shapeBody) : kind ∉ (D ++ T ++ B).solid :=
    fun among => (all kind among).elim other.1 other.2
  have inside : (D ++ T ++ B).inside .shapeMember = [] := inside_eq_nil nofun (none (by decide))
  have behind : (T ++ B).Follows .traitStatements .shapeBody := by
    subst body
    cases traits with
    | none =>
      obtain rfl : T = nil := run
      exact ⟨nofun, trivial⟩
    | some d =>
      obtain ⟨J, first, rfl, -⟩ := run
      exact ⟨fun _ => rfl, nofun, trivial⟩
  refine ⟨fun among => absurd among (none (by decide)), ?_, nofun, nofun, nofun, fun _ => ?_, nofun, endsBroken_none⟩
  · rw [inside]
    nofun
  · rw [HoldsTraits, append_assoc]
    exact (follows_append_of_ne (by simp [white]) (by decide)).mpr behind

namespace Thins

theorem holdsTraits (h : G.Thins F) (holds : HoldsTraits ts label F) : HoldsTraits ts label G := by
  match label, holds with
  | .error mark, ⟨encloses, d, inner, first, whole, leads, rest⟩ =>
    subst whole
    obtain ⟨inner', rfl, thin⟩ := h.one (by simp)
    exact ⟨encloses, d, inner', first, rfl, thin.leads leads, rest⟩
  | .plain kind, holds =>
    by_cases statement : kind = .shapeStatement
    · subst statement
      exact h.follows holds (by decide)
    · exact (holdsTraits_plain statement).mpr ((holdsTraits_plain statement).mp holds)

/-- Without some whitespace a node is as lawful as before. -/
theorem lawfulNode (h : G.Thins F) (lawful : LawfulNode ts label F) : LawfulNode ts label G := by
  have solid := h.solid_eq
  have inside : G.inside .shapeMember = F.inside .shapeMember := h.inside_eq nofun
  refine ⟨?_, ?_, ?_, ?_, ?_, fun among => h.holdsTraits (lawful.traits (solid ▸ among)), fun here => ?_,
    h.endsBroken lawful.parts⟩
  · exact solid ▸ lawful.value
  · exact inside ▸ lawful.member
  · exact solid ▸ lawful.list
  · exact inside ▸ lawful.map
  · exact solid ▸ lawful.operation
  · obtain ⟨first, leads, sign⟩ := lawful.run here
    exact ⟨first, h.leads leads, sign⟩

theorem lawful (h : G.Thins F) (lawful : F.Lawful ts) : G.Lawful ts := by
  induction h with
  | nil => trivial
  | leaf id token _ ih => exact ih lawful
  | branch id label inner _ ihInner ihRest =>
    exact ⟨inner.lawfulNode lawful.1, ihInner lawful.2.1, ihRest lawful.2.2⟩
  | drop id inner _ ih => exact ih lawful.2.2

end Thins

end

end Forest

end SmithyIdl
