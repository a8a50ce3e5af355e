import SmithyIdl.Proofs.Tree.Edit

/-! # What edits keep

Nodes are moved, but never lost or changed into others: an edit keeps the token of every leaf and the label of
every inner node, and may add new ones. -/

namespace SmithyIdl

/-- The token of a leaf, or what an inner node is: all of a node but its place in the tree. -/
def Node.tag (n : Node) : TokenId ⊕ Label :=
  match n.content with
  | .leaf token => .inl token
  | .branch label _ => .inr label

namespace SyntaxTree

/-- The tag of a node. -/
def tag? (t : SyntaxTree) (id : NodeId) : Option (TokenId ⊕ Label) := t.nodes[id]?.map Node.tag

/-- `t'` has the nodes of `t`, in whatever places, and maybe more. -/
structure Extends (t t' : SyntaxTree) : Prop where
  tokens : t'.tokens = t.tokens
  size : t.size ≤ t'.size
  tags : ∀ i < t.size, t'.tag? i = t.tag? i

/-- `t'` is `t` but for the tokens that are kept at the nodes. -/
structure Alike (t t' : SyntaxTree) : Prop where
  tokens : t'.tokens = t.tokens
  nodes : ∀ i : NodeId, t'.nodes[i]?.map (Node.withCache none) = t.nodes[i]?.map (Node.withCache none)

variable {t t' t'' : SyntaxTree} {p d : NodeId}

theorem lt_size_of_tag? {i : NodeId} {tag : TokenId ⊕ Label} (h : t.tag? i = some tag) : i < t.size := by
  obtain ⟨node, found, -⟩ := Option.map_eq_some_iff.mp h
  exact (Array.getElem?_eq_some_iff.mp found).1

/-- At first there is only the root. -/
theorem tag?_new {kind : TreeKind} {tokens : Array Token} {i : NodeId} {tag : TokenId ⊕ Label}
    (found : (new kind tokens).tag? i = some tag) : i = root ∧ tag = .inr (.plain kind) := by
  obtain rfl : i = root := Nat.lt_one_iff.mp (lt_size_of_tag? found)
  exact ⟨rfl, (Option.some.inj found).symm⟩

theorem tag?_of_token? {i : NodeId} {node : Node} {token : TokenId} (found : t.nodes[i]? = some node)
    (leaf : node.token? = some token) : t.tag? i = some (.inl token) := by
  obtain ⟨content, parent, kept⟩ := node
  cases content with
  | leaf =>
    cases leaf
    rw [tag?, found]
    rfl
  | branch => cases leaf

theorem kind?_of_tag? {i : NodeId} {label : Label} (h : t.tag? i = some (.inr label)) : t.kind? i = some label.kind := by
  obtain ⟨⟨content, parent, kept⟩, found, tag⟩ := Option.map_eq_some_iff.mp h
  cases content with
  | leaf => cases tag
  | branch =>
    cases tag
    rw [kind?, found]
    rfl

theorem kind?_eq_tag? (i : NodeId) : t.kind? i = (t.tag? i).map (Sum.elim (fun _ => .token) Label.kind) := by
  rw [kind?, tag?, Option.map_map]
  refine congrArg (Option.map · _) (funext fun n => ?_)
  obtain ⟨content, parent, kept⟩ := n
  cases content <;> rfl

theorem token?_eq_tag? (i : NodeId) : t.nodes[i]?.bind Node.token? = (t.tag? i).bind (Sum.elim some fun _ => none) := by
  rw [tag?, Option.bind_map]
  refine congrArg (Option.bind _) (funext fun n => ?_)
  obtain ⟨content, parent, kept⟩ := n
  cases content <;> rfl

theorem token?_eq_some_iff {i : NodeId} {token : TokenId} :
    t.nodes[i]?.bind Node.token? = some token ↔ t.tag? i = some (.inl token) := by
  rw [token?_eq_tag?]
  rcases t.tag? i with _ | token' | label <;> simp

namespace Alike

theorem refl (t : SyntaxTree) : t.Alike t := ⟨rfl, fun _ => rfl⟩

theorem trans (h : t.Alike t') (h' : t'.Alike t'') : t.Alike t'' :=
  ⟨h'.tokens.trans h.tokens, fun i => (h'.nodes i).trans (h.nodes i)⟩

theorem withCache (kept : Option (Array TokenId)) (i : NodeId) : t.Alike (t.modify i (Node.withCache kept)) := by
  refine ⟨rfl, fun j => ?_⟩
  rw [modify_getElem?]
  split
  · rw [Option.map_map]
    rfl
  · rfl

theorem forget (i : NodeId) : t.Alike (t.forget i) := by
  rw [SyntaxTree.forget]
  induction i :: t.ancestors i generalizing t with
  | nil => exact refl t
  | cons j l ih => exact (withCache none j).trans ih

theorem map_eq (h : t.Alike t') {β : Type} {g : Node → β} (blind : ∀ n, g (n.withCache none) = g n) (i : NodeId) :
    t'.nodes[i]?.map g = t.nodes[i]?.map g := by
  have same := congrArg (Option.map g) (h.nodes i)
  rw [Option.map_map, Option.map_map] at same
  rwa [show g ∘ Node.withCache none = g from funext blind] at same

theorem tag?_eq (h : t.Alike t') (i : NodeId) : t'.tag? i = t.tag? i := h.map_eq (fun _ => rfl) i

theorem parent?_eq (h : t.Alike t') (i : NodeId) : t'.parent? i = t.parent? i := by
  have same := h.map_eq (g := Node.parent) (fun _ => rfl) i
  rw [parent?, parent?]
  cases ht : t.nodes[i]? <;> cases ht' : t'.nodes[i]? <;> simp_all

theorem to_extends (h : t.Alike t') : t.Extends t' := by
  refine ⟨h.tokens, Nat.le_of_not_lt fun lt => ?_, fun i _ => h.tag?_eq i⟩
  have gone : t'.nodes[t'.size]? = none := Array.getElem?_eq_none (Nat.le_refl _)
  have same := h.nodes t'.size
  rw [gone] at same
  have found := Option.map_eq_none_iff.mp same.symm
  exact absurd (Array.getElem?_eq_none_iff.mp found) (Nat.not_le_of_lt lt)

theorem symm (h : t.Alike t') : t'.Alike t := ⟨h.tokens.symm, fun i => (h.nodes i).symm⟩

theorem size_eq (h : t.Alike t') : t'.size = t.size := Nat.le_antisymm h.symm.to_extends.size h.to_extends.size

end Alike

namespace Extends

theorem refl (t : SyntaxTree) : t.Extends t := ⟨rfl, Nat.le_refl _, fun _ _ => rfl⟩

theorem trans (h : t.Extends t') (h' : t'.Extends t'') : t.Extends t'' :=
  ⟨h'.tokens.trans h.tokens, Nat.le_trans h.size h'.size, fun i hi =>
    (h'.tags i (Nat.lt_of_lt_of_le hi h.size)).trans (h.tags i hi)⟩

theorem tag?_eq (h : t.Extends t') {i : NodeId} {tag : TokenId ⊕ Label} (found : t.tag? i = some tag) :
    t'.tag? i = some tag :=
  (h.tags i (lt_size_of_tag? found)).trans found

theorem modify {g : Node → Node} (keep : ∀ n, (g n).tag = n.tag) (i : NodeId) : t.Extends (t.modify i g) := by
  refine ⟨rfl, Nat.le_of_eq (modify_size i g).symm, fun j _ => ?_⟩
  rw [tag?, tag?, modify_getElem?]
  split
  · rw [Option.map_map]
    exact congrArg (Option.map · _) (funext keep)
  · rfl

theorem mapChildren (g : Array NodeId → Array NodeId) (i : NodeId) : t.Extends (t.modify i (Node.mapChildren g)) :=
  modify (fun n => by obtain ⟨_ | _, _, _⟩ := n <;> rfl) i

theorem withParent (parent : Option NodeId) (i : NodeId) : t.Extends (t.modify i (Node.withParent parent)) :=
  modify (g := Node.withParent parent) (fun _ => rfl) i

theorem add (content : NodeContent) : t.Extends (t.add content).2 := by
  refine ⟨rfl, by rw [size_add]; exact Nat.le_succ _, fun i hi => ?_⟩
  rw [tag?, tag?, add_getElem?_of_lt content hi]

theorem link (p d : NodeId) : t.Extends (t.link p d) :=
  ((withParent _ d).trans (mapChildren _ p)).trans (Alike.forget p).to_extends

theorem unlink (p d : NodeId) : t.Extends (t.unlink p d) :=
  ((mapChildren _ p).trans (withParent _ d)).trans (Alike.forget p).to_extends

theorem append (h : t.append p d = .ok t') : t.Extends t' := by
  obtain ⟨-, -, -, rfl⟩ := append_eq_ok.mp h
  exact link p d

theorem appendLeaf {token : TokenId} (h : t.appendLeaf p token = .ok t') : t.Extends t' :=
  (add _).trans (append h)

theorem remove {found : Bool} (h : t.remove p d = .ok (found, t')) : t.Extends t' := by
  rcases remove_eq_ok.mp h with ⟨-, -, rfl⟩ | ⟨-, -, rfl⟩
  · exact refl _
  · exact unlink p d

/-! ### Marks -/

theorem tag?_of_size (h : t.Extends t') (size : t'.size = t.size) (i : NodeId) : t'.tag? i = t.tag? i := by
  rcases Nat.lt_or_ge i t.size with made | out
  · exact h.tags i made
  · rw [tag?, tag?, Array.getElem?_eq_none out, Array.getElem?_eq_none (Nat.le_trans (Nat.le_of_eq size) out)]

end Extends

/-- Whether a node is there to report an error. -/
def isMarked (t : SyntaxTree) (id : NodeId) : Bool :=
  match t.tag? id with
  | some (.inr (.error _)) => true
  | _ => false

/-- How many nodes report an error. -/
def marks (t : SyntaxTree) : Nat := (List.range t.size).countP t.isMarked

theorem isMarked_iff {i : NodeId} : t.isMarked i = true ↔ ∃ mark, t.tag? i = some (.inr (.error mark)) := by
  rw [isMarked]
  split
  · next mark found => simp [found]
  · next other => exact ⟨nofun, fun ⟨mark, found⟩ => absurd found (other mark)⟩

theorem isMarked_congr {i : NodeId} (same : t'.tag? i = t.tag? i) : t'.isMarked i = t.isMarked i := by
  rw [isMarked, isMarked, same]

namespace Extends

theorem marks_of_size (h : t.Extends t') (size : t'.size = t.size) : t'.marks = t.marks := by
  rw [marks, marks, size]
  exact List.countP_congr fun i _ => by rw [isMarked_congr (h.tag?_of_size size i)]

theorem countP_marks (h : t.Extends t') : (List.range t.size).countP t'.isMarked = t.marks :=
  List.countP_congr fun i hi => by rw [isMarked_congr (h.tags i (List.mem_range.mp hi))]

/-- Where more nodes report an error, one of the new nodes does. -/
theorem exists_mark (h : t.Extends t') (more : t.marks < t'.marks) :
    ∃ i mark, t.size ≤ i ∧ t'.tag? i = some (.inr (.error mark)) := by
  have split : List.range t'.size = List.range t.size ++ (List.range (t'.size - t.size)).map (t.size + ·) := by
    rw [← List.range_add, Nat.add_sub_cancel' h.size]
  have counted : t'.marks = t.marks + ((List.range (t'.size - t.size)).map (t.size + ·)).countP t'.isMarked := by
    rw [marks, split, List.countP_append, h.countP_marks]
  rw [counted] at more
  obtain ⟨i, among, marked⟩ := List.countP_pos_iff.mp (Nat.pos_of_lt_add_right more)
  obtain ⟨k, -, rfl⟩ := List.mem_map.mp among
  obtain ⟨mark, found⟩ := isMarked_iff.mp marked
  exact ⟨_, mark, Nat.le_add_right .., found⟩

end Extends

theorem marks_add (content : NodeContent) :
    (t.add content).2.marks = t.marks + if (t.add content).2.isMarked t.size then 1 else 0 := by
  rw [marks, size_add, List.range_succ, List.countP_append, (Extends.add content).countP_marks, List.countP_singleton]

theorem marks_addLeaf (token : TokenId) : (t.addLeaf token).2.marks = t.marks := by
  refine (marks_add (.leaf token)).trans ?_
  rw [isMarked, tag?, add_getElem?_size]
  rfl

theorem marks_addNode (kind : TreeKind) : (t.addNode kind).2.marks = t.marks := by
  refine (marks_add (.branch (.plain kind) #[])).trans ?_
  rw [isMarked, tag?, add_getElem?_size]
  rfl

theorem marks_addError (mark : Mark) : (t.addError mark).2.marks = t.marks + 1 := by
  refine (marks_add (.branch (.error mark) #[])).trans ?_
  rw [isMarked, tag?, add_getElem?_size]
  rfl

theorem size_append (h : t.append p d = .ok t') : t'.size = t.size := by
  obtain ⟨-, -, -, rfl⟩ := append_eq_ok.mp h
  exact link_size p

theorem size_remove {found : Bool} (h : t.remove p d = .ok (found, t')) : t'.size = t.size := by
  rcases remove_eq_ok.mp h with ⟨-, -, rfl⟩ | ⟨-, -, rfl⟩
  · rfl
  · exact unlink_size p

end SyntaxTree

end SmithyIdl
