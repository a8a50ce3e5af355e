import SmithyIdl.Proofs.Tree.Request
import SmithyIdl.Proofs.Tree.Uncached

/-! # Sessions with a tree

Whatever is asked of a tree, and in whatever order, its nodes stand as a forest afterwards. So the links stay those of
a forest, every search along them ends, and no reading depends on what was kept before. -/

namespace SmithyIdl

/-- A step of a session: a request, which may be refused, or some reading. A reading that meets a fault has still kept
    what its parts before had kept; such a part is a reading of its own. -/
inductive TreeStep where
  | request (r : TreeRequest)
  | read {α : Type} (r : Reading α) (still : SyntaxTree.Still r)

namespace TreeStep

/-- The tree that a reading leaves. -/
def leaves {α : Type} (t : SyntaxTree) (r : Reading α) : SyntaxTree :=
  match r t with
  | .ok (_, t) => t
  | .error _ => t

/-- The tree after a step. -/
def next (t : SyntaxTree) : TreeStep → SyntaxTree
  | request r => (r.answer t).2
  | read r _ => leaves t r

/-- The tree after some steps. -/
def after (t : SyntaxTree) (steps : List TreeStep) : SyntaxTree := steps.foldl next t

end TreeStep

namespace SyntaxTree

open Forest

variable {t t' : SyntaxTree} {F : Forest} {p c i : NodeId}

/-! ### Every step -/

theorem filled_leaves {α : Type} (r : Reading α) (still : Still r) : t.Filled (TreeStep.leaves t r) := by
  unfold TreeStep.leaves
  split
  · next run => exact still.fills run
  · exact .refl

theorem Stands.appendLeaves (h : t.Stands F) {tokens : List TokenId}
    (run : tokens.foldlM (fun t token => SyntaxTree.appendLeaf t p token) t = .ok t') : ∃ F', t'.Stands F' := by
  induction tokens generalizing t F with
  | nil =>
    cases run
    exact ⟨F, h⟩
  | cons token tokens ih =>
    rw [List.foldlM_cons] at run
    cases first : t.appendLeaf p token with
    | error why =>
      rw [first] at run
      cases run
    | ok t₁ =>
      rw [first] at run
      obtain ⟨F₁, h₁⟩ := (h.addLeaf token).append first
      exact ih h₁ run

theorem exists_of_map {ε α β : Type} {x : Except ε α} {g : α → β} {b : β} (h : x.map g = .ok b) :
    ∃ a, x = .ok a ∧ g a = b := by
  cases x with
  | error why => cases h
  | ok a => exact ⟨a, rfl, by simpa [Except.map] using h⟩

/-- What a request leaves where no rule is broken. -/
theorem Stands.run (h : t.Stands F) {r : TreeRequest} {reply : TreeReply} (run : r.outcome t = .ok (reply, t')) :
    ∃ F', t'.Stands F' := by
  cases r with
  | leaf token =>
    cases run
    exact ⟨_, h.addLeaf token⟩
  | node kind =>
    cases run
    exact ⟨_, h.addBranch (.plain kind)⟩
  | error mark =>
    cases run
    exact ⟨_, h.addBranch (.error mark)⟩
  | nodeWithTokens kind tokens =>
    obtain ⟨t₁, filled, rest⟩ := exists_of_map run
    cases rest
    exact (h.addBranch (.plain kind)).appendLeaves filled
  | append parent child =>
    obtain ⟨t₁, moved, rest⟩ := exists_of_map run
    cases rest
    exact h.append moved
  | remove parent child =>
    obtain ⟨found, moved, rest⟩ := exists_of_map run
    cases rest
    exact h.remove moved
  | ask node query => exact ⟨F, h.filled (Still.fills (r := TreeReply.answer <$> Reading.ask node query) run)⟩
  | parentOf node => exact ⟨F, h.filled (Still.fills (r := TreeReply.parent <$> Reading.parent? node) run)⟩
  | same node other =>
    cases run
    exact ⟨F, h⟩
  | dump => exact ⟨F, h.filled (Still.fills (r := TreeReply.answer <$> Reading.ask root .dump) run)⟩

theorem Stands.next (h : t.Stands F) (step : TreeStep) : ∃ F', (step.next t).Stands F' := by
  cases step with
  | request r =>
    rw [TreeStep.next, TreeRequest.answer_eq]
    split
    · next run => exact h.run run
    · exact ⟨F, h⟩
  | read r still => exact ⟨F, h.filled (filled_leaves r still)⟩

/-- The run of a session: whatever its steps are, the tree stands. -/
theorem stands_after (h : t.Stands F) (steps : List TreeStep) : ∃ F', (TreeStep.after t steps).Stands F' := by
  induction steps generalizing t F with
  | nil => exact ⟨F, h⟩
  | cons step steps ih =>
    obtain ⟨F', stands⟩ := h.next step
    exact ih stands

/-! ### Looking up a position -/

theorem mem_of_findM? {α : Type} {q : α → Reading Bool} {l : List α} {a : α}
    (run : l.findM? q t = .ok (some a, t')) : a ∈ l := by
  induction l generalizing t with
  | nil => cases run
  | cons b l ih =>
    rw [List.findM?] at run
    cases asked : q b t with
    | error why =>
      rw [bind_of_error asked] at run
      cases run
    | ok answer =>
      obtain ⟨found, t₁⟩ := answer
      rw [bind_of_ok asked] at run
      cases found with
      | true =>
        cases run
        exact List.mem_cons_self
      | false => exact List.mem_cons_of_mem _ (ih run)

theorem children_run (made : i < t.size) : Reading.children i t = .ok (t.childrenOf i, t) := by
  have found : t.nodes[i]? = some t.nodes[i] := Array.getElem?_eq_getElem made
  rw [Reading.children, bind_of_ok (node_run found), childrenOf, found]
  rfl

/-- Every step down adds to the nodes above, so the search for a position needs no more steps than there are nodes. -/
theorem Stands.findAtWithin_eq (h : t.Stands F) (made : i < t.size) {n m : Nat} (line column : Nat)
    (hn : t.size ≤ (t.ancestors i).length + n) (hm : t.size ≤ (t.ancestors i).length + m) :
    Reading.findAtWithin line column n i t = Reading.findAtWithin line column m i t := by
  have bound := h.length_ancestors made
  induction n generalizing t F i m with
  | zero => omega
  | succ n ih =>
    obtain ⟨m, rfl⟩ := Nat.exists_eq_add_of_le' (show 1 ≤ m by omega)
    rw [Reading.findAtWithin, Reading.findAtWithin, bind_of_ok (children_run made), bind_of_ok (children_run made)]
    cases search : (t.childrenOf i).findM? (Reading.contains line column) t with
    | error why => rw [bind_of_error search, bind_of_error search]
    | ok found =>
      obtain ⟨child, t₁⟩ := found
      rw [bind_of_ok search, bind_of_ok search]
      cases child with
      | none => rfl
      | some c =>
        have fills := Still.fills (r := (t.childrenOf i).findM? (Reading.contains line column)) search
        have stands := h.filled fills
        have same := fills.alike
        have up := h.mem_childrenOf.mp (mem_of_findM? search)
        have made' : c < t₁.size := same.size_eq ▸ (h.lt_of_parent? up).1
        have deeper : (t₁.ancestors c).length = (t.ancestors i).length + 1 := by
          rw [same.ancestors_eq, h.ancestors_of_some up, List.length_cons]
        have size := same.size_eq
        exact ih stands made' (by omega) (by omega) (stands.length_ancestors made')

/-! ### The forest of a session -/

/-- The node that a number of links up leads to, if there are so many. -/
def up (t : SyntaxTree) : Nat → NodeId → Option NodeId
  | 0, i => some i
  | n + 1, i => (t.parent? i).bind (t.up n)

theorem Stands.up_eq_none (h : t.Stands F) {n : Nat} (hn : (t.ancestors i).length < n) : t.up n i = none := by
  induction n generalizing i with
  | zero => cases hn
  | succ n ih =>
    rw [up]
    cases above : t.parent? i with
    | none => rfl
    | some p =>
      rw [h.ancestors_of_some above, List.length_cons] at hn
      exact ih (Nat.lt_of_succ_lt_succ hn)

/-- Parents and children are linked as in a forest. -/
structure IsForest (t : SyntaxTree) : Prop where
  /-- A node stands once among the children of its parent, and among those of no other node. -/
  children : ∀ p c, (t.childrenOf p).count c = if t.parent? c = some p then 1 else 0
  leaf : ∀ p, t.nodes[p]?.map Node.isLeaf = some true → t.childrenOf p = [] ∧ ∀ c, t.parent? c ≠ some p
  ends : ∀ i < t.size, t.up t.size i = none

/-- Searches along the links need no bound: they meet the equations without one, and more steps find nothing more. -/
structure SearchesEnd (t : SyntaxTree) : Prop where
  climb : ∀ i n, t.size ≤ n → t.climb n i = t.ancestors i
  ancestors : ∀ i, t.ancestors i =
    match t.parent? i with
    | none => []
    | some p => p :: t.ancestors p
  forget : ∀ i, t.forget i =
    match t.parent? i with
    | none => t.modify i (Node.withCache none)
    | some p => (t.modify i (Node.withCache none)).forget p
  gather : ∀ i n seen, t.size ≤ n → t.gather n seen i = t.gather t.size seen i
  findAt : ∀ i < t.size, ∀ n line column, t.size ≤ n →
    Reading.findAtWithin line column n i t = Reading.findAt line column i t

/-- The rules that an `append` may break. -/
def Refuses (t : SyntaxTree) (p c : NodeId) : Prop :=
  t.size ≤ p ∨ t.size ≤ c ∨ t.nodes[p]?.map Node.isLeaf = some true ∨ (∃ q, t.parent? c = some q) ∨ c = p ∨
    c ∈ t.ancestors p

theorem Stands.isForest (h : t.Stands F) : t.IsForest where
  children := h.count_childrenOf
  leaf p leaf := by
    have none (c : NodeId) : t.parent? c ≠ some p := fun above => by
      have inner := h.isLeaf_of_parent? above
      rw [leaf] at inner
      cases inner
    exact ⟨List.eq_nil_iff_forall_not_mem.mpr fun c among => none c (h.mem_childrenOf.mp among), none⟩
  ends _ made := h.up_eq_none (h.length_ancestors made)

theorem Stands.searchesEnd (h : t.Stands F) : t.SearchesEnd where
  climb i _ hn := h.climb_eq hn i
  ancestors i := by
    cases above : t.parent? i with
    | none => exact ancestors_of_none above
    | some p => exact h.ancestors_of_some above
  forget i := by
    cases above : t.parent? i with
    | none => exact forget_of_none above
    | some p => exact h.forget_of_some above
  gather i _ seen hn := h.gather_eq hn seen i
  findAt i made n line column hn :=
    h.findAtWithin_eq made line column (Nat.le_trans hn (Nat.le_add_left ..)) (Nat.le_add_left ..)

theorem not_refuses_of_append (run : t.append p c = .ok t') : ¬t.Refuses p c := by
  obtain ⟨inner, free, apart, -⟩ := append_eq_ok.mp run
  obtain ⟨n, foundP, leaf⟩ := Option.map_eq_some_iff.mp inner
  obtain ⟨m, foundC, alone⟩ := Option.map_eq_some_iff.mp free
  rintro (out | out | leaf' | ⟨q, above⟩ | same | below)
  · exact absurd (Array.getElem?_eq_some_iff.mp foundP).1 (Nat.not_lt_of_le out)
  · exact absurd (Array.getElem?_eq_some_iff.mp foundC).1 (Nat.not_lt_of_le out)
  · rw [inner] at leaf'
    cases leaf'
  · rw [parent?, foundC, Option.bind_some, alone] at above
    cases above
  · exact apart (.inl same.symm)
  · exact apart (.inr below)

theorem append_of_not_refuses (allowed : ¬t.Refuses p c) : t.append p c = .ok (t.link p c) := by
  simp only [Refuses, not_or] at allowed
  obtain ⟨madeP, madeC, leaf, free, apart, below⟩ := allowed
  obtain ⟨n, foundP⟩ : ∃ n, t.nodes[p]? = some n := ⟨_, Array.getElem?_eq_getElem (Nat.lt_of_not_le madeP)⟩
  obtain ⟨m, foundC⟩ : ∃ m, t.nodes[c]? = some m := ⟨_, Array.getElem?_eq_getElem (Nat.lt_of_not_le madeC)⟩
  refine append_eq_ok.mpr ⟨?_, ?_, ?_, rfl⟩
  · rw [foundP] at leaf ⊢
    simpa using leaf
  · rw [parent?, foundC] at free
    rw [foundC]
    simpa [Option.eq_none_iff_forall_ne_some] using free
  · rintro (same | above)
    · exact apart same.symm
    · exact below above

/-- An `append` breaks a rule, and nothing changes, or it links the nodes. -/
theorem answer_append (t : SyntaxTree) (p c : NodeId) :
    (t.Refuses p c → ∃ why, TreeRequest.answer t (.append p c) = (.fault why, t)) ∧
      (¬t.Refuses p c → TreeRequest.answer t (.append p c) = (.done, t.link p c)) := by
  rw [TreeRequest.answer_eq, TreeRequest.outcome]
  constructor
  · intro refuses
    cases run : t.append p c with
    | error why => exact ⟨why, rfl⟩
    | ok t' => exact absurd refuses (not_refuses_of_append run)
  · intro allowed
    rw [append_of_not_refuses allowed]
    rfl

/-- After every session the nodes make a forest, all searches end, and an `append` that breaks a rule changes
    nothing. -/
theorem session_keeps_forest (kind : TreeKind) (tokens : Array Token) (steps : List TreeStep) :
    let t := TreeStep.after (.new kind tokens) steps
    t.IsForest ∧ t.SearchesEnd ∧ ∀ p c,
      (t.Refuses p c → ∃ why, TreeRequest.answer t (.append p c) = (.fault why, t)) ∧
        (¬t.Refuses p c → TreeRequest.answer t (.append p c) = (.done, t.link p c)) := by
  obtain ⟨F, stands⟩ := stands_after (stands_new kind tokens) steps
  exact ⟨stands.isForest, stands.searchesEnd, answer_append _⟩

/-! ### What a session reads -/

/-- All readings are those of readers that keep nothing, on the links as they are. -/
structure ReadsLinks (t : SyntaxTree) : Prop where
  tokens : ∀ i, (Reading.tokens i).run' t = Uncached.tokens i t
  text : ∀ i, (Reading.text i).run' t = Uncached.text i t
  range : ∀ i, (Reading.range i).run' t = Uncached.range i t
  start : ∀ i, (Reading.start i).run' t = Uncached.start i t
  stop : ∀ i, (Reading.stop i).run' t = Uncached.stop i t
  descendantsOfKind : ∀ kind i, (Reading.descendantsOfKind kind i).run' t = Uncached.descendantsOfKind kind i t
  errors : ∀ i, (Reading.errors i).run' t = Uncached.errors i t
  hasErrors : ∀ i, (Reading.hasErrors i).run' t = Uncached.hasErrors i t
  leaf : ∀ i token, t.nodes[i]?.map Node.content = some (.leaf token) → t.leaves i = [token]
  /-- From left to right. -/
  branch : ∀ i label children, t.nodes[i]?.map Node.content = some (.branch label children) →
    t.leaves i = children.toList.flatMap t.leaves
  /-- Each child before what is below it. -/
  preorder : ∀ i, t.descendants i = (t.childrenOf i).flatMap fun child => child :: t.descendants child
  once : ∀ i, (i :: t.descendants i).Nodup
  below : ∀ i j, j ∈ t.descendants i ↔ i ∈ t.ancestors j

/-- After every session a reading gives what the links alone say, whatever was kept at the nodes on the way. -/
theorem session_reads_links (kind : TreeKind) (tokens : Array Token) (steps : List TreeStep) :
    (TreeStep.after (.new kind tokens) steps).ReadsLinks := by
  obtain ⟨F, stands⟩ := stands_after (stands_new kind tokens) steps
  exact {
    tokens := fun i => (Agrees.tokens i).reads stands
    text := fun i => (Agrees.text i).reads stands
    range := fun i => (Agrees.range i).reads stands
    start := fun i => (Agrees.start i).reads stands
    stop := fun i => (Agrees.stop i).reads stands
    descendantsOfKind := fun kind i => (Agrees.descendantsOfKind kind i).reads stands
    errors := fun i => (Agrees.errors i).reads stands
    hasErrors := fun i => (Agrees.hasErrors i).reads stands
    leaf := fun _ _ => stands.leaves_of_leaf
    branch := fun _ _ _ => stands.leaves_of_branch
    preorder := stands.descendants_eq
    once := stands.nodup_descendants
    below := fun _ _ => stands.mem_descendants }

end SyntaxTree

end SmithyIdl
