import SmithyIdl.Proofs.Tree.Links
import SmithyIdl.Tree.Session

/-! # What a request does

A request is done in place, and all its rules are checked before its first edit. So it either breaks a rule and leaves
the tree as it was, or gives what the edits give that tell their faults apart from the trees they leave. -/

namespace SmithyIdl

namespace SyntaxTree

variable {t t' : SyntaxTree} {p i : NodeId}

/-! ### Steps in place -/

section
variable {α β : Type} {e : TreeEdit α} {f : α → TreeEdit β}

theorem on_bind : (e >>= f).on t = (ExceptT.bindCont f (e.on t).1).run (e.on t).2 := rfl

theorem on_bind_of_ok {a : α} (run : e.on t = (.ok a, t')) : (e >>= f).on t = (f a).on t' := by
  rw [on_bind, run]
  rfl

theorem on_bind_of_error {why : Fault} (run : e.on t = (.error why, t')) : (e >>= f).on t = (.error why, t') := by
  rw [on_bind, run]
  rfl

end

/-- What a step leaves that either breaks a rule, and then writes nothing, or gives a value and another tree. -/
def leaving {α : Type} (t : SyntaxTree) : Except Fault (α × SyntaxTree) → Except Fault α × SyntaxTree
  | .ok (a, u) => (.ok a, u)
  | .error why => (.error why, t)

theorem on_map {α β : Type} {e : TreeEdit α} {o : Except Fault (α × SyntaxTree)} (run : e.on t = t.leaving o)
    (f : α → β) : (do return f (← e)).on t = t.leaving (o.map (Prod.map f id)) := by
  cases o with
  | error why => exact on_bind_of_error run
  | ok given => exact on_bind_of_ok run

/-- All rules are checked before anything is written. -/
theorem append_on (t : SyntaxTree) (p c : NodeId) :
    (TreeEdit.append p c).on t = t.leaving ((t.append p c).map ((), ·)) := by
  unfold TreeEdit.append SyntaxTree.append
  refine (on_bind_of_ok (e := get) rfl).trans ?_
  cases t.refusal? p c <;> rfl

theorem node_on (t : SyntaxTree) (i : NodeId) :
    (TreeEdit.node i).on t = (t.nodes[i]?.elim (.error (.outOfBounds t.size i)) .ok, t) := by
  unfold TreeEdit.node
  refine (on_bind_of_ok (e := get) rfl).trans ?_
  cases t.nodes[i]? <;> rfl

theorem remove_on (t : SyntaxTree) (p c : NodeId) : (TreeEdit.remove p c).on t = t.leaving (t.remove p c) := by
  have named := node_on t p
  unfold TreeEdit.remove SyntaxTree.remove
  cases found : t.nodes[p]? with
  | none =>
    rw [found] at named
    exact on_bind_of_error named
  | some n =>
    rw [found] at named
    refine (on_bind_of_ok named).trans ?_
    dsimp only [Option.map_some]
    cases n.children.contains c <;> rfl

/-! ### New nodes with tokens -/

theorem tag?_branch {label : Label} (tag : t.tag? i = some (.inr label)) : t.nodes[i]?.map Node.isLeaf = some false := by
  obtain ⟨⟨content, parent, kept⟩, found, same⟩ := Option.map_eq_some_iff.mp tag
  cases content with
  | leaf => cases same
  | branch => rw [found]; rfl

/-- An inner node without a parent takes every leaf. -/
theorem appendLeaves_ok (label : Label) (tag : t.tag? p = some (.inr label)) (free : t.parent? p = none)
    (tokens : List TokenId) : ∃ t', tokens.foldlM (fun t token => SyntaxTree.appendLeaf t p token) t = .ok t' := by
  induction tokens generalizing t with
  | nil => exact ⟨t, rfl⟩
  | cons token tokens ih =>
    have made : p < t.size := lt_size_of_tag? tag
    have free' : (t.addLeaf token).2.parent? p = none := by
      rw [parent?, show (t.addLeaf token).2.nodes[p]? = t.nodes[p]? from add_getElem?_of_lt _ made]
      exact free
    have taken : t.appendLeaf p token = .ok ((t.addLeaf token).2.link p t.size) := by
      refine append_eq_ok.mpr ⟨tag?_branch ((Extends.add _).tag?_eq tag), ?_, ?_, rfl⟩
      · exact congrArg (Option.map Node.parent) (add_getElem?_size (.leaf token))
      · change ¬(p = t.size ∨ t.size ∈ (t.addLeaf token).2.ancestors p)
        rw [ancestors_of_none free']
        simpa using Nat.ne_of_lt made
    rw [List.foldlM_cons, taken]
    refine ih ((Extends.link p t.size).tag?_eq ((Extends.add _).tag?_eq tag)) ?_
    rw [parent?_link (by rw [addLeaf, size_add]; exact Nat.lt_succ_self _), if_neg (Nat.ne_of_gt made)]
    exact free'

/-- A new node takes all leaves. -/
theorem newLeaves_ok (t : SyntaxTree) (kind : TreeKind) (tokens : List TokenId) :
    ∃ t', tokens.foldlM (fun u token => SyntaxTree.appendLeaf u t.size token) (t.addNode kind).2 = .ok t' := by
  have new : (t.addNode kind).2.nodes[t.size]? = some { content := .branch (.plain kind) #[] } := add_getElem?_size _
  refine appendLeaves_ok (.plain kind) ?_ ?_ tokens
  · rw [tag?, new]
    rfl
  · rw [parent?, new]
    rfl

theorem appendLeaves_on {tokens : List TokenId}
    (run : tokens.foldlM (fun t token => SyntaxTree.appendLeaf t p token) t = .ok t') :
    (tokens.forM fun token => do TreeEdit.append p (← TreeEdit.create (.leaf token))).on t = (.ok (), t') := by
  induction tokens generalizing t with
  | nil =>
    cases run
    rfl
  | cons token tokens ih =>
    rw [List.foldlM_cons] at run
    cases first : t.appendLeaf p token with
    | error why =>
      rw [first] at run
      cases run
    | ok t₁ =>
      rw [first] at run
      have edit := append_on (t.addLeaf token).2 p t.size
      rw [show (t.addLeaf token).2.append p t.size = .ok t₁ from first] at edit
      exact (on_bind_of_ok ((on_bind_of_ok rfl).trans edit)).trans (ih run)

end SyntaxTree

/-! ### Requests -/

namespace TreeRequest

open SyntaxTree

variable {t : SyntaxTree}

/-- What a request gives with the tree that it leaves, or the rule that it breaks. -/
def outcome (t : SyntaxTree) : TreeRequest → Except Fault (TreeReply × SyntaxTree)
  | leaf token => .ok (.made t.size, (t.addLeaf token).2)
  | node kind => .ok (.made t.size, (t.addNode kind).2)
  | nodeWithTokens kind tokens =>
    (tokens.foldlM (fun u token => SyntaxTree.appendLeaf u t.size token) (t.addNode kind).2).map (.made t.size, ·)
  | error mark => .ok (.made t.size, (t.addError mark).2)
  | append parent child => (t.append parent child).map (.done, ·)
  | remove parent child => (t.remove parent child).map (Prod.map .flag id)
  | ask id query => (.answer <$> Reading.ask id query).run t
  | parentOf id => (.parent <$> Reading.parent? id).run t
  | same id other => .ok (.flag (id = other), t)
  | dump => (.answer <$> Reading.ask SyntaxTree.root .dump).run t

theorem reading_on {α : Type} (r : Reading α) (f : α → TreeReply) :
    (do return f (← TreeEdit.reading r) : TreeEdit TreeReply).on t = t.leaving ((f <$> r).run t) := by
  have done : (TreeEdit.reading r).on t = t.leaving (r t) := rfl
  refine (on_map done f).trans ?_
  rw [StateT.run_map, StateT.run]
  cases r t <;> rfl

/-- A request that breaks a rule leaves the tree as it was. -/
theorem run_on (t : SyntaxTree) (r : TreeRequest) : r.run.on t = t.leaving (r.outcome t) := by
  cases r with
  | leaf token => rfl
  | node kind => rfl
  | error mark => rfl
  | same id other => rfl
  | nodeWithTokens kind tokens =>
    obtain ⟨t', filled⟩ := newLeaves_ok t kind tokens
    have made : (TreeEdit.createWithTokens kind tokens).on t = (.ok t.size, t') :=
      (on_bind_of_ok rfl).trans (on_bind_of_ok (appendLeaves_on filled))
    rw [outcome, filled]
    exact on_bind_of_ok made
  | append parent child =>
    refine (on_map (append_on t parent child) fun _ => TreeReply.done).trans ?_
    rw [outcome]
    cases t.append parent child <;> rfl
  | remove parent child => exact on_map (remove_on t parent child) TreeReply.flag
  | ask id query => exact reading_on _ _
  | parentOf id => exact reading_on _ _
  | dump => exact reading_on _ _

/-- The reply or the fault, and the tree that is left. -/
theorem answer_eq (t : SyntaxTree) (r : TreeRequest) : r.answer t =
    match r.outcome t with
    | .ok reply => reply
    | .error why => (.fault why, t) := by
  rw [answer, run_on]
  cases r.outcome t <;> rfl

end TreeRequest

end SmithyIdl
