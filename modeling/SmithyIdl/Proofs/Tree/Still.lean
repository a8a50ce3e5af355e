import SmithyIdl.Proofs.Tree.Extends
import SmithyIdl.Tree.Query

/-! # What readers change

A reader changes a tree in one way only: it asks for the tokens below nodes, which are kept there. So it changes
neither the tokens of the text nor the nodes. -/

namespace SmithyIdl.SyntaxTree

theorem bind_of_ok {α β : Type} {r : Reading α} {f : α → Reading β} {t t' : SyntaxTree} {a : α}
    (run : r t = .ok (a, t')) : (r >>= f) t = f a t' := by
  change (r t >>= fun (a, t') => f a t') = _
  rw [run]
  rfl

theorem bind_of_error {α β : Type} {r : Reading α} {f : α → Reading β} {t : SyntaxTree} {why : Fault}
    (run : r t = .error why) : (r >>= f) t = .error why := by
  change (r t >>= fun (a, t') => f a t') = _
  rw [run]
  rfl

/-- `t'` is `t` after the tokens below some nodes were asked for. -/
inductive Filled (t : SyntaxTree) : SyntaxTree → Prop
  | refl : Filled t t
  | keep {t' t'' : SyntaxTree} {ids : Array TokenId} {id : NodeId} (before : Filled t t')
      (run : Reading.tokenIds id t' = .ok (ids, t'')) : Filled t t''

theorem alike_tokenIds {t t' : SyntaxTree} {ids : Array TokenId} {id : NodeId}
    (run : Reading.tokenIds id t = .ok (ids, t')) : t.Alike t' := by
  unfold Reading.tokenIds at run
  split at run <;> cases run
  · exact .refl t
  · exact .withCache _ id

namespace Filled

variable {t t' t'' : SyntaxTree}

theorem trans (h : t.Filled t') (h' : t'.Filled t'') : t.Filled t'' := by
  induction h' with
  | refl => exact h
  | keep _ run ih => exact .keep ih run

theorem alike (h : t.Filled t') : t.Alike t' := by
  induction h with
  | refl => exact .refl t
  | keep _ run ih => exact ih.trans (alike_tokenIds run)

end Filled

/-- A reader does nothing to a tree but ask for tokens below nodes. -/
class Still {α : Type} (r : Reading α) : Prop where
  fills : ∀ {t a t'}, r t = .ok (a, t') → t.Filled t'

namespace Still

variable {α β : Type} {r : Reading α} {f : α → Reading β}

theorem keeps [Still r] {t t' : SyntaxTree} {a : α} (run : r t = .ok (a, t')) : t.Alike t' :=
  (fills (r := r) run).alike

instance pure (a : α) : Still (Pure.pure a : Reading α) :=
  ⟨fun h => by cases h; exact .refl⟩

instance bind [Still r] [∀ a, Still (f a)] : Still (r >>= f) where
  fills {t a t'} h := by
    cases hr : r t with
    | error why =>
      rw [bind_of_error hr] at h
      cases h
    | ok found =>
      obtain ⟨a₁, t₁⟩ := found
      rw [bind_of_ok hr] at h
      exact (fills (r := r) hr).trans (fills (r := f a₁) h)

instance map {g : α → β} [Still r] : Still (g <$> r) := inferInstanceAs (Still (r >>= fun a => Pure.pure (g a)))

/-- For a reader that goes on by cases on what it has read. -/
theorem bind_of (h : Still r) (h' : ∀ a, Still (f a)) : Still (r >>= f) := inferInstance

instance get : Still (MonadState.get : Reading SyntaxTree) :=
  ⟨fun h => by cases h; exact .refl⟩

instance mapM {f : β → Reading α} [∀ b, Still (f b)] (l : List β) : Still (l.mapM f) := by
  induction l with
  | nil =>
    rw [List.mapM_nil]
    infer_instance
  | cons b l ih =>
    rw [List.mapM_cons]
    infer_instance

instance findM? {p : α → Reading Bool} [∀ a, Still (p a)] (l : List α) : Still (l.findM? p) := by
  induction l with
  | nil =>
    rw [List.findM?]
    infer_instance
  | cons a l ih =>
    rw [List.findM?]
    exact bind_of inferInstance fun found => by cases found <;> infer_instance

instance option {f : β → Reading α} [∀ b, Still (f b)] (o : Option β) : Still (o.mapM f) := by
  cases o <;> unfold Option.mapM <;> infer_instance

instance node (id : NodeId) : Still (Reading.node id) where
  fills {t a t'} h := by
    unfold Reading.node at h
    split at h <;> cases h
    exact .refl

instance token (id : TokenId) : Still (Reading.token id) where
  fills {t a t'} h := by
    unfold Reading.token at h
    split at h <;> cases h
    exact .refl

instance tokenIds (id : NodeId) : Still (Reading.tokenIds id) := ⟨fun h => .keep .refl h⟩

/-! ### What is read of one node -/

variable (id : NodeId)

instance kind : Still (Reading.kind id) := by unfold Reading.kind; infer_instance

instance leafToken? : Still (Reading.leafToken? id) := by
  unfold Reading.leafToken?
  exact bind_of inferInstance fun _ => by split <;> infer_instance

instance problem? : Still (Reading.problem? id) := by unfold Reading.problem?; infer_instance

instance tokens : Still (Reading.tokens id) := by unfold Reading.tokens; infer_instance

instance tokenCount : Still (Reading.tokenCount id) := by unfold Reading.tokenCount; infer_instance

instance firstToken? : Still (Reading.firstToken? id) := by
  unfold Reading.firstToken?
  exact bind_of inferInstance fun _ => by split <;> infer_instance

instance lastToken? : Still (Reading.lastToken? id) := by
  unfold Reading.lastToken?
  exact bind_of inferInstance fun _ => by split <;> infer_instance

instance text : Still (Reading.text id) := by unfold Reading.text; infer_instance

instance emptyPosition : Still (Reading.emptyPosition id) := by unfold Reading.emptyPosition; infer_instance

instance start : Still (Reading.start id) := by
  unfold Reading.start
  exact bind_of inferInstance fun token => by cases token <;> infer_instance

instance stop : Still (Reading.stop id) := by
  unfold Reading.stop
  exact bind_of inferInstance fun token => by cases token <;> infer_instance

instance range : Still (Reading.range id) := by
  unfold Reading.range
  refine bind_of inferInstance fun first => bind_of inferInstance fun last => ?_
  cases first <;> cases last <;> infer_instance

instance brief : Still (Reading.brief id) := by unfold Reading.brief; infer_instance

/-! ### Relatives -/

instance parent? : Still (Reading.parent? id) := by unfold Reading.parent?; infer_instance

instance children : Still (Reading.children id) := by unfold Reading.children; infer_instance

instance ancestors : Still (Reading.ancestors id) := by unfold Reading.ancestors; infer_instance

instance descendants : Still (Reading.descendants id) := by unfold Reading.descendants; infer_instance

instance ofKind (kind : TreeKind) (ids : List NodeId) : Still (Reading.ofKind kind ids) := by
  unfold Reading.ofKind
  infer_instance

instance childrenOfKind (kind : TreeKind) : Still (Reading.childrenOfKind kind id) := by
  unfold Reading.childrenOfKind
  infer_instance

instance descendantsOfKind (kind : TreeKind) : Still (Reading.descendantsOfKind kind id) := by
  unfold Reading.descendantsOfKind
  infer_instance

instance errors : Still (Reading.errors id) := by
  unfold Reading.errors
  exact bind_of inferInstance fun below => bind_of inferInstance fun kind => by split <;> infer_instance

instance hasErrors : Still (Reading.hasErrors id) := by unfold Reading.hasErrors; infer_instance

instance contains (line column : Nat) : Still (Reading.contains line column id) := by
  unfold Reading.contains
  infer_instance

variable {id} in
instance findAtWithin (line column n : Nat) : Still (Reading.findAtWithin line column n id) := by
  induction n generalizing id with
  | zero =>
    unfold Reading.findAtWithin
    infer_instance
  | succ n ih =>
    unfold Reading.findAtWithin
    refine bind_of inferInstance fun children => bind_of inferInstance fun child => ?_
    cases child <;> infer_instance

instance findAt (line column : Nat) : Still (Reading.findAt line column id) := by
  unfold Reading.findAt
  infer_instance

/-! ### Questions -/

instance briefs (ids : List NodeId) : Still (Reading.briefs ids) := by unfold Reading.briefs; infer_instance

instance info : Still (Reading.info id) := by unfold Reading.info; infer_instance

instance errorInfo : Still (Reading.errorInfo id) := by unfold Reading.errorInfo; infer_instance

instance heading : Still (Reading.heading id) := by unfold Reading.heading; infer_instance

variable {id} in
instance dumpLines (n depth : Nat) : Still (Reading.dumpLines n depth id) := by
  induction n generalizing depth id with
  | zero =>
    unfold Reading.dumpLines
    infer_instance
  | succ n ih =>
    unfold Reading.dumpLines
    refine bind_of inferInstance fun token => ?_
    cases token with
    | some token => infer_instance
    | none => exact bind_of inferInstance fun _ => bind_of inferInstance fun children => by split <;> infer_instance

instance dump : Still (Reading.dump id) := by unfold Reading.dump; infer_instance

instance ask (q : Query) : Still (Reading.ask id q) := by
  cases q <;> unfold Reading.ask <;> infer_instance

end Still

end SmithyIdl.SyntaxTree
