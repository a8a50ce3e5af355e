import Mathlib.Data.List.Forall2
import SmithyIdl.Proofs.Token.Likeness
import SmithyIdl.Proofs.Tree.Edited

/-! # Trees that grow alike

Two trees get the same nodes in the same order, from some moment on. A new node of one tree has a twin in the other one,
the node that was made in the same step. The nodes that were there before need not have anything in common; one of
them, the top, gets new children in both trees. -/

namespace SmithyIdl

/-- `n'` is as far behind `start'` as `n` is behind `start`. -/
def Abreast (start start' n n' : Nat) : Prop := ∃ k, n = start + k ∧ n' = start' + k

namespace Abreast

variable {start start' m m' n n' : Nat}

theorem refl : Abreast start start' start start' := ⟨0, rfl, rfl⟩

theorem succ (h : Abreast start start' n n') : Abreast start start' (n + 1) (n' + 1) := by
  obtain ⟨k, rfl, rfl⟩ := h
  exact ⟨k + 1, rfl, rfl⟩

theorem le (h : Abreast start start' n n') : start ≤ n ∧ start' ≤ n' := by
  obtain ⟨k, rfl, rfl⟩ := h
  omega

theorem lt_iff (h : Abreast start start' m m') (h' : Abreast start start' n n') : m < n ↔ m' < n' := by
  obtain ⟨k, rfl, rfl⟩ := h
  obtain ⟨j, rfl, rfl⟩ := h'
  omega

theorem eq_iff (h : Abreast start start' m m') (h' : Abreast start start' n n') : m = n ↔ m' = n' := by
  obtain ⟨k, rfl, rfl⟩ := h
  obtain ⟨j, rfl, rfl⟩ := h'
  omega

theorem same_iff : Abreast start start n n' ↔ n' = n ∧ start ≤ n := by
  constructor
  · rintro ⟨k, rfl, rfl⟩
    exact ⟨rfl, Nat.le_add_right ..⟩
  · rintro ⟨rfl, le⟩
    exact ⟨n' - start, by omega, by omega⟩

end Abreast

/-- The moment from which on two trees grow alike. -/
structure Onset where
  /-- How many nodes there are. -/
  made : Nat
  made' : Nat
  /-- How many tokens were taken. -/
  taken : Nat
  taken' : Nat
  /-- How many errors were counted. -/
  counted : Nat
  counted' : Nat
  /-- The node that new nodes are put into. -/
  top : NodeId
  top' : NodeId
  /-- The children that it has. -/
  before : List NodeId
  before' : List NodeId
  /-- How the tokens of the two texts belong together. -/
  layout : Layout
  top_root : top = SyntaxTree.root ↔ top' = SyntaxTree.root
  top_lt : top < made
  top_lt' : top' < made'
  before_lt : ∀ i ∈ before, i < made
  before_lt' : ∀ i ∈ before', i < made'

namespace Onset

variable (O : Onset)

/-- New nodes that were made in the same step. -/
abbrev Twin (i i' : NodeId) : Prop := Abreast O.made O.made' i i'

/-- Tokens that were taken in the same step. -/
abbrev Taken (k k' : TokenId) : Prop := Abreast O.taken O.taken' k k'

/-- Nodes that new nodes may stand in: twins, the two tops, or whatever was there before. -/
inductive Seat : NodeId → NodeId → Prop where
  | twin {p p' : NodeId} (h : O.Twin p p') : Seat p p'
  | top : Seat O.top O.top'
  | old {p p' : NodeId} (lt : p < O.made) (ne : p ≠ O.top) (lt' : p' < O.made') (ne' : p' ≠ O.top') : Seat p p'

/-- What twins are. -/
inductive Tags : TokenId ⊕ Label → TokenId ⊕ Label → Prop where
  | leaf {k k' : TokenId} (h : O.Taken k k') : Tags (.inl k) (.inl k')
  | plain (kind : TreeKind) : Tags (.inr (.plain kind)) (.inr (.plain kind))
  | error {m m' : Mark} (h : O.layout.Marks m m') : Tags (.inr (.error m)) (.inr (.error m'))

variable {O} {i i' p p' : NodeId} {l l' : List NodeId}

/-- A new node is none of those that were there before. -/
theorem Twin.ne_of_lt (h : O.Twin i i') (lt : p < O.made) (lt' : p' < O.made') : i ≠ p ∧ i' ≠ p' :=
  ⟨Nat.ne_of_gt (Nat.lt_of_lt_of_le lt h.le.1), Nat.ne_of_gt (Nat.lt_of_lt_of_le lt' h.le.2)⟩

namespace Seat

theorem eq_iff (seat : O.Seat p p') (h : O.Twin i i') : i = p ↔ i' = p' := by
  cases seat with
  | twin h' => exact h.eq_iff h'
  | top =>
    obtain ⟨ne, ne'⟩ := Twin.ne_of_lt h O.top_lt O.top_lt'
    exact iff_of_false ne ne'
  | old lt _ lt' _ =>
    obtain ⟨ne, ne'⟩ := Twin.ne_of_lt h lt lt'
    exact iff_of_false ne ne'

theorem eq_top_iff (seat : O.Seat p p') : O.top = p ↔ O.top' = p' := by
  cases seat with
  | twin h =>
    obtain ⟨ne, ne'⟩ := Twin.ne_of_lt h O.top_lt O.top_lt'
    exact iff_of_false ne.symm ne'.symm
  | top => exact iff_of_true rfl rfl
  | old _ ne _ ne' => exact iff_of_false ne.symm ne'.symm

theorem root : O.Seat SyntaxTree.root SyntaxTree.root := by
  by_cases here : O.top = SyntaxTree.root
  · have seat := Seat.top (O := O)
    rwa [here, O.top_root.mp here] at seat
  · exact .old (Nat.lt_of_le_of_lt (Nat.zero_le _) O.top_lt) (Ne.symm here)
      (Nat.lt_of_le_of_lt (Nat.zero_le _) O.top_lt') (Ne.symm (mt O.top_root.mpr here))

end Seat

theorem Twin.erase (h : O.Twin i i') (twins : List.Forall₂ O.Twin l l') : List.Forall₂ O.Twin (l.erase i) (l'.erase i') := by
  induction twins with
  | nil => exact .nil
  | @cons j j' l l' first rest ih =>
    rw [List.erase_cons, List.erase_cons]
    by_cases here : j = i
    · rw [if_pos (beq_iff_eq.mpr here), if_pos (beq_iff_eq.mpr ((first.eq_iff h).mp here))]
      exact rest
    · rw [if_neg (mt beq_iff_eq.mp here), if_neg (mt beq_iff_eq.mp (mt (first.eq_iff h).mpr here))]
      exact .cons first ih

theorem not_mem_before (h : O.Twin i i') : i ∉ O.before ∧ i' ∉ O.before' := by
  obtain ⟨le, le'⟩ := h.le
  exact ⟨fun among => Nat.not_le_of_lt (O.before_lt i among) le, fun among => Nat.not_le_of_lt (O.before_lt' i' among) le'⟩

end Onset

namespace SyntaxTree

/-- From the onset on, the trees have grown alike. -/
structure Alongside (O : Onset) (t t' : SyntaxTree) : Prop where
  stands : ∃ F, t.Stands F
  stands' : ∃ F, t'.Stands F
  size : O.Twin t.size t'.size
  tokens : ∀ {k k'}, O.Taken k k' → Option.Rel O.layout.token t.tokens[k]? t'.tokens[k']?
  tag : ∀ {i i'}, O.Twin i i' → Option.Rel O.Tags (t.tag? i) (t'.tag? i')
  parent : ∀ {i i'}, O.Twin i i' → Option.Rel O.Seat (t.parent? i) (t'.parent? i')
  children : ∀ {i i'}, O.Twin i i' → List.Forall₂ O.Twin (t.childrenOf i) (t'.childrenOf i')
  top : ∃ new new', t.childrenOf O.top = O.before ++ new ∧ t'.childrenOf O.top' = O.before' ++ new' ∧
    List.Forall₂ O.Twin new new'

variable {O : Onset} {t t' u u' : SyntaxTree} {i i' p p' d d' : NodeId}

theorem tag?_of_not_made (out : t.size ≤ i) : t.tag? i = none := by
  rw [tag?, Array.getElem?_eq_none out]
  rfl

theorem tag?_add_size (content : NodeContent) : (t.add content).2.tag? t.size = some (Node.tag { content }) := by
  rw [tag?, add_getElem?_size]
  rfl

namespace Alongside

/-- At the onset there is no new node. -/
theorem start {F F' : Forest} (stands : t.Stands F) (stands' : t'.Stands F') (made : t.size = O.made)
    (made' : t'.size = O.made') (before : t.childrenOf O.top = O.before) (before' : t'.childrenOf O.top' = O.before')
    (tokens : ∀ {k k'}, O.Taken k k' → Option.Rel O.layout.token t.tokens[k]? t'.tokens[k']?) : Alongside O t t' where
  stands := ⟨F, stands⟩
  stands' := ⟨F', stands'⟩
  size := made ▸ made' ▸ .refl
  tokens := tokens
  tag h := by
    rw [tag?_of_not_made (made ▸ h.le.1), tag?_of_not_made (made' ▸ h.le.2)]
    exact .none
  parent h := by
    rw [parent?_of_not_made (made ▸ h.le.1), parent?_of_not_made (made' ▸ h.le.2)]
    exact .none
  children h := by
    rw [childrenOf_of_not_made (made ▸ h.le.1), childrenOf_of_not_made (made' ▸ h.le.2)]
    exact .nil
  top := ⟨[], [], by rw [before, List.append_nil], by rw [before', List.append_nil], .nil⟩

/-! ### Edits -/

/-- Both trees get a new node without children. -/
theorem add {content content' : NodeContent} (h : Alongside O t t') (stands : ∃ F, (t.add content).2.Stands F)
    (stands' : ∃ F, (t'.add content').2.Stands F)
    (none : ∀ parent kept, (Node.mk content parent kept).children = #[])
    (none' : ∀ parent kept, (Node.mk content' parent kept).children = #[])
    (tags : O.Tags (Node.tag { content }) (Node.tag { content := content' })) :
    Alongside O (t.add content).2 (t'.add content').2 where
  stands := stands
  stands' := stands'
  size := by
    rw [size_add, size_add]
    exact h.size.succ
  tokens := h.tokens
  tag {i i'} twin := by
    rcases Nat.lt_trichotomy i t.size with old | rfl | out
    · have old' := (twin.lt_iff h.size).mp old
      rw [(Extends.add content).tags i old, (Extends.add content').tags i' old']
      exact h.tag twin
    · obtain rfl := (twin.eq_iff h.size).mp rfl
      rw [tag?_add_size, tag?_add_size]
      exact .some tags
    · have out' := (h.size.lt_iff twin).mp out
      rw [tag?_of_not_made (by rw [size_add]; exact out), tag?_of_not_made (by rw [size_add]; exact out')]
      exact .none
  parent {i i'} twin := by
    rcases Nat.lt_trichotomy i t.size with old | rfl | out
    · have old' := (twin.lt_iff h.size).mp old
      rw [parent?_add_of_lt content old, parent?_add_of_lt content' old']
      exact h.parent twin
    · obtain rfl := (twin.eq_iff h.size).mp rfl
      rw [parent?_add_size, parent?_add_size]
      exact .none
    · have out' := (h.size.lt_iff twin).mp out
      rw [parent?_of_not_made (by rw [size_add]; exact out), parent?_of_not_made (by rw [size_add]; exact out')]
      exact .none
  children twin := by
    rw [childrenOf_add _ none, childrenOf_add _ none']
    exact h.children twin
  top := by
    rw [childrenOf_add _ none, childrenOf_add _ none']
    exact h.top

theorem addLeaf {k k' : TokenId} (h : Alongside O t t') (taken : O.Taken k k') :
    Alongside O (t.addLeaf k).2 (t'.addLeaf k').2 := by
  obtain ⟨F, stands⟩ := h.stands
  obtain ⟨F', stands'⟩ := h.stands'
  exact h.add ⟨_, stands.addLeaf k⟩ ⟨_, stands'.addLeaf k'⟩ (fun _ _ => rfl) (fun _ _ => rfl) (.leaf taken)

theorem addNode (h : Alongside O t t') (kind : TreeKind) : Alongside O (t.addNode kind).2 (t'.addNode kind).2 := by
  obtain ⟨F, stands⟩ := h.stands
  obtain ⟨F', stands'⟩ := h.stands'
  exact h.add ⟨_, stands.addBranch _⟩ ⟨_, stands'.addBranch _⟩ (fun _ _ => rfl) (fun _ _ => rfl) (.plain kind)

theorem addError {m m' : Mark} (h : Alongside O t t') (marks : O.layout.Marks m m') :
    Alongside O (t.addError m).2 (t'.addError m').2 := by
  obtain ⟨F, stands⟩ := h.stands
  obtain ⟨F', stands'⟩ := h.stands'
  exact h.add ⟨_, stands.addBranch _⟩ ⟨_, stands'.addBranch _⟩ (fun _ _ => rfl) (fun _ _ => rfl) (.error marks)

/-- Both trees get a twin as the last child of nodes that belong together. -/
theorem append (h : Alongside O t t') (seat : O.Seat p p') (twin : O.Twin d d') (run : t.append p d = .ok u)
    (run' : t'.append p' d' = .ok u') : Alongside O u u' where
  stands := by
    obtain ⟨F, stands⟩ := h.stands
    exact stands.append run
  stands' := by
    obtain ⟨F, stands⟩ := h.stands'
    exact stands.append run'
  size := by
    rw [size_append run, size_append run']
    exact h.size
  tokens := by
    rw [(Extends.append run).tokens, (Extends.append run').tokens]
    exact h.tokens
  tag twin := by
    rw [(Extends.append run).tag?_of_size (size_append run), (Extends.append run').tag?_of_size (size_append run')]
    exact h.tag twin
  parent {i i'} other := by
    obtain ⟨rfl, made, -⟩ := append_ok run
    obtain ⟨rfl, made', -⟩ := append_ok run'
    rw [parent?_link made, parent?_link made']
    by_cases here : d = i
    · rw [if_pos here, if_pos ((twin.eq_iff other).mp here)]
      exact .some seat
    · rw [if_neg here, if_neg (mt (twin.eq_iff other).mpr here)]
      exact h.parent other
  children {i i'} other := by
    rw [childrenOf_append run, childrenOf_append run']
    by_cases here : i = p
    · have here' := (seat.eq_iff other).mp here
      rw [if_pos here, if_pos here']
      subst here here'
      exact List.rel_append (h.children other) (.cons twin .nil)
    · rw [if_neg here, if_neg (mt (seat.eq_iff other).mpr here)]
      exact h.children other
  top := by
    obtain ⟨new, new', old, old', twins⟩ := h.top
    rw [childrenOf_append run, childrenOf_append run']
    by_cases here : O.top = p
    · have here' := seat.eq_top_iff.mp here
      rw [if_pos here, if_pos here', ← here, ← here', old, old']
      exact ⟨new ++ [d], new' ++ [d'], List.append_assoc .., List.append_assoc .., List.rel_append twins (.cons twin .nil)⟩
    · rw [if_neg here, if_neg (mt seat.eq_top_iff.mpr here)]
      exact ⟨new, new', old, old', twins⟩

/-- Twins are taken away from their parents. -/
theorem remove {found found' : Bool} (h : Alongside O t t') (twin : O.Twin d d') (above : t.parent? d = some p)
    (above' : t'.parent? d' = some p') (run : t.remove p d = .ok (found, u)) (run' : t'.remove p' d' = .ok (found', u')) :
    Alongside O u u' := by
  obtain ⟨F, stands⟩ := h.stands
  obtain ⟨F', stands'⟩ := h.stands'
  have seat : O.Seat p p' := by
    have both := h.parent twin
    rw [above, above'] at both
    cases both with
    | some seat => exact seat
  refine ⟨stands.remove run, stands'.remove run', ?_, ?_, fun other => ?_, fun {i i'} other => ?_, fun {i i'} other => ?_,
    ?_⟩
  · rw [size_remove run, size_remove run']
    exact h.size
  · rw [(Extends.remove run).tokens, (Extends.remove run').tokens]
    exact h.tokens
  · rw [(Extends.remove run).tag?_of_size (size_remove run), (Extends.remove run').tag?_of_size (size_remove run')]
    exact h.tag other
  · rw [parent?_remove_of_some stands above run, parent?_remove_of_some stands' above' run']
    by_cases here : d = i
    · rw [if_pos here, if_pos ((twin.eq_iff other).mp here)]
      exact .none
    · rw [if_neg here, if_neg (mt (twin.eq_iff other).mpr here)]
      exact h.parent other
  · rw [childrenOf_remove run, childrenOf_remove run']
    by_cases here : i = p
    · have here' := (seat.eq_iff other).mp here
      rw [if_pos here, if_pos here']
      subst here here'
      exact Onset.Twin.erase twin (h.children other)
    · rw [if_neg here, if_neg (mt (seat.eq_iff other).mpr here)]
      exact h.children other
  · obtain ⟨new, new', old, old', twins⟩ := h.top
    obtain ⟨outside, outside'⟩ := Onset.not_mem_before twin
    rw [childrenOf_remove run, childrenOf_remove run']
    by_cases here : O.top = p
    · have here' := seat.eq_top_iff.mp here
      rw [if_pos here, if_pos here', ← here, ← here', old, old', List.erase_append_right _ outside,
        List.erase_append_right _ outside']
      exact ⟨_, _, rfl, rfl, Onset.Twin.erase twin twins⟩
    · rw [if_neg here, if_neg (mt seat.eq_top_iff.mpr here)]
      exact ⟨new, new', old, old', twins⟩

/-- What is kept at the nodes does not matter. -/
theorem filled (h : Alongside O t t') (fills : t.Filled u) (fills' : t'.Filled u') : Alongside O u u' := by
  obtain ⟨F, stands⟩ := h.stands
  obtain ⟨F', stands'⟩ := h.stands'
  have same := fills.alike
  have same' := fills'.alike
  refine ⟨⟨F, stands.filled fills⟩, ⟨F', stands'.filled fills'⟩, ?_, ?_, fun twin => ?_, fun twin => ?_, fun twin => ?_, ?_⟩
  · rw [same.size_eq, same'.size_eq]
    exact h.size
  · rw [same.tokens, same'.tokens]
    exact h.tokens
  · rw [same.tag?_eq, same'.tag?_eq]
    exact h.tag twin
  · rw [same.parent?_eq, same'.parent?_eq]
    exact h.parent twin
  · rw [same.childrenOf_eq, same'.childrenOf_eq]
    exact h.children twin
  · rw [same.childrenOf_eq, same'.childrenOf_eq]
    exact h.top

end Alongside

end SyntaxTree

/-! ### Readers -/

namespace Uncached
variable {t : SyntaxTree} {i : NodeId} {p : Position} {token? : Option Token} {α : Type}

theorem bind_ok {β : Type} {r : Uncached α} {f : α → Uncached β} {b : β} :
    (r >>= f) t = .ok b ↔ ∃ a, r t = .ok a ∧ f a t = .ok b := by
  change (r t >>= fun a => f a t) = _ ↔ _
  cases r t with
  | error why => exact ⟨nofun, fun ⟨_, h, _⟩ => nomatch h⟩
  | ok a => exact ⟨fun h => ⟨a, rfl, h⟩, fun ⟨_, h, h'⟩ => by cases h; exact h'⟩

theorem look_ok {g : Node → α} {a : α} (run : look g i t = .ok a) : ∃ n, t.nodes[i]? = some n ∧ a = g n := by
  unfold look at run
  split at run
  · next n found =>
    cases run
    exact ⟨n, found, rfl⟩
  · cases run

theorem token_ok {k : TokenId} {a : Token} (run : token k t = .ok a) : t.tokens[k]? = some a := by
  unfold token at run
  split at run
  · next found =>
    cases run
    exact found
  · cases run

theorem mapM_token_ok {k? : Option TokenId} (run : k?.mapM token t = .ok token?) :
    k? = none ∧ token? = none ∨ ∃ k a, k? = some k ∧ token? = some a ∧ t.tokens[k]? = some a := by
  cases k? with
  | none =>
    cases run
    exact .inl ⟨rfl, rfl⟩
  | some k =>
    change (some <$> token k) t = _ at run
    rw [map_eq_pure_bind] at run
    obtain ⟨a, read, run⟩ := bind_ok.mp run
    cases run
    exact .inr ⟨k, a, rfl, rfl, token_ok read⟩

theorem tokenIds_ok {ks : List TokenId} (run : tokenIds i t = .ok ks) : i < t.size ∧ ks = t.leaves i := by
  obtain ⟨_, found, run⟩ := bind_ok.mp run
  obtain ⟨t', same, run⟩ := bind_ok.mp run
  cases same
  cases run
  obtain ⟨n, found, -⟩ := look_ok found
  exact ⟨(Array.getElem?_eq_some_iff.mp found).1, rfl⟩

/-- The token where a node starts, or there is none below it. -/
theorem firstToken?_ok (run : firstToken? i t = .ok token?) : i < t.size ∧
    (t.leaves i = [] ∧ token? = none ∨ ∃ k a, (t.leaves i).head? = some k ∧ token? = some a ∧ t.tokens[k]? = some a) := by
  obtain ⟨ks, found, run⟩ := bind_ok.mp run
  obtain ⟨made, rfl⟩ := tokenIds_ok found
  rcases mapM_token_ok run with ⟨none, rfl⟩ | first
  · exact ⟨made, .inl ⟨List.head?_eq_none_iff.mp none, rfl⟩⟩
  · exact ⟨made, .inr first⟩

/-- The token where a node ends, or there is none below it. -/
theorem lastToken?_ok (run : lastToken? i t = .ok token?) : i < t.size ∧
    (t.leaves i = [] ∧ token? = none ∨
      ∃ k a, (t.leaves i).getLast? = some k ∧ token? = some a ∧ t.tokens[k]? = some a) := by
  obtain ⟨ks, found, run⟩ := bind_ok.mp run
  obtain ⟨made, rfl⟩ := tokenIds_ok found
  rcases mapM_token_ok run with ⟨none, rfl⟩ | last
  · exact ⟨made, .inl ⟨List.getLast?_eq_none_iff.mp none, rfl⟩⟩
  · exact ⟨made, .inr last⟩

theorem firstToken?_none (run : firstToken? i t = .ok none) : t.leaves i = [] := by
  rcases (firstToken?_ok run).2 with ⟨empty, -⟩ | ⟨_, _, -, none, -⟩
  · exact empty
  · cases none

theorem lastToken?_none (run : lastToken? i t = .ok none) : t.leaves i = [] := by
  rcases (lastToken?_ok run).2 with ⟨empty, -⟩ | ⟨_, _, -, none, -⟩
  · exact empty
  · cases none

theorem lastToken?_of_first {first : Token} {last : Option Token} (found : firstToken? i t = .ok (some first))
    (run : lastToken? i t = .ok last) : last.isSome = true := by
  rcases (lastToken?_ok run).2 with ⟨empty, -⟩ | ⟨_, _, -, rfl, -⟩
  · rcases (firstToken?_ok found).2 with ⟨-, none⟩ | ⟨_, _, head, -⟩
    · cases none
    · rw [empty] at head
      cases head
  · rfl

/-- A node with tokens starts where its first one does; without tokens it is where its mark says. -/
theorem place_ok {r : ByteRange} (run : start i t = .ok p) (read : range i t = .ok r) :
    (∃ first last, firstToken? i t = .ok (some first) ∧ lastToken? i t = .ok (some last) ∧ p = first.start ∧
      r.start = min first.range.start last.range.start) ∨
    firstToken? i t = .ok none ∧ ∃ mark, look Node.mark? i t = .ok mark ∧ p = (mark.map Mark.position).getD .nowhere ∧
      r.start = (mark.map Mark.offset).getD 0 := by
  obtain ⟨first, found, run⟩ := bind_ok.mp run
  obtain ⟨_, again, read⟩ := bind_ok.mp read
  cases found.symm.trans again
  obtain ⟨last, foundLast, read⟩ := bind_ok.mp read
  cases first with
  | some first =>
    cases last with
    | some last =>
      cases run
      cases read
      exact .inl ⟨first, last, found, foundLast, rfl, rfl⟩
    | none => cases lastToken?_of_first found foundLast
  | none =>
    obtain ⟨mark, look, same⟩ := bind_ok.mp run
    have read : (do return ByteRange.empty (((← Uncached.look Node.mark? i).map Mark.offset).getD 0)) t = .ok r := by
      cases last <;> exact read
    obtain ⟨_, again, same'⟩ := bind_ok.mp read
    cases look.symm.trans again
    cases same
    cases same'
    exact .inr ⟨found, mark, look, rfl, rfl⟩

end Uncached

namespace SyntaxTree

variable {O : Onset} {t t' : SyntaxTree} {i i' : NodeId}

/-- What is read is what is there, whatever was kept before. -/
theorem Agrees.of_run {α : Type} {r : Reading α} {x : Uncached α} {t u w : SyntaxTree} {F : Forest} {a : α}
    (agrees : Agrees r x) (stands : t.Stands F) (fills : t.Filled u) (read : r u = .ok (a, w)) : x t = .ok a := by
  rw [← agrees.blind fills.alike, ← agrees.reads (stands.filled fills)]
  change (r u >>= fun (a, _) => Pure.pure a) = _
  rw [read]
  rfl

theorem leavesWithin_succ (n : Nat) (i : NodeId) : t.leavesWithin (n + 1) i =
    match t.tag? i with
    | none => []
    | some (.inl k) => [k]
    | some (.inr _) => (t.childrenOf i).flatMap (t.leavesWithin n) := by
  rw [leavesWithin, tag?, childrenOf]
  cases t.nodes[i]? with
  | none => rfl
  | some node =>
    obtain ⟨content, parent, kept⟩ := node
    cases content <;> rfl

/-- The node reports something where it stands. -/
def Reports (t : SyntaxTree) (i : NodeId) : Prop :=
  ∃ mark, t.tag? i = some (.inr (.error mark)) ∧ mark.problem.encloses = false

/-- No token is below the node, and it reports nothing, so there is no place where it stands. -/
structure Blank (t : SyntaxTree) (i : NodeId) : Prop where
  leaves : t.leaves i = []
  silent : ¬ t.Reports i

theorem reports_iff {mark : Option Mark} (run : Uncached.look Node.mark? i t = .ok mark) :
    t.Reports i ↔ ∃ place, mark = some place ∧ place.problem.encloses = false := by
  obtain ⟨⟨content, parent, kept⟩, found, rfl⟩ := Uncached.look_ok run
  rw [Reports, tag?, found]
  cases content with
  | leaf => simp [Node.tag, Node.mark?]
  | branch label => cases label <;> simp [Node.tag, Node.mark?, Label.mark?]

/-- The nodes are the same, and so are those below them. -/
structure Matched (O : Onset) (t t' : SyntaxTree) (i i' : NodeId) : Prop where
  tag : Option.Rel O.Tags (t.tag? i) (t'.tag? i')
  children : List.Forall₂ O.Twin (t.childrenOf i) (t'.childrenOf i')

namespace Matched

variable (m : Matched O t t' i i')
include m

/-- What the tags of two nodes tell of them is so in the trees. -/
theorem read_look {α : Type} {g : Node → α} {R : α → α → Prop} {a a' : α}
    (told : ∀ n n', O.Tags (Node.tag n) (Node.tag n') → R (g n) (g n')) (run : Uncached.look g i t = .ok a)
    (run' : Uncached.look g i' t' = .ok a') : R a a' := by
  obtain ⟨n, found, rfl⟩ := Uncached.look_ok run
  obtain ⟨n', found', rfl⟩ := Uncached.look_ok run'
  have tags := m.tag
  rw [tag?, tag?, found, found'] at tags
  cases tags with
  | some tags => exact told n n' tags

theorem read_mark {mark mark' : Option Mark} (run : Uncached.look Node.mark? i t = .ok mark)
    (run' : Uncached.look Node.mark? i' t' = .ok mark') : Option.Rel O.layout.Marks mark mark' := by
  refine m.read_look (fun n n' tags => ?_) run run'
  obtain ⟨content, parent, kept⟩ := n
  obtain ⟨content', parent', kept'⟩ := n'
  cases content <;> cases content' <;> cases tags <;> first | exact .none | exact .some ‹_›

/-- A report stands where its twin does. -/
theorem read_report {mark mark' : Option Mark} (reports : t.Reports i) (run : Uncached.look Node.mark? i t = .ok mark)
    (run' : Uncached.look Node.mark? i' t' = .ok mark') : ∃ place place', mark = some place ∧ mark' = some place' ∧
      O.layout.offset place.offset place'.offset ∧ O.layout.position place.position place'.position := by
  obtain ⟨place, rfl, stands⟩ := (reports_iff run).mp reports
  cases m.read_mark run run' with
  | some marks =>
    rcases marks.place with ⟨offset, position⟩ | ⟨encloses, -⟩
    · exact ⟨_, _, rfl, rfl, offset, position⟩
    · rw [stands] at encloses
      cases encloses

theorem read_emptyPosition {q q' : Position} (run : Uncached.emptyPosition i t = .ok q)
    (run' : Uncached.emptyPosition i' t' = .ok q') :
    O.layout.position q q' ∨ ¬ t.Reports i ∧ q = .nowhere ∧ q' = .nowhere := by
  obtain ⟨mark, look, same⟩ := Uncached.bind_ok.mp run
  obtain ⟨mark', look', same'⟩ := Uncached.bind_ok.mp run'
  cases same
  cases same'
  by_cases reports : t.Reports i
  · obtain ⟨place, place', rfl, rfl, -, position⟩ := m.read_report reports look look'
    exact .inl position
  · cases m.read_mark look look' with
    | none => exact .inr ⟨reports, rfl, rfl⟩
    | some marks => exact marks.place.imp And.right fun ⟨_, ⟨_, nowhere⟩, _, nowhere'⟩ => ⟨reports, nowhere, nowhere'⟩

end Matched

namespace Alongside

theorem matched (h : Alongside O t t') (twin : O.Twin i i') : Matched O t t' i i' := ⟨h.tag twin, h.children twin⟩

theorem leavesWithin (h : Alongside O t t') (n : Nat) {i i' : NodeId} (m : Matched O t t' i i') :
    List.Forall₂ O.Taken (t.leavesWithin n i) (t'.leavesWithin n i') := by
  induction n generalizing i i' with
  | zero => exact .nil
  | succ n ih =>
    rw [leavesWithin_succ, leavesWithin_succ]
    generalize t.tag? i = tag, t'.tag? i' = tag', m.tag = tags
    cases tags with
    | none => exact .nil
    | some tags =>
      cases tags with
      | leaf taken => exact .cons taken .nil
      | plain => exact List.rel_flatMap m.children fun _ _ twin => ih (h.matched twin)
      | error => exact List.rel_flatMap m.children fun _ _ twin => ih (h.matched twin)

/-- The first of some tokens that were taken in the same steps. -/
theorem read_head (h : Alongside O t t') {ks ks' : List TokenId} {first first' : Option Token}
    (taken : List.Forall₂ O.Taken ks ks')
    (found : ks = [] ∧ first = none ∨ ∃ k a, ks.head? = some k ∧ first = some a ∧ t.tokens[k]? = some a)
    (found' : ks' = [] ∧ first' = none ∨ ∃ k a, ks'.head? = some k ∧ first' = some a ∧ t'.tokens[k]? = some a) :
    Option.Rel O.layout.token first first' := by
  cases taken with
  | nil =>
    rcases found with ⟨-, rfl⟩ | ⟨k, a, here, -⟩
    · rcases found' with ⟨-, rfl⟩ | ⟨k', a', here', -⟩
      · exact .none
      · cases here'
    · cases here
  | cons taken =>
    have both := h.tokens taken
    rcases found with ⟨none, -⟩ | ⟨k, a, here, rfl, token⟩
    · cases none
    rcases found' with ⟨none, -⟩ | ⟨k', a', here', rfl, token'⟩
    · cases none
    cases here
    cases here'
    rwa [token, token'] at both

variable (h : Alongside O t t') (m : Matched O t t' i i')
include h m

theorem leaves : List.Forall₂ O.Taken (t.leaves i) (t'.leaves i') := by
  obtain ⟨F, stands⟩ := h.stands
  obtain ⟨F', stands'⟩ := h.stands'
  rw [← stands.leavesWithin_eq (Nat.le_max_left t.size t'.size), ← stands'.leavesWithin_eq (Nat.le_max_right t.size t'.size)]
  exact h.leavesWithin _ m

theorem read_firstToken {first first' : Option Token} (run : Uncached.firstToken? i t = .ok first)
    (run' : Uncached.firstToken? i' t' = .ok first') : Option.Rel O.layout.token first first' :=
  h.read_head (h.leaves m) (Uncached.firstToken?_ok run).2 (Uncached.firstToken?_ok run').2

theorem read_lastToken {last last' : Option Token} (run : Uncached.lastToken? i t = .ok last)
    (run' : Uncached.lastToken? i' t' = .ok last') : Option.Rel O.layout.token last last' := by
  have found := (Uncached.lastToken?_ok run).2
  have found' := (Uncached.lastToken?_ok run').2
  rw [← List.head?_reverse, ← List.reverse_eq_nil_iff] at found found'
  exact h.read_head (List.rel_reverse (h.leaves m)) found found'

theorem read_start {q q' : Position} (run : Uncached.start i t = .ok q) (run' : Uncached.start i' t' = .ok q') :
    O.layout.position q q' ∨ t.Blank i ∧ q = .nowhere ∧ q' = .nowhere := by
  obtain ⟨first, read, run⟩ := Uncached.bind_ok.mp run
  obtain ⟨first', read', run'⟩ := Uncached.bind_ok.mp run'
  cases h.read_firstToken m read read' with
  | none =>
    have leaves := Uncached.firstToken?_none read
    exact (m.read_emptyPosition run run').imp_right fun ⟨silent, nowhere⟩ => ⟨⟨leaves, silent⟩, nowhere⟩
  | some token =>
    cases run
    cases run'
    exact .inl (O.layout.position_start token)

theorem read_stop {q q' : Position} (run : Uncached.stop i t = .ok q) (run' : Uncached.stop i' t' = .ok q') :
    O.layout.position q q' ∨ t.Blank i ∧ q = .nowhere ∧ q' = .nowhere := by
  obtain ⟨last, read, run⟩ := Uncached.bind_ok.mp run
  obtain ⟨last', read', run'⟩ := Uncached.bind_ok.mp run'
  cases h.read_lastToken m read read' with
  | none =>
    have leaves := Uncached.lastToken?_none read
    exact (m.read_emptyPosition run run').imp_right fun ⟨silent, nowhere⟩ => ⟨⟨leaves, silent⟩, nowhere⟩
  | some token =>
    cases run
    cases run'
    exact .inl (O.layout.position_stop token)

/-- The mark of an error around two nodes that belong together. -/
theorem read_marks {problem : Problem} (encloses : problem.encloses = true) {q q' : Position} {r r' : ByteRange}
    (run : Uncached.start i t = .ok q) (run' : Uncached.start i' t' = .ok q') (read : Uncached.range i t = .ok r)
    (read' : Uncached.range i' t' = .ok r') : O.layout.Marks ⟨problem, r.start, q⟩ ⟨problem, r'.start, q'⟩ := by
  refine ⟨.inr ⟨rfl, encloses⟩, ?_⟩
  rcases Uncached.place_ok run read with ⟨first, last, found, foundLast, rfl, offset⟩ | ⟨found, mark, look, rfl, offset⟩
  · rcases Uncached.place_ok run' read' with ⟨first', last', found', foundLast', rfl, offset'⟩ | ⟨found', -⟩
    · cases h.read_firstToken m found found' with
      | some firsts =>
        cases h.read_lastToken m foundLast foundLast' with
        | some lasts =>
          dsimp only
          rw [offset, offset']
          exact .inl ⟨O.layout.offset_min (O.layout.offset_start firsts) (O.layout.offset_start lasts),
            O.layout.position_start firsts⟩
    · cases h.read_firstToken m found found'
  · rcases Uncached.place_ok run' read' with ⟨first', last', found', -⟩ | ⟨found', mark', look', rfl, offset'⟩
    · cases h.read_firstToken m found found'
    · dsimp only
      rw [offset, offset']
      cases m.read_mark look look' with
      | none => exact .inr ⟨encloses, ⟨rfl, rfl⟩, rfl, rfl⟩
      | some marks => exact marks.place.imp_right fun ⟨_, nowhere⟩ => ⟨encloses, nowhere⟩

end Alongside

end SyntaxTree

end SmithyIdl
