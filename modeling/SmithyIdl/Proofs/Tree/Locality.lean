import SmithyIdl.Proofs.Tree.Blind
import SmithyIdl.Proofs.Tree.Splice

/-! # What an edit changes

Whatever was asked of a tree before, an `append` inserts the tokens of the child behind those of the node, and a
`remove` takes them out, in the node and in all nodes above it. All other nodes are read as before. A `remove` behind an
`append` leaves a tree that no reading tells from the one before. -/

namespace SmithyIdl

/-! ### Readers of one node -/

/-- A node is the same in both trees, with the same tokens below it. -/
structure SyntaxTree.Rereads (t t' : SyntaxTree) (i : NodeId) : Prop where
  tokens : t'.tokens = t.tokens
  size : t'.size = t.size
  tag : t'.tag? i = t.tag? i
  leaves : t'.leaves i = t.leaves i

namespace Uncached

variable {α β : Type} {t t' : SyntaxTree} {i : NodeId}

theorem bind_congr {x : Uncached α} {f : α → Uncached β} (h : x t' = x t) (h' : ∀ a, f a t' = f a t) :
    (x >>= f) t' = (x >>= f) t := by
  change (x t' >>= fun a => f a t') = (x t >>= fun a => f a t)
  rw [h]
  exact congrArg _ (funext h')

theorem run_mapM (f : α → Uncached β) (l : List α) : l.mapM f t = l.mapM (f · t) := by
  induction l with
  | nil => rfl
  | cons a l ih =>
    rw [List.mapM_cons, List.mapM_cons, ← ih]
    rfl

theorem look_children (i : NodeId) : look (·.children.toList) i t =
    if i < t.size then .ok (t.childrenOf i) else .error (.outOfBounds t.size i) := by
  rw [look, SyntaxTree.childrenOf]
  split
  · next n found =>
    have made : i < t.size := (Array.getElem?_eq_some_iff.mp found).1
    rw [if_pos made, found]
    rfl
  · next gone =>
    have out : ¬i < t.size := Nat.not_lt_of_le (Array.getElem?_eq_none_iff.mp gone)
    rw [if_neg out]

theorem run_optionMapM (f : α → Uncached β) (o : Option α) : o.mapM f t = o.mapM (f · t) := by
  cases o <;> rfl

variable (h : t.Rereads t' i)
include h

theorem token_congr (k : TokenId) : token k t' = token k t := by rw [token, token, h.tokens]

/-- What the tag of the node tells. -/
theorem look_congr {g : Node → α} (told : ∀ n n', Node.tag n = Node.tag n' → g n = g n') :
    look g i t' = look g i t := by
  have same := h.tag
  rw [SyntaxTree.tag?, SyntaxTree.tag?] at same
  rw [look, look, h.size]
  generalize t.nodes[i]? = n, t'.nodes[i]? = n' at same
  cases n with
  | none =>
    obtain rfl : n' = none := by simpa using same
    rfl
  | some n =>
    obtain ⟨n', rfl, tags⟩ := Option.map_eq_some_iff.mp same
    exact congrArg Except.ok (told n' n tags)

theorem mark_congr (g : Option Mark → α) :
    (do return g (← look Node.mark? i) : Uncached α) t' = (do return g (← look Node.mark? i) : Uncached α) t := by
  refine bind_congr (look_congr h fun n n' same => ?_) fun _ => rfl
  obtain ⟨content, parent, kept⟩ := n
  obtain ⟨content', parent', kept'⟩ := n'
  cases content <;> cases content' <;> cases same <;> rfl

theorem tokenIds_congr : tokenIds i t' = tokenIds i t :=
  bind_congr (look_congr h fun _ _ _ => rfl) fun _ => congrArg Except.ok h.leaves

theorem tokens_congr : tokens i t' = tokens i t :=
  bind_congr (tokenIds_congr h) fun ids => by rw [run_mapM, run_mapM, funext (token_congr h)]

theorem firstToken?_congr : firstToken? i t' = firstToken? i t :=
  bind_congr (tokenIds_congr h) fun ids => by rw [run_optionMapM, run_optionMapM, funext (token_congr h)]

theorem lastToken?_congr : lastToken? i t' = lastToken? i t :=
  bind_congr (tokenIds_congr h) fun ids => by rw [run_optionMapM, run_optionMapM, funext (token_congr h)]

theorem text_congr : text i t' = text i t := bind_congr (tokens_congr h) fun _ => rfl

theorem start_congr : start i t' = start i t :=
  bind_congr (firstToken?_congr h) fun
    | some _ => rfl
    | none => mark_congr h fun mark => (mark.map Mark.position).getD .nowhere

theorem stop_congr : stop i t' = stop i t :=
  bind_congr (lastToken?_congr h) fun
    | some _ => rfl
    | none => mark_congr h fun mark => (mark.map Mark.position).getD .nowhere

theorem range_congr : range i t' = range i t := by
  have empty := mark_congr h fun mark => ByteRange.empty ((mark.map Mark.offset).getD 0)
  refine bind_congr (firstToken?_congr h) fun first => bind_congr (lastToken?_congr h) fun last => ?_
  cases first with
  | none => exact empty
  | some first =>
    cases last with
    | none => exact empty
    | some last => rfl

end Uncached

namespace SyntaxTree

variable {t t' : SyntaxTree} {F F' : Forest} {p c a i : NodeId} {old new : List NodeId}

/-! ### Untouched nodes -/

/-- The node has the same nodes below it, and what is read of it is the same. -/
structure Untouched (t t' : SyntaxTree) (i : NodeId) : Prop where
  subtree : t'.subtree i = t.subtree i
  children : (Reading.children i).run' t' = (Reading.children i).run' t
  tokenIds : (Reading.tokenIds i).run' t' = (Reading.tokenIds i).run' t
  tokens : (Reading.tokens i).run' t' = (Reading.tokens i).run' t
  text : (Reading.text i).run' t' = (Reading.text i).run' t
  range : (Reading.range i).run' t' = (Reading.range i).run' t
  start : (Reading.start i).run' t' = (Reading.start i).run' t
  stop : (Reading.stop i).run' t' = (Reading.stop i).run' t

theorem EditedAt.untouched (e : t.EditedAt t' p) (aside : i ∉ p :: t.ancestors p) : t.Untouched t' i := by
  obtain ⟨F, h⟩ := e.before
  obtain ⟨F', h'⟩ := e.after
  have subtree := e.subtree_eq aside
  have children := e.children i (List.ne_of_not_mem_cons aside)
  have same : t.Rereads t' i := by
    refine ⟨e.tokens, e.size, e.tags i, ?_⟩
    rw [h'.leaves_eq_tokensOf, h.leaves_eq_tokensOf, subtree, tokensOf_congr e.tags]
  have both {α : Type} {r : Reading α} {x : Uncached α} (agrees : Agrees r x) (eq : x t' = x t) : r.run' t' = r.run' t :=
    (agrees.reads h').trans (eq.trans (agrees.reads h).symm)
  exact {
    subtree
    children := both (.children i) (by rw [Uncached.look_children, Uncached.look_children, e.size, children])
    tokenIds := both (.tokenIdsArray i) (congrArg (List.toArray <$> ·) (Uncached.tokenIds_congr same))
    tokens := both (.tokens i) (Uncached.tokens_congr same)
    text := both (.text i) (Uncached.text_congr same)
    range := both (.range i) (Uncached.range_congr same)
    start := both (.start i) (Uncached.start_congr same)
    stop := both (.stop i) (Uncached.stop_congr same) }

/-! ### Replaced tokens -/

/-- The tokens that are read of a node are those with the names `ids`. -/
structure ReadsAs (t : SyntaxTree) (i : NodeId) (ids : List TokenId) : Prop where
  tokenIds : (Reading.tokenIds i).run' t = .ok ids.toArray
  tokens : (Reading.tokens i).run' t = ids.mapM (Uncached.token · t)

theorem Stands.readsAs (h : t.Stands F) (made : i < t.size) : t.ReadsAs i (t.tokensOf (t.subtree i)) where
  tokenIds := h.tokenIds_run' made
  tokens := by
    rw [(Agrees.tokens i).reads h, ← h.leaves_eq_tokensOf, ← Uncached.run_mapM]
    exact Uncached.run_bind_of_ok (Uncached.tokenIds_run (Array.getElem?_eq_getElem made))

/-- Below `a` the nodes `old` are replaced by `new`, and with them the tokens that are read of `a`. -/
def Replaces (t t' : SyntaxTree) (old new : List NodeId) (a : NodeId) : Prop :=
  ∃ before after, t.subtree a = before ++ old ++ after ∧ t'.subtree a = before ++ new ++ after ∧
    t.ReadsAs a (t.tokensOf before ++ t.tokensOf old ++ t.tokensOf after) ∧
    t'.ReadsAs a (t.tokensOf before ++ t.tokensOf new ++ t.tokensOf after)

theorem EditedAt.replaces (e : t.EditedAt t' p) (made : p < t.size) (splices : t.Splices t' old new p)
    (above : a ∈ p :: t.ancestors p) : t.Replaces t' old new a := by
  obtain ⟨before, after, parts, parts'⟩ := e.splices_above splices above
  obtain ⟨F, h⟩ := e.before
  obtain ⟨F', h'⟩ := e.after
  have made : a < t.size := h.lt_size_of_above made above
  refine ⟨before, after, parts, parts', ?_, ?_⟩
  · rw [← tokensOf_append, ← tokensOf_append, ← parts]
    exact h.readsAs made
  · rw [← tokensOf_append, ← tokensOf_append, ← parts', ← tokensOf_congr e.tags]
    exact h'.readsAs (e.size ▸ made)

/-- The links and the tags are all of a tree but its tokens and what it keeps. -/
theorem alike_of_links (tokens : t'.tokens = t.tokens) (tags : ∀ i, t'.tag? i = t.tag? i)
    (parents : ∀ i, t'.parent? i = t.parent? i) (children : ∀ i, t'.childrenOf i = t.childrenOf i) : t.Alike t' := by
  refine ⟨tokens, fun i => ?_⟩
  have tag := tags i
  have parent := parents i
  have below := children i
  rw [tag?, tag?] at tag
  rw [parent?, parent?] at parent
  rw [childrenOf, childrenOf] at below
  generalize t.nodes[i]? = n, t'.nodes[i]? = n' at tag parent below
  cases n with
  | none =>
    obtain rfl : n' = none := by simpa using tag
    rfl
  | some n =>
    obtain ⟨n', rfl, -⟩ := Option.map_eq_some_iff.mp tag
    obtain ⟨content, parent₁, kept⟩ := n
    obtain ⟨content', parent₂, kept'⟩ := n'
    cases content <;> cases content' <;> simp_all [Node.tag, Node.children, Node.withCache]

/-! ### The laws -/

/-- What edits of the child `c` of `p` keep. -/
structure Confined (t t' : SyntaxTree) (p c : NodeId) : Prop where
  tokens : t'.tokens = t.tokens
  tags : ∀ i, t'.tag? i = t.tag? i
  parents : ∀ i, i ≠ c → t'.parent? i = t.parent? i
  children : ∀ i, i ≠ p → t'.childrenOf i = t.childrenOf i
  untouched : ∀ i, i ∉ p :: t.ancestors p → t.Untouched t' i

theorem EditedAt.confined (e : t.EditedAt t' p) (parents : ∀ i, i ≠ c → t'.parent? i = t.parent? i) :
    t.Confined t' p c :=
  ⟨e.tokens, e.tags, parents, e.children, fun _ => e.untouched⟩

/-- `t'` is `t` after `c` was appended to `p`. -/
structure Appended (t t' : SyntaxTree) (p c : NodeId) : Prop extends Confined t t' p c where
  parent : t.parent? c = none ∧ t'.parent? c = some p
  child : t'.childrenOf p = t.childrenOf p ++ [c]
  own : ∃ front back, t.ReadsAs p front ∧ t.ReadsAs c back ∧ t'.ReadsAs p (front ++ back)
  /-- Where the nodes of `p` end, those of `c` follow. -/
  segment : ∀ a ∈ p :: t.ancestors p, t.Replaces t' (t.subtree p) (t.subtree p ++ t.subtree c) a

/-- `t'` is `t` after `c` was removed from `p`. -/
structure Removed (t t' : SyntaxTree) (p c : NodeId) : Prop extends Confined t t' p c where
  parent : t.parent? c = some p ∧ t'.parent? c = none
  child : t'.childrenOf p = (t.childrenOf p).erase c
  inner : ∀ i ∈ t.subtree c, t.Untouched t' i
  segment : ∀ a ∈ p :: t.ancestors p, t.Replaces t' (t.subtree c) [] a

/-- `t'` differs from `t` only in what it keeps, and no reader or session sees a difference. -/
structure Restored (t t' : SyntaxTree) : Prop where
  alike : t.Alike t'
  reads : ∀ {α : Type} (r : Reading α) [Blind r], r.run' t' = r.run' t
  answers : ∀ rs, (TreeRequest.answers t' rs).1 = (TreeRequest.answers t rs).1

/-- Every edit is seen where it is made and above, and nowhere else. -/
structure EditsLocally (t : SyntaxTree) : Prop where
  reads : ∀ i < t.size, t.ReadsAs i (t.tokensOf (t.subtree i))
  append : ∀ p c t', t.append p c = .ok t' → t.Appended t' p c
  /-- Exactly the children of a node can be removed from it. -/
  found : ∀ p < t.size, ∀ c, ∃ t', t.remove p c = .ok (decide (t.parent? c = some p), t')
  remove : ∀ p c t', t.remove p c = .ok (true, t') → t.Removed t' p c
  miss : ∀ p c t', t.remove p c = .ok (false, t') → t' = t
  /-- Also when the tree was read in between. -/
  restore : ∀ p c t' u, t.append p c = .ok t' → t'.Filled u → ∃ t'', u.remove p c = .ok (true, t'') ∧ t.Restored t''

namespace Stands

variable (h : t.Stands F)
include h

theorem appended (run : t.append p c = .ok t') : t.Appended t' p c := by
  have e := editedAt_append h run
  obtain ⟨F', h'⟩ := e.after
  obtain ⟨linked, madeC, free⟩ := append_ok run
  have madeP : p < t.size := lt_size_of_append run
  have parent : t'.parent? c = some p := by rw [linked, parent?_link madeC, if_pos rfl]
  have child : t'.childrenOf p = t.childrenOf p ++ [c] := by rw [childrenOf_append run, if_pos rfl]
  have own : t'.ReadsAs p (t.tokensOf (t.subtree p) ++ t.tokensOf (t.subtree c)) := by
    have reads := h'.readsAs (e.size ▸ madeP)
    rwa [tokensOf_congr e.tags, subtree_append h run, tokensOf_append] at reads
  exact {
    toConfined := e.confined fun i ne => parent?_append_of_ne run ne
    parent := ⟨free, parent⟩
    child
    own := ⟨_, _, h.readsAs madeP, h.readsAs madeC, own⟩
    segment := fun a above => e.replaces madeP (splices_append h run) above }

theorem exists_remove (made : p < t.size) : ∃ t', t.remove p c = .ok (decide (t.parent? c = some p), t') := by
  by_cases up : t.parent? c = some p
  · rw [decide_eq_true up]
    exact ⟨_, remove_eq_true.mpr ⟨h.mem_childrenOf.mpr up, rfl⟩⟩
  · rw [decide_eq_false up]
    exact ⟨_, remove_eq_false.mpr ⟨made, fun among => up (h.mem_childrenOf.mp among), rfl⟩⟩

theorem removed (run : t.remove p c = .ok (true, t')) : t.Removed t' p c := by
  have e := editedAt_remove h run
  have among : c ∈ t.childrenOf p := (remove_eq_true.mp run).1
  have up : t.parent? c = some p := h.mem_childrenOf.mp among
  have freed : t'.parent? c = none := by rw [parent?_remove_of_some h up run, if_pos rfl]
  have child : t'.childrenOf p = (t.childrenOf p).erase c := by rw [childrenOf_remove run, if_pos rfl]
  exact {
    toConfined := e.confined fun i ne => parent?_remove_of_ne run ne
    parent := ⟨up, freed⟩
    child
    -- What is below `c` is not above `p`, or else `c` were above `p` too.
    inner := fun i below => e.untouched fun above =>
      h.aside_of_child among (h.above_trans (h.mem_subtree.mp below) above)
    segment := fun a above => e.replaces (h.lt_of_parent? up).2 (splices_remove h run) above }

theorem restored {u : SyntaxTree} (run : t.append p c = .ok t') (fills : t'.Filled u) :
    ∃ t'', u.remove p c = .ok (true, t'') ∧ t.Restored t'' := by
  obtain ⟨F', h'⟩ := h.append run
  have hu := h'.filled fills
  have same := fills.alike
  obtain ⟨linked, made, free⟩ := append_ok run
  have child : u.childrenOf p = t.childrenOf p ++ [c] := by
    rw [same.childrenOf_eq, childrenOf_append run, if_pos rfl]
  have up : u.parent? c = some p := by rw [same.parent?_eq, linked, parent?_link made, if_pos rfl]
  have removed : u.remove p c = .ok (true, u.unlink p c) := remove_eq_true.mpr ⟨by simp [child], rfl⟩
  obtain ⟨F'', h''⟩ := hu.remove removed
  have new : c ∉ t.childrenOf p := fun among => by
    rw [h.mem_childrenOf, free] at among
    cases among
  have alike : t.Alike (u.unlink p c) := by
    refine alike_of_links ?_ (fun i => ?_) (fun i => ?_) fun i => ?_
    · rw [unlink_tokens, same.tokens, (Extends.append run).tokens]
    · rw [(Extends.unlink p c).tag?_of_size (unlink_size p), same.tag?_eq,
        (Extends.append run).tag?_of_size (size_append run)]
    · rw [parent?_remove_of_some hu up removed]
      split
      · next here => rw [← here, free]
      · next other => rw [same.parent?_eq, parent?_append_of_ne run (Ne.symm other)]
    · rw [childrenOf_remove removed]
      split
      · next here => rw [child, List.erase_append_right _ new, List.erase_cons_head, List.append_nil, here]
      · next other => rw [same.childrenOf_eq, childrenOf_append run, if_neg other]
  exact ⟨_, removed, alike, fun _ _ => Blind.reads h h'' alike, answers_eq h h'' alike⟩

theorem editsLocally : t.EditsLocally where
  reads _ made := h.readsAs made
  append _ _ _ run := h.appended run
  found _ made _ := h.exists_remove made
  remove _ _ _ run := h.removed run
  miss _ _ _ run := (remove_eq_false.mp run).2.2
  restore _ _ _ _ run fills := h.restored run fills

end Stands

/-- After every session edits are seen where they are made and above, and nowhere else. -/
theorem session_edits_locally (kind : TreeKind) (tokens : Array Token) (steps : List TreeStep) :
    (TreeStep.after (.new kind tokens) steps).EditsLocally := by
  obtain ⟨F, stands⟩ := stands_after (stands_new kind tokens) steps
  exact stands.editsLocally

end SyntaxTree

end SmithyIdl
