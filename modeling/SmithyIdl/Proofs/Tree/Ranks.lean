import SmithyIdl.Proofs.Tree.Session

/-! # Ranks

A rank for each node that is larger below bounds how deep the nodes lie. Edits keep the ranks as they are; only a node
that is put somewhere has to be ranked higher than what it is put into. -/

namespace SmithyIdl.SyntaxTree

variable {t t' : SyntaxTree} {i p q d : NodeId}

/-! ### Parents -/

theorem lt_size_of_parent? (above : t.parent? i = some q) : i < t.size := by
  obtain ⟨n, found, -⟩ := Option.bind_eq_some_iff.mp above
  exact (Array.getElem?_eq_some_iff.mp found).1

/-- Appending gives a parent to one node only. -/
theorem parent?_append (run : t.append p d = .ok t') (above : t'.parent? i = some q) :
    i = d ∧ q = p ∨ t.parent? i = some q := by
  obtain ⟨rfl, made, -⟩ := append_ok run
  rw [parent?_link made] at above
  split at above
  · next here => exact .inl ⟨here.symm, (Option.some.inj above).symm⟩
  · exact .inr above

/-- Removing gives no node a parent. -/
theorem parent?_remove {found : Bool} (run : t.remove p d = .ok (found, t')) (above : t'.parent? i = some q) :
    t.parent? i = some q := by
  rcases remove_eq_ok.mp run with ⟨-, -, rfl⟩ | ⟨-, -, rfl⟩
  · exact above
  · by_cases here : d = i
    · subst here
      have made : d < t.size := unlink_size (t := t) p ▸ lt_size_of_parent? above
      rw [parent?_unlink made, if_pos rfl] at above
      cases above
    · rw [unlink, (Alike.forget p).parent?_eq, parent?, modify_getElem?, if_neg here] at above
      exact (parent?_mapChildren _ p i).symm.trans above

theorem parent?_add (content : NodeContent) (above : (t.add content).2.parent? i = some q) : t.parent? i = some q := by
  have made := lt_size_of_parent? above
  rw [size_add] at made
  rcases Nat.lt_succ_iff_lt_or_eq.mp made with old | rfl
  · rwa [parent?, add_getElem?_of_lt content old] at above
  · rw [parent?, add_getElem?_size content] at above
    cases above

/-! ### Ranked trees -/

/-- Nodes are ranked higher than their parents, none higher than `limit + 4`, and whitespace higher than anything that
    can be open around it where no more than `limit` nodes are open. -/
structure Ranked (limit : Nat) (rank : NodeId → Nat) (t : SyntaxTree) : Prop where
  links : ∀ {i p}, t.parent? i = some p → p < t.size ∧ rank p < rank i
  whitespace : ∀ {i}, t.tag? i = some (.inr (.plain .whitespace)) → rank i = limit + 2
  high : ∀ {i}, i < t.size → rank i ≤ limit + 4

namespace Ranked

variable {limit : Nat} {rank rank' : NodeId → Nat}

theorem alike (h : t.Ranked limit rank) (same : t.Alike t') : t'.Ranked limit rank where
  links above := by
    rw [same.parent?_eq] at above
    rw [same.size_eq]
    exact h.links above
  whitespace found := h.whitespace ((same.tag?_eq _).symm.trans found)
  high made := h.high (same.size_eq ▸ made)

theorem append (h : t.Ranked limit rank) (run : t.append p d = .ok t') (lower : rank p < rank d) :
    t'.Ranked limit rank where
  links above := by
    rw [size_append run]
    rcases parent?_append run above with ⟨rfl, rfl⟩ | before
    · refine ⟨?_, lower⟩
      obtain ⟨inner, -⟩ := append_eq_ok.mp run
      obtain ⟨n, found, -⟩ := Option.map_eq_some_iff.mp inner
      exact (Array.getElem?_eq_some_iff.mp found).1
    · exact h.links before
  whitespace found := h.whitespace (((Extends.append run).tag?_of_size (size_append run) _).symm.trans found)
  high made := h.high (size_append run ▸ made)

theorem remove (h : t.Ranked limit rank) {found : Bool} (run : t.remove p d = .ok (found, t')) :
    t'.Ranked limit rank where
  links above := by
    rw [size_remove run]
    exact h.links (parent?_remove run above)
  whitespace tagged := h.whitespace (((Extends.remove run).tag?_of_size (size_remove run) _).symm.trans tagged)
  high made := h.high (size_remove run ▸ made)

/-- A new node gets any rank that is not too high. -/
theorem add (h : t.Ranked limit rank) {content : NodeContent} (same : ∀ i < t.size, rank' i = rank i)
    (whitespace : ∀ children, content = .branch (.plain .whitespace) children → rank' t.size = limit + 2)
    (high : rank' t.size ≤ limit + 4) : (t.add content).2.Ranked limit rank' where
  links {i p} above := by
    have before := parent?_add content above
    obtain ⟨made, lower⟩ := h.links before
    rw [size_add, same p made, same i (lt_size_of_parent? before)]
    exact ⟨Nat.lt_succ_of_lt made, lower⟩
  whitespace {i} found := by
    have made := lt_size_of_tag? found
    rw [size_add] at made
    rcases Nat.lt_succ_iff_lt_or_eq.mp made with old | rfl
    · rw [tag?, add_getElem?_of_lt content old] at found
      rw [same i old, h.whitespace found]
    · rw [tag?, add_getElem?_size content] at found
      cases content with
      | leaf => cases found
      | branch label children =>
        cases found
        exact whitespace children rfl
  high {i} made := by
    rw [size_add] at made
    rcases Nat.lt_succ_iff_lt_or_eq.mp made with old | rfl
    · exact same i old ▸ h.high old
    · exact high

/-- No more nodes are above a node than its rank says. -/
theorem length_ancestors_le (h : t.Ranked limit rank) (i : NodeId) : (t.ancestors i).length ≤ rank i := by
  rw [ancestors]
  generalize t.size = n
  induction n generalizing i with
  | zero => exact Nat.zero_le _
  | succ n ih =>
    rw [climb]
    cases above : t.parent? i with
    | none => exact Nat.zero_le _
    | some p =>
      have lower := (h.links above).2
      have below := ih p
      rw [List.length_cons]
      omega

end Ranked

/-! ### Dumps -/

section
variable {α β : Type} {r : Reading α} {f g : α → Reading β}

/-- Readers go on in the same way if they do so from what is read. -/
theorem bind_congr_at (same : ∀ {a t₁}, r t = .ok (a, t₁) → f a t₁ = g a t₁) : (r >>= f) t = (r >>= g) t := by
  cases run : r t with
  | error why => rw [bind_of_error run, bind_of_error run]
  | ok found =>
    obtain ⟨a, t₁⟩ := found
    rw [bind_of_ok run, bind_of_ok run, same run]

theorem bind_congr_run {r' : Reading α} (same : r t = r' t) : (r >>= f) t = (r' >>= f) t := by
  change (r t >>= fun (a, t') => f a t') = (r' t >>= fun (a, t') => f a t')
  rw [same]

theorem mapM_congr_at [∀ a, Still (f a)] {l : List α} (same : ∀ a ∈ l, ∀ t₁, t.Alike t₁ → f a t₁ = g a t₁) :
    l.mapM f t = l.mapM g t := by
  induction l generalizing t with
  | nil => rfl
  | cons a l ih =>
    rw [List.mapM_cons, List.mapM_cons]
    have first := same a List.mem_cons_self t (.refl t)
    have rest {b : β} {t₁ : SyntaxTree} (run : f a t = .ok (b, t₁)) : l.mapM f t₁ = l.mapM g t₁ :=
      ih fun a' among t₂ alike => same a' (List.mem_cons_of_mem a among) t₂ ((Still.keeps run).trans alike)
    cases run : f a t with
    | error why => rw [bind_of_error run, bind_of_error (first.symm.trans run)]
    | ok found =>
      obtain ⟨b, t₁⟩ := found
      rw [bind_of_ok run, bind_of_ok (first.symm.trans run)]
      exact bind_congr_run (rest run)

end

/-- Where nodes lie less than `bound` deep, a dump that goes down that many levels is not cut off. -/
theorem Stands.dumpLines_eq {F : Forest} (h : t.Stands F) {rank : NodeId → Nat} {bound : Nat}
    (links : ∀ {i p}, t.parent? i = some p → rank p < rank i) (high : ∀ {i}, i < t.size → rank i < bound)
    {n m : Nat} (made : i < t.size) (enough : bound ≤ n + rank i) (enough' : bound ≤ m + rank i) (depth : Nat)
    (alike : t.Alike t') : Reading.dumpLines n depth i t' = Reading.dumpLines m depth i t' := by
  have below := high made
  induction n generalizing m i depth t' with
  | zero => omega
  | succ n ih =>
    cases m with
    | zero => omega
    | succ m =>
      rw [Reading.dumpLines, Reading.dumpLines]
      refine bind_congr_at fun {token t₁} read => ?_
      have alike₁ := alike.trans (Still.keeps read)
      cases token with
      | some token => rfl
      | none =>
        refine bind_congr_at fun {heading t₂} read => ?_
        have alike₂ := alike₁.trans (Still.keeps read)
        refine bind_congr_at fun {children t₃} read => ?_
        rw [children_run (alike₂.size_eq ▸ made)] at read
        cases read
        rw [alike₂.childrenOf_eq]
        have inner : (t.childrenOf i).mapM (Reading.dumpLines n (depth + 1)) t₂ =
            (t.childrenOf i).mapM (Reading.dumpLines m (depth + 1)) t₂ := by
          refine mapM_congr_at fun c among t₃ alike₃ => ?_
          have above := h.mem_childrenOf.mp among
          have lower := links above
          have made := lt_size_of_parent? above
          exact ih made (by omega) (by omega) _ (alike₂.trans alike₃) (high made)
        cases below : t.childrenOf i with
        | nil => rfl
        | cons c children =>
          rw [below] at inner
          exact bind_congr_run inner

end SmithyIdl.SyntaxTree
