import SmithyIdl.Proofs.Tree.Still

/-! # Reading a syntax tree

Readers of a tree that holds a forest find in it what the forest says, whatever was kept before, and change
nothing but what is kept at the node that they read. -/

namespace SmithyIdl.SyntaxTree

variable {t : SyntaxTree} {parent : Option NodeId} {F D : Forest} {d : NodeId}

/-! ### Tokens and nodes below a node -/

theorem foldl_gather (h : t.Holds parent F) {n : Nat} (hn : F.ids.length ≤ n) (seen : Array TokenId) :
    F.roots.foldl (t.gather n) seen = seen ++ F.tokens.toArray := by
  induction F generalizing parent n seen with
  | nil => simp
  | leaf id token rest ih =>
    obtain ⟨⟨kept, node, -⟩, hrest⟩ := h
    simp only [Forest.ids_leaf, List.length_cons] at hn
    obtain ⟨n, rfl⟩ := Nat.exists_eq_add_of_le' (Nat.le_trans (Nat.le_add_left 1 _) hn)
    rw [Forest.roots_leaf, List.foldl_cons, gather, node, ih hrest (by omega)]
    simp
  | branch id label inner rest ihInner ihRest =>
    obtain ⟨⟨kept, node, right⟩, hinner, hrest⟩ := h
    simp only [Forest.ids_branch, List.length_cons, List.length_append] at hn
    obtain ⟨n, rfl⟩ := Nat.exists_eq_add_of_le' (show 1 ≤ n by omega)
    have below : t.gather (n + 1) seen id = seen ++ inner.tokens.toArray := by
      rw [gather, node]
      cases kept with
      | none =>
        have := ihInner hinner (n := n) (by omega) seen
        simpa using this
      | some tokens => simp [right tokens rfl]
    rw [Forest.roots_branch, List.foldl_cons, below, ihRest hrest (by omega)]
    simp

theorem flatMap_descendantsWithin (h : t.Holds parent F) {n : Nat} (hn : F.ids.length ≤ n) :
    (F.roots.flatMap fun i => i :: t.descendantsWithin n i) = F.ids := by
  induction F generalizing parent n with
  | nil => rfl
  | leaf id token rest ih =>
    obtain ⟨⟨kept, node, -⟩, hrest⟩ := h
    simp only [Forest.ids_leaf, List.length_cons] at hn
    obtain ⟨n, rfl⟩ := Nat.exists_eq_add_of_le' (Nat.le_trans (Nat.le_add_left 1 _) hn)
    rw [Forest.roots_leaf, List.flatMap_cons, ih hrest (by omega)]
    simp [descendantsWithin, childrenOf, node, Node.children]
  | branch id label inner rest ihInner ihRest =>
    obtain ⟨⟨kept, node, -⟩, hinner, hrest⟩ := h
    simp only [Forest.ids_branch, List.length_cons, List.length_append] at hn
    obtain ⟨n, rfl⟩ := Nat.exists_eq_add_of_le' (show 1 ≤ n by omega)
    have children : t.childrenOf id = inner.roots := by simp [childrenOf, node, Node.children]
    rw [Forest.roots_branch, List.flatMap_cons, ihRest hrest (by omega), descendantsWithin, children,
      ihInner hinner (by omega)]
    simp

/-- The nodes below the top of a tree. -/
theorem descendants_of_holds {label : Label} {inner : Forest}
    (h : t.Holds parent (.branch d label inner .nil)) (fits : inner.ids.length < t.size) :
    t.descendants d = inner.ids := by
  obtain ⟨⟨kept, node, -⟩, hinner, -⟩ := h
  obtain ⟨n, hn⟩ := Nat.exists_eq_add_of_le' (show 1 ≤ t.size by omega)
  have children : t.childrenOf d = inner.roots := by simp [childrenOf, node, Node.children]
  rw [descendants, hn, descendantsWithin, children, flatMap_descendantsWithin hinner (by omega)]

/-- A token of the forest has a leaf. -/
theorem Holds.exists_leaf (h : t.Holds parent F) {i : TokenId} (among : i ∈ F.tokens) :
    ∃ id ∈ F.ids, t.tag? id = some (.inl i) := by
  induction F generalizing parent with
  | nil => cases among
  | leaf id token rest ih =>
    obtain ⟨⟨kept, node, -⟩, below⟩ := h
    rcases List.mem_cons.mp among with rfl | among
    · exact ⟨id, List.mem_cons_self, by rw [tag?, node]; rfl⟩
    · obtain ⟨j, hj, found⟩ := ih below among
      exact ⟨j, List.mem_cons_of_mem _ hj, found⟩
  | branch id label inner rest ihInner ihRest =>
    obtain ⟨-, within, below⟩ := h
    rcases List.mem_append.mp among with among | among
    · obtain ⟨j, hj, found⟩ := ihInner within among
      exact ⟨j, List.mem_cons_of_mem _ (List.mem_append_left _ hj), found⟩
    · obtain ⟨j, hj, found⟩ := ihRest below among
      exact ⟨j, List.mem_cons_of_mem _ (List.mem_append_right _ hj), found⟩

/-- A node is a child of its parent, unless it stands at the top. -/
theorem Holds.mem_childrenOf (h : t.Holds parent F) {i p : NodeId} (among : i ∈ F.ids) (above : t.parent? i = some p) :
    parent = some p ∧ i ∈ F.roots ∨ i ∈ t.childrenOf p := by
  induction F generalizing parent with
  | nil => cases among
  | leaf id token rest ih =>
    obtain ⟨⟨kept, node, -⟩, below⟩ := h
    rcases List.mem_cons.mp among with rfl | among
    · rw [parent?, node] at above
      exact .inl ⟨above, List.mem_cons_self⟩
    · exact (ih below among).imp_left (And.imp_right (List.mem_cons_of_mem _))
  | branch id label inner rest ihInner ihRest =>
    obtain ⟨⟨kept, node, -⟩, within, below⟩ := h
    rcases List.mem_cons.mp among with rfl | among
    · rw [parent?, node] at above
      exact .inl ⟨above, List.mem_cons_self⟩
    · rcases List.mem_append.mp among with among | among
      · rcases ihInner within among with ⟨same, top⟩ | child
        · obtain rfl := Option.some.inj same
          exact .inr (by simpa [childrenOf, node, Node.children] using top)
        · exact .inr child
      · exact (ihRest below among).imp_left (And.imp_right (List.mem_cons_of_mem _))

theorem node_run {n : Node} (found : t.nodes[d]? = some n) : Reading.node d t = .ok (n, t) := by
  rw [Reading.node, found]

theorem descendantsOfKind_run {n : Node} (found : t.nodes[d]? = some n) (kind : TreeKind) :
    Reading.descendantsOfKind kind d t = .ok ((t.descendants d).filter fun i => t.kind? i = some kind, t) := by
  simp only [Reading.descendantsOfKind, Reading.descendants, Reading.ofKind, bind, StateT.bind, Except.bind,
    node_run found, get, getThe, MonadStateOf.get, StateT.get, pure, Except.pure]
  rfl

theorem errors_run {n : Node} (found : t.nodes[d]? = some n) :
    Reading.errors d t = .ok ((d :: t.descendants d).filter fun i => t.kind? i = some .error, t) := by
  have self : t.kind? d = some n.kind := by rw [kind?, found, Option.map_some]
  simp only [Reading.errors, Reading.kind, bind, StateT.bind, Except.bind, descendantsOfKind_run found, Functor.map,
    StateT.map, node_run found, List.filter_cons, self]
  by_cases error : n.kind = .error
  · simp only [error, pure, Except.pure, if_true, decide_true]
    rfl
  · simp only [error, pure, Except.pure, Option.some.injEq, if_false, decide_false, Bool.false_eq_true]
    rfl

/-- A node that is no error has errors if there are some below it. -/
theorem hasErrors_run {n : Node} (found : t.nodes[d]? = some n) (other : n.kind ≠ .error) :
    (Reading.hasErrors d).run' t = .ok ((t.descendants d).any fun i => t.kind? i = some .error) := by
  have self : t.kind? d = some n.kind := by rw [kind?, found, Option.map_some]
  have nonempty (l : List NodeId) (p : NodeId → Bool) : (!(l.filter p).isEmpty) = l.any p := by
    rw [Bool.eq_iff_iff]
    simp
  have all : (!((d :: t.descendants d).filter fun i => t.kind? i = some .error).isEmpty) =
      (t.descendants d).any fun i => t.kind? i = some .error := by
    rw [nonempty, List.any_cons, self]
    simp [other]
  simp only [StateT.run', Reading.hasErrors, bind, StateT.bind, Except.bind, errors_run found, Functor.map, ← all]
  rfl

/-! ### What readers leave -/

/-- `t'` is `t` but for what is kept at `d`, and that is right if the tree `D` stands there. -/
structure Keeps (t t' : SyntaxTree) (parent : Option NodeId) (D : Forest) (d : NodeId) : Prop where
  tokens : t'.tokens = t.tokens
  size : t'.size = t.size
  others : ∀ i, i ≠ d → t'.nodes[i]? = t.nodes[i]?
  holds : t'.Holds parent D

theorem Keeps.refl (h : t.Holds parent D) : Keeps t t parent D d := ⟨rfl, rfl, fun _ _ => rfl, h⟩

theorem Keeps.trans {t' t'' : SyntaxTree} (h : Keeps t t' parent D d) (h' : Keeps t' t'' parent D d) :
    Keeps t t'' parent D d :=
  ⟨h'.tokens.trans h.tokens, h'.size.trans h.size, fun i hi => (h'.others i hi).trans (h.others i hi), h'.holds⟩

/-- A reader gives `a` and keeps at most the tokens of the tree `D` at `d`. -/
def Reads {α : Type} (r : Reading α) (t : SyntaxTree) (parent : Option NodeId) (D : Forest) (d : NodeId)
    (a : α) : Prop :=
  ∃ t', r t = .ok (a, t') ∧ Keeps t t' parent D d

namespace Reads

variable {α β : Type} {a : α} {b : β} {r : Reading α} {f : α → Reading β}

theorem pure (h : t.Holds parent D) : Reads (Pure.pure a) t parent D d a := ⟨t, rfl, .refl h⟩

theorem bind (h : Reads r t parent D d a)
    (h' : ∀ t', Keeps t t' parent D d → Reads (f a) t' parent D d b) : Reads (r >>= f) t parent D d b := by
  obtain ⟨t', run, keeps⟩ := h
  obtain ⟨t'', run', keeps'⟩ := h' t' keeps
  refine ⟨t'', ?_, keeps.trans keeps'⟩
  change (r t >>= fun (a, t') => f a t') = _
  rw [run]
  exact run'

theorem run' (h : Reads r t parent D d a) : r.run' t = .ok a := by
  obtain ⟨t', run, -⟩ := h
  change (r t >>= fun (a, _) => Pure.pure a) = _
  rw [run]
  rfl

theorem map {g : α → β} (h : Reads r t parent D d a) : Reads (g <$> r) t parent D d (g a) := by
  obtain ⟨t', run, keeps⟩ := h
  refine ⟨t', ?_, keeps⟩
  change (r t >>= fun (a, t') => Pure.pure (g a, t')) = _
  rw [run]
  rfl

end Reads

section
variable (h : t.Holds parent D) (one : D.roots = [d]) (fits : D.ids.length ≤ t.size)
include h one

theorem exists_node_of_one : ∃ kept, t.nodes[d]?.map Node.cache = some kept ∧
    ∀ tokens ∈ kept, tokens = D.tokens.toArray := by
  rcases Forest.eq_of_roots d one with ⟨token, rfl⟩ | ⟨label, inner, rfl⟩
  · obtain ⟨⟨kept, node, right⟩, -⟩ := h
    exact ⟨kept, by rw [node]; rfl, by simpa using right⟩
  · obtain ⟨⟨kept, node, right⟩, -⟩ := h
    exact ⟨kept, by rw [node]; rfl, by simpa using right⟩

theorem holds_keep (nodup : D.ids.Nodup) :
    (t.modify d (Node.withCache (some D.tokens.toArray))).Holds parent D := by
  have top : (t.modify d (Node.withCache (some D.tokens.toArray))).nodes[d]? =
      t.nodes[d]?.map (Node.withCache (some D.tokens.toArray)) := by
    rw [modify_getElem?, if_pos rfl]
  rcases Forest.eq_of_roots d one with ⟨token, rfl⟩ | ⟨label, inner, rfl⟩
  · obtain ⟨⟨kept, node, -⟩, -⟩ := h
    exact ⟨⟨_, by rw [top, node]; rfl, by simp⟩, trivial⟩
  · obtain ⟨⟨kept, node, -⟩, hinner, -⟩ := h
    simp only [Forest.ids_branch, Forest.ids_nil, List.append_nil, List.nodup_cons] at nodup
    refine ⟨⟨_, by rw [top, node]; rfl, by simp⟩, hinner.of_same fun i hi => ?_, trivial⟩
    rw [modify_getElem?, if_neg fun he : d = i => nodup.1 (he ▸ hi)]

include fits

theorem reads_tokenIds (nodup : D.ids.Nodup) :
    Reads (Reading.tokenIds d) t parent D d D.tokens.toArray := by
  obtain ⟨kept, node, right⟩ := exists_node_of_one h one
  cases kept with
  | some tokens => exact ⟨t, by rw [Reading.tokenIds, node, ← right tokens rfl], .refl h⟩
  | none =>
    have found : t.gather t.size #[] d = D.tokens.toArray := by
      have := foldl_gather h fits #[]
      simpa [one] using this
    refine ⟨t.modify d (Node.withCache (some D.tokens.toArray)), by rw [Reading.tokenIds, node, ← found], rfl,
      modify_size .., fun i hi => ?_, holds_keep h one nodup⟩
    rw [modify_getElem?, if_neg (Ne.symm hi)]

end

theorem reads_token (h : t.Holds parent D) {i : TokenId} {token : Token} (found : t.tokens[i]? = some token) :
    Reads (Reading.token i) t parent D d token :=
  ⟨t, by rw [Reading.token, found], .refl h⟩

theorem reads_mapM_token (h : t.Holds parent D) {ids : List TokenId} {found : List Token}
    (tokens : ids.map (t.tokens[·]?) = found.map some) : Reads (ids.mapM Reading.token) t parent D d found := by
  induction ids generalizing found t with
  | nil =>
    cases found with
    | nil => exact .pure h
    | cons token found => cases tokens
  | cons i ids ih =>
    cases found with
    | nil => cases tokens
    | cons token found =>
      obtain ⟨first, others⟩ := List.cons.inj tokens
      rw [List.mapM_cons]
      refine (reads_token h first).bind fun t₁ keeps => ?_
      refine (ih keeps.holds (by rwa [keeps.tokens])).bind fun t₂ keeps' => .pure keeps'.holds

section
variable (h : t.Holds parent D) (one : D.roots = [d]) (fits : D.ids.length ≤ t.size) (nodup : D.ids.Nodup)
include h one fits nodup

theorem reads_firstToken {i : TokenId} {rest : List TokenId} {token : Token} (tokens : D.tokens = i :: rest)
    (found : t.tokens[i]? = some token) : Reads (Reading.firstToken? d) t parent D d (some token) := by
  refine (reads_tokenIds h one fits nodup).bind fun t' keeps => ?_
  have first : D.tokens.toArray[0]? = some i := by simp [tokens]
  rw [first]
  exact (reads_token keeps.holds (keeps.tokens ▸ found)).map

theorem reads_lastToken {i : TokenId} {rest : List TokenId} {token : Token} (tokens : D.tokens = rest ++ [i])
    (found : t.tokens[i]? = some token) : Reads (Reading.lastToken? d) t parent D d (some token) := by
  refine (reads_tokenIds h one fits nodup).bind fun t' keeps => ?_
  have last : D.tokens.toArray.back? = some i := by simp [tokens]
  rw [last]
  exact (reads_token keeps.holds (keeps.tokens ▸ found)).map

theorem reads_tokens {found : List Token} (tokens : D.tokens.map (t.tokens[·]?) = found.map some) :
    Reads (Reading.tokens d) t parent D d found :=
  (reads_tokenIds h one fits nodup).bind fun _ keeps =>
    reads_mapM_token keeps.holds (by rwa [keeps.tokens])

/-- The text of a tree is that of its tokens. -/
theorem reads_text {found : List Token} (tokens : D.tokens.map (t.tokens[·]?) = found.map some) :
    Reads (Reading.text d) t parent D d (String.join (found.map Token.lexeme)) :=
  (reads_tokens h one fits nodup tokens).bind fun _ keeps => .pure keeps.holds

/-- A tree with tokens starts where the first of them does. -/
theorem reads_start {i : TokenId} {rest : List TokenId} {token : Token} (tokens : D.tokens = i :: rest)
    (found : t.tokens[i]? = some token) : Reads (Reading.start d) t parent D d token.start :=
  (reads_firstToken h one fits nodup tokens found).bind fun _ keeps => .pure keeps.holds

/-- A tree with tokens takes the bytes from the first of them to the last. -/
theorem reads_range {i j : TokenId} {rest rest' : List TokenId} {first last : Token}
    (tokens : D.tokens = i :: rest) (tokens' : D.tokens = rest' ++ [j]) (found : t.tokens[i]? = some first)
    (found' : t.tokens[j]? = some last) :
    Reads (Reading.range d) t parent D d (first.range.cover last.range) := by
  refine (reads_firstToken h one fits nodup tokens found).bind fun t' keeps => ?_
  refine (reads_lastToken keeps.holds one (keeps.size ▸ fits) nodup tokens' (keeps.tokens ▸ found')).bind
    fun _ keeps' => .pure keeps'.holds

end

end SmithyIdl.SyntaxTree
