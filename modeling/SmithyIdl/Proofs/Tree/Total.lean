import SmithyIdl.Proofs.Tree.Uncached

/-! # Readers that meet no fault

Where a tree stands and the tokens of its leaves exist, every reader of a node that was made succeeds, whatever was
kept before. -/

namespace SmithyIdl.SyntaxTree

/-- The tree stands, and the tokens of its leaves exist. -/
structure Sound (t : SyntaxTree) (F : Forest) : Prop where
  stands : t.Stands F
  tokens : ∀ i ∈ F.tokens, i < t.tokens.size

/-- However much is kept in `t`, the reader succeeds with a value that meets `Q`. -/
def Succeeds {α : Type} (t : SyntaxTree) (r : Reading α) (Q : α → Prop) : Prop :=
  ∀ t', t.Filled t' → ∃ a t'', r t' = .ok (a, t'') ∧ Q a

variable {α β : Type} {t t' : SyntaxTree} {F F' : Forest} {r : Reading α} {f : α → Reading β} {Q : α → Prop}
  {R : β → Prop} {i : NodeId}

namespace Succeeds

theorem run' (h : t.Succeeds r Q) : ∃ a, r.run' t = .ok a ∧ Q a := by
  obtain ⟨a, t', run, hQ⟩ := h t .refl
  refine ⟨a, ?_, hQ⟩
  change (r t >>= fun (a, _) => Pure.pure a) = _
  rw [run]
  rfl

theorem pure {a : α} (h : Q a) : t.Succeeds (Pure.pure a) Q := fun t' _ => ⟨a, t', rfl, h⟩

theorem bind [Still r] (h : t.Succeeds r Q) (next : ∀ a, Q a → t.Succeeds (f a) R) : t.Succeeds (r >>= f) R :=
  fun t' fills => by
    obtain ⟨a, t₁, run, hQ⟩ := h t' fills
    obtain ⟨b, t₂, run', hR⟩ := next a hQ t₁ (fills.trans (Still.fills run))
    exact ⟨b, t₂, by rw [bind_of_ok run, run'], hR⟩

theorem map [Still r] {g : α → β} (h : t.Succeeds r Q) (imp : ∀ a, Q a → R (g a)) : t.Succeeds (g <$> r) R := by
  rw [map_eq_pure_bind]
  exact h.bind fun a hQ => pure (imp a hQ)

theorem mapM {g : β → Reading α} [∀ b, Still (g b)] {l : List β} (h : ∀ b ∈ l, t.Succeeds (g b) Q) :
    t.Succeeds (l.mapM g) fun as => as.length = l.length := by
  induction l with
  | nil =>
    rw [List.mapM_nil]
    exact pure rfl
  | cons b l ih =>
    rw [List.mapM_cons]
    refine (h b List.mem_cons_self).bind fun a _ => (ih fun b hb => h b (List.mem_cons_of_mem _ hb)).bind fun as same => ?_
    exact pure (congrArg (· + 1) same)

theorem get : t.Succeeds (MonadState.get : Reading SyntaxTree) fun _ => True := fun t' _ => ⟨t', t', rfl, trivial⟩

theorem token {i : TokenId} (made : i < t.tokens.size) : t.Succeeds (Reading.token i) fun _ => True :=
  fun t' fills => by
    have found : t'.tokens[i]? = some t.tokens[i] := by rw [fills.alike.tokens, Array.getElem?_eq_getElem made]
    exact ⟨_, t', by rw [Reading.token, found], trivial⟩

end Succeeds

namespace Sound

theorem filled (h : t.Sound F) (fills : t.Filled t') : t'.Sound F :=
  ⟨h.stands.filled fills, fills.alike.tokens ▸ h.tokens⟩

variable (h : t.Sound F)
include h

/-- The token of a node and its children exist. -/
theorem node (made : i < t.size) : t.Succeeds (Reading.node i) fun n =>
    (∀ token ∈ n.token?, token < t.tokens.size) ∧ ∀ c ∈ n.children, c < t.size := fun t' fills => by
  have h' := h.filled fills
  have size := fills.alike.size_eq
  have made' : i < t'.size := size ▸ made
  obtain ⟨n, found⟩ : ∃ n, t'.nodes[i]? = some n := ⟨_, Array.getElem?_eq_getElem made'⟩
  refine ⟨n, t', node_run found, fun token leaf => ?_, fun c among => ?_⟩
  · obtain ⟨A, way, D, B, rfl, place⟩ := h'.stands.exists_at made'
    rcases place.eq_of_node found with ⟨token', content, rfl⟩ | ⟨label, inner, content, rfl⟩
    · simp only [Node.token?, content, Option.mem_some_iff] at leaf
      refine h.tokens token ?_
      simp [Forest.tokens_plug, leaf]
    · simp [Node.token?, content] at leaf
  · have below : c ∈ t'.childrenOf i := by simpa [childrenOf, found] using among
    exact size ▸ (h'.stands.lt_of_parent? (h'.stands.mem_childrenOf.mp below)).1

theorem tokenIds (made : i < t.size) : t.Succeeds (Reading.tokenIds i) fun ids => ∀ j ∈ ids, j < t.tokens.size :=
  fun t' fills => by
    have h' := h.filled fills
    obtain ⟨A, way, D, B, rfl, place⟩ := h'.stands.exists_at (fills.alike.size_eq ▸ made)
    obtain ⟨t'', run, -⟩ := reads_tokenIds place.inside place.one place.size_ids place.nodup_ids
    refine ⟨_, t'', run, fun j among => h.tokens j ?_⟩
    have below : j ∈ D.tokens := by simpa using among
    simp [Forest.tokens_plug, below]

theorem kind (made : i < t.size) : t.Succeeds (Reading.kind i) fun _ => True :=
  (h.node made).map fun _ _ => trivial

theorem problem? (made : i < t.size) : t.Succeeds (Reading.problem? i) fun _ => True :=
  (h.node made).bind fun _ _ => .pure trivial

theorem children (made : i < t.size) : t.Succeeds (Reading.children i) fun cs => ∀ c ∈ cs, c < t.size :=
  (h.node made).bind fun _ hn => .pure fun c among => hn.2 c (by simpa using among)

theorem leafToken? (made : i < t.size) : t.Succeeds (Reading.leafToken? i) fun _ => True := by
  refine (h.node made).bind fun n hn => ?_
  cases leaf : n.token? with
  | none => exact .pure trivial
  | some ref => exact (Succeeds.token (hn.1 ref leaf)).map fun _ _ => trivial

theorem firstToken? (made : i < t.size) : t.Succeeds (Reading.firstToken? i) fun _ => True := by
  refine (h.tokenIds made).bind fun ids made => ?_
  cases first : ids[0]? with
  | none => exact .pure trivial
  | some ref => exact (Succeeds.token (made ref (Array.mem_of_getElem? first))).map fun _ _ => trivial

theorem lastToken? (made : i < t.size) : t.Succeeds (Reading.lastToken? i) fun _ => True := by
  refine (h.tokenIds made).bind fun ids made => ?_
  cases last : ids.back? with
  | none => exact .pure trivial
  | some ref => exact (Succeeds.token (made ref (Array.mem_of_back? last))).map fun _ _ => trivial

theorem emptyPosition (made : i < t.size) : t.Succeeds (Reading.emptyPosition i) fun _ => True :=
  (h.node made).bind fun _ _ => .pure trivial

theorem start (made : i < t.size) : t.Succeeds (Reading.start i) fun _ => True :=
  (h.firstToken? made).bind fun
    | some _, _ => .pure trivial
    | none, _ => h.emptyPosition made

theorem stop (made : i < t.size) : t.Succeeds (Reading.stop i) fun _ => True :=
  (h.lastToken? made).bind fun
    | some _, _ => .pure trivial
    | none, _ => h.emptyPosition made

theorem range (made : i < t.size) : t.Succeeds (Reading.range i) fun _ => True := by
  have empty : t.Succeeds (do return ByteRange.empty (((← Reading.node i).mark?.map Mark.offset).getD 0)) fun _ => True :=
    (h.node made).bind fun _ _ => .pure trivial
  refine (h.firstToken? made).bind fun first _ => (h.lastToken? made).bind fun last _ => ?_
  cases first with
  | none => exact empty
  | some first =>
    cases last with
    | none => exact empty
    | some last => exact .pure trivial

/-! ### Dumps -/

theorem heading (made : i < t.size) : t.Succeeds (Reading.heading i) fun _ => True :=
  (h.kind made).bind fun _ _ => (h.problem? made).bind fun _ _ => (h.start made).bind fun _ _ =>
    (h.stop made).bind fun _ _ => .pure trivial

theorem dumpLines (n depth : Nat) (made : i < t.size) : t.Succeeds (Reading.dumpLines n depth i) fun _ => True := by
  induction n generalizing depth i with
  | zero => exact .pure trivial
  | succ n ih =>
    unfold Reading.dumpLines
    refine (h.leafToken? made).bind fun token _ => ?_
    cases token with
    | some token => exact .pure trivial
    | none =>
      refine (h.heading made).bind fun _ _ => (h.children made).bind fun children hc => ?_
      split
      · exact .pure trivial
      · exact (Succeeds.mapM fun c among => ih (depth + 1) (hc c among)).bind fun _ _ => .pure trivial

theorem dump (made : i < t.size) : t.Succeeds (Reading.dump i) fun _ => True :=
  Succeeds.get.bind fun t' _ => (h.dumpLines t'.size 0 made).bind fun _ _ => .pure trivial

end Sound

/-! ### Two trees -/

/-- Both readers find something, and what they find belongs together. -/
def Both {α β : Type} (t t' : SyntaxTree) (r : Reading α) (r' : Reading β) (R : α → β → Prop) : Prop :=
  ∃ a a', r.run' t = .ok a ∧ r'.run' t' = .ok a' ∧ R a a'

/-- It is enough to look at readers that keep nothing. -/
theorem Both.of_agrees {α β : Type} {r : Reading α} {r' : Reading β} {x : Uncached α} {x' : Uncached β} {Q : α → Prop}
    {Q' : β → Prop} {R : α → β → Prop} (agrees : Agrees r x) (agrees' : Agrees r' x') (stands : t.Stands F)
    (stands' : t'.Stands F') (reads : t.Succeeds r Q) (reads' : t'.Succeeds r' Q')
    (together : ∀ {a a'}, x t = .ok a → x' t' = .ok a' → R a a') : Both t t' r r' R := by
  obtain ⟨a, run, -⟩ := reads.run'
  obtain ⟨a', run', -⟩ := reads'.run'
  exact ⟨a, a', run, run', together ((agrees.reads stands).symm.trans run) ((agrees'.reads stands').symm.trans run')⟩

end SmithyIdl.SyntaxTree
