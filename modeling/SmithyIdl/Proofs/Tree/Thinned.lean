import SmithyIdl.Proofs.Tree.Forest

/-! # Forests without some of their whitespace

Documentation comments are moved out of closed nodes, and nothing else is. What is left of a forest is a thinned one:
it has all trees of the first but for some nodes of whitespace, at any depth. -/

namespace SmithyIdl

namespace Forest

/-- `G.Thins F`: `G` is `F` without some of its whitespace. -/
inductive Thins : Forest → Forest → Prop where
  | nil : Thins nil nil
  | leaf (id : NodeId) (token : TokenId) {F G : Forest} (rest : Thins G F) : Thins (leaf id token G) (leaf id token F)
  | branch (id : NodeId) (label : Label) {F G I J : Forest} (inner : Thins I J) (rest : Thins G F) :
      Thins (branch id label I G) (branch id label J F)
  | drop (id : NodeId) (inner : Forest) {F G : Forest} (rest : Thins G F) :
      Thins G (branch id (.plain .whitespace) inner F)

namespace Thins

variable {F F' G G' H J : Forest} {id : NodeId} {label : Label}

@[refl] theorem refl (F : Forest) : F.Thins F := by
  induction F with
  | nil => exact nil
  | leaf id token rest ih => exact leaf id token ih
  | branch id label inner rest ihInner ihRest => exact branch id label ihInner ihRest

theorem trans (h : H.Thins G) (h' : G.Thins F) : H.Thins F := by
  induction h' generalizing H with
  | nil => exact h
  | leaf id token _ ih =>
    cases h with
    | leaf _ _ rest => exact leaf id token (ih rest)
  | branch id label _ _ ihInner ihRest =>
    cases h with
    | branch _ _ inner rest => exact branch id label (ihInner inner) (ihRest rest)
    | drop _ _ rest => exact drop id _ (ihRest rest)
  | drop id inner _ ih => exact drop id inner (ih h)

theorem eq_nil (h : G.Thins Forest.nil) : G = Forest.nil := by
  cases h
  rfl

theorem append (h : G.Thins F) (h' : G'.Thins F') : (G ++ G').Thins (F ++ F') := by
  induction h with
  | nil => exact h'
  | leaf id token _ ih => exact leaf id token ih
  | branch id label inner _ _ ih => exact branch id label inner ih
  | drop id inner _ ih => exact drop id inner ih

/-- A thinned forest is cut where the forest is. -/
theorem split (h : H.Thins (F ++ F')) : ∃ G G', H = G ++ G' ∧ G.Thins F ∧ G'.Thins F' := by
  induction F generalizing H with
  | nil => exact ⟨Forest.nil, H, rfl, nil, h⟩
  | leaf id token rest ih =>
    cases h with
    | leaf _ _ h =>
      obtain ⟨G, G', rfl, left, right⟩ := ih h
      exact ⟨_, G', rfl, leaf id token left, right⟩
  | branch id label inner rest _ ih =>
    cases h with
    | branch _ _ inner h =>
      obtain ⟨G, G', rfl, left, right⟩ := ih h
      exact ⟨_, G', rfl, branch id label inner left, right⟩
    | drop _ _ h =>
      obtain ⟨G, G', rfl, left, right⟩ := ih h
      exact ⟨G, G', rfl, drop id inner left, right⟩

/-- What stands in an open place may be thinned. -/
theorem plug (h : G.Thins F) (way : List Frame) : (Forest.plug way G).Thins (Forest.plug way F) := by
  induction way generalizing F G with
  | nil => exact h
  | cons f way ih => exact ih (branch f.id f.label (((refl f.before).append h).append (refl f.after)) nil)

/-- A node other than whitespace stays. -/
theorem one (h : H.Thins (Forest.branch id label J Forest.nil)) (other : label ≠ .plain .whitespace) :
    ∃ I, H = Forest.branch id label I Forest.nil ∧ I.Thins J := by
  cases h with
  | branch _ _ inner rest =>
    obtain rfl := rest.eq_nil
    exact ⟨_, rfl, inner⟩
  | drop => exact absurd rfl other

end Thins

end Forest

end SmithyIdl
