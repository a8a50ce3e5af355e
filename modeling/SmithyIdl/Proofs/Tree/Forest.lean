import SmithyIdl.Tree.Basic

/-! # Forests

A syntax tree names its nodes by indices, so what stands below a node is not a term. A forest is that
term: the trees below a node in order, every node with its name. A frame is a node with one place among
its children left open, and a list of frames, innermost first, is the way from such a place up to the
top. -/

namespace SmithyIdl

/-! ### Items -/

/-- What is made where the cursor stands: a leaf with its token, or the node of an error that is reported there. -/
structure Item where
  id : NodeId
  token? : Option TokenId

/-- `x` was made before `y`, and of two tokens its own is the earlier one. -/
structure Item.Before (x y : Item) : Prop where
  id : x.id < y.id
  token : ∀ i ∈ x.token?, ∀ j ∈ y.token?, i < j

/-- An error that is put around traits, which were read before it is known to be one. -/
def Problem.encloses : Problem → Bool
  | traitsOnApply | danglingTraits => true
  | _ => false

/-- The item of an inner node: errors are items, but for those that are put around traits. -/
def Label.item? (id : NodeId) : Label → Option Item
  | plain _ => none
  | error mark => if mark.problem.encloses then none else some ⟨id, none⟩

theorem Label.item?_eq_some {label : Label} {id : NodeId} {x : Item} (h : label.item? id = some x) : x = ⟨id, none⟩ := by
  cases label with
  | plain kind => cases h
  | error mark =>
    rw [item?] at h
    split at h
    · cases h
    · exact (Option.some.inj h).symm

/-! ### Forests -/

/-- Trees next to each other. -/
inductive Forest where
  | nil
  | leaf (id : NodeId) (token : TokenId) (rest : Forest)
  | branch (id : NodeId) (label : Label) (inner rest : Forest)
deriving DecidableEq

namespace Forest

/-- The trees of one forest before those of another. -/
def append : Forest → Forest → Forest
  | nil, G => G
  | leaf id token rest, G => leaf id token (rest.append G)
  | branch id label inner rest, G => branch id label inner (rest.append G)

instance : Append Forest := ⟨append⟩

/-- The names at the top. -/
def roots : Forest → List NodeId
  | nil => []
  | leaf id _ rest => id :: rest.roots
  | branch id _ _ rest => id :: rest.roots

/-- All names, each before those below it. -/
def ids : Forest → List NodeId
  | nil => []
  | leaf id _ rest => id :: rest.ids
  | branch id _ inner rest => id :: (inner.ids ++ rest.ids)

/-- The tokens of the leaves, in order. -/
def tokens : Forest → List TokenId
  | nil => []
  | leaf _ token rest => token :: rest.tokens
  | branch _ _ inner rest => inner.tokens ++ rest.tokens

/-- The leaves, and the errors that were reported, in order. -/
def items : Forest → List Item
  | nil => []
  | leaf id token rest => ⟨id, token⟩ :: rest.items
  | branch id label inner rest => (label.item? id).toList ++ inner.items ++ rest.items

/-- The items stand in the order in which they were made, and so do their tokens. -/
def Sorted (F : Forest) : Prop := F.items.Pairwise Item.Before

variable (F G H : Forest) (id : NodeId) (token : TokenId) (label : Label)

@[simp] theorem nil_append : nil ++ G = G := rfl

@[simp] theorem leaf_append : leaf id token F ++ G = leaf id token (F ++ G) := rfl

@[simp] theorem branch_append : branch id label F G ++ H = branch id label F (G ++ H) := rfl

@[simp] theorem append_nil : F ++ nil = F := by
  induction F with
  | nil => rfl
  | leaf id token rest ih => rw [leaf_append, ih]
  | branch id label inner rest _ ih => rw [branch_append, ih]

@[simp] theorem append_assoc : F ++ G ++ H = F ++ (G ++ H) := by
  induction F with
  | nil => rfl
  | leaf id token rest ih => rw [leaf_append, leaf_append, leaf_append, ih]
  | branch id label inner rest _ ih => rw [branch_append, branch_append, branch_append, ih]

@[simp] theorem roots_nil : roots nil = [] := rfl
@[simp] theorem roots_leaf : roots (leaf id token F) = id :: F.roots := rfl
@[simp] theorem roots_branch : roots (branch id label F G) = id :: G.roots := rfl
@[simp] theorem ids_nil : ids nil = [] := rfl
@[simp] theorem ids_leaf : ids (leaf id token F) = id :: F.ids := rfl
@[simp] theorem ids_branch : ids (branch id label F G) = id :: (F.ids ++ G.ids) := rfl
@[simp] theorem tokens_nil : tokens nil = [] := rfl
@[simp] theorem tokens_leaf : tokens (leaf id token F) = token :: F.tokens := rfl
@[simp] theorem tokens_branch : tokens (branch id label F G) = F.tokens ++ G.tokens := rfl

@[simp] theorem items_nil : items nil = [] := rfl
@[simp] theorem items_leaf : items (leaf id token F) = ⟨id, token⟩ :: F.items := rfl
@[simp] theorem items_branch : items (branch id label F G) = (label.item? id).toList ++ F.items ++ G.items := rfl

@[simp] theorem roots_append : (F ++ G).roots = F.roots ++ G.roots := by
  induction F with
  | nil => rfl
  | leaf id token rest ih => simp [ih]
  | branch id label inner rest _ ih => simp [ih]

@[simp] theorem ids_append : (F ++ G).ids = F.ids ++ G.ids := by
  induction F with
  | nil => rfl
  | leaf id token rest ih => simp [ih]
  | branch id label inner rest _ ih => simp [ih]

@[simp] theorem tokens_append : (F ++ G).tokens = F.tokens ++ G.tokens := by
  induction F with
  | nil => rfl
  | leaf id token rest ih => simp [ih]
  | branch id label inner rest _ ih => simp [ih]

@[simp] theorem items_append : (F ++ G).items = F.items ++ G.items := by
  induction F with
  | nil => rfl
  | leaf id token rest ih => simp [ih]
  | branch id label inner rest _ ih => simp [ih]

theorem tokens_eq : F.tokens = F.items.filterMap Item.token? := by
  induction F with
  | nil => rfl
  | leaf id token rest ih => simp [ih]
  | branch id label inner rest ihInner ihRest =>
    have none : (label.item? id).toList.filterMap Item.token? = [] := by
      cases h : label.item? id with
      | none => rfl
      | some x =>
        rw [Label.item?_eq_some h]
        rfl
    simp [ihInner, ihRest, none]

variable {F}

theorem Sorted.tokens (h : F.Sorted) : F.tokens.Pairwise (· < ·) := by
  rw [tokens_eq]
  exact h.filterMap _ fun x y before i hi j hj => before.token i hi j hj

theorem Sorted.of_items {F' : Forest} (h : (F ++ G).Sorted) (same : F'.items = F.items) : (F' ++ G).Sorted := by
  rwa [Sorted, items_append, same, ← items_append]

theorem mem_ids_of_mem_items {x : Item} (h : x ∈ F.items) : x.id ∈ F.ids := by
  induction F with
  | nil => cases h
  | leaf id token rest ih =>
    rcases List.mem_cons.mp h with rfl | h
    · exact List.mem_cons_self
    · exact List.mem_cons_of_mem _ (ih h)
  | branch id label inner rest ihInner ihRest =>
    rcases List.mem_append.mp h with h | h
    · rcases List.mem_append.mp h with h | h
      · rw [Label.item?_eq_some (Option.mem_toList.mp h)]
        exact List.mem_cons_self
      · exact List.mem_cons_of_mem _ (List.mem_append_left _ (ihInner h))
    · exact List.mem_cons_of_mem _ (List.mem_append_right _ (ihRest h))

theorem mem_ids_of_mem_roots {i : NodeId} (h : i ∈ F.roots) : i ∈ F.ids := by
  induction F with
  | nil => cases h
  | leaf id token rest ih =>
    rcases List.mem_cons.mp h with rfl | h
    · exact List.mem_cons_self
    · exact List.mem_cons_of_mem _ (ih h)
  | branch id label inner rest _ ih =>
    rcases List.mem_cons.mp h with rfl | h
    · exact List.mem_cons_self
    · exact List.mem_cons_of_mem _ (List.mem_append_right _ (ih h))

theorem eq_nil_of_roots (h : F.roots = []) : F = nil := by
  cases F with
  | nil => rfl
  | leaf => cases h
  | branch => cases h

/-- A forest with one name at the top is one tree. -/
theorem eq_of_roots (h : F.roots = [id]) :
    (∃ token, F = leaf id token nil) ∨ ∃ label inner, F = branch id label inner nil := by
  cases F with
  | nil => cases h
  | leaf i token rest =>
    obtain ⟨rfl, hrest⟩ := List.cons.inj h
    exact Or.inl ⟨token, by rw [eq_nil_of_roots hrest]⟩
  | branch i label inner rest =>
    obtain ⟨rfl, hrest⟩ := List.cons.inj h
    exact Or.inr ⟨label, inner, by rw [eq_nil_of_roots hrest]⟩

end Forest

/-! ### Frames -/

/-- A node with a place among its children left open. -/
structure Frame where
  id : NodeId
  label : Label
  /-- The children before the open place. -/
  before : Forest
  /-- The children behind it. -/
  after : Forest

namespace Forest

/-- Puts a forest into the open place of the innermost frame, and each frame into the next. -/
def plug : List Frame → Forest → Forest
  | [], F => F
  | f :: c, F => plug c (.branch f.id f.label (f.before ++ F ++ f.after) .nil)

@[simp] theorem plug_nil (F : Forest) : plug [] F = F := rfl

@[simp] theorem plug_cons (f : Frame) (c : List Frame) (F : Forest) :
    plug (f :: c) F = plug c (.branch f.id f.label (f.before ++ F ++ f.after) .nil) := rfl

theorem plug_append (c d : List Frame) (F : Forest) : plug (c ++ d) F = plug d (plug c F) := by
  induction c generalizing F with
  | nil => rfl
  | cons f c ih => exact ih _

/-- The names that a frame adds beside its own. -/
def sideIds (c : List Frame) : List NodeId := c.flatMap fun f => f.before.ids ++ f.after.ids

@[simp] theorem sideIds_nil : sideIds [] = [] := rfl

@[simp] theorem sideIds_cons (f : Frame) (c : List Frame) :
    sideIds (f :: c) = f.before.ids ++ f.after.ids ++ sideIds c := rfl

theorem ids_plug (c : List Frame) (F : Forest) :
    (plug c F).ids.Perm (c.map Frame.id ++ sideIds c ++ F.ids) := by
  induction c generalizing F with
  | nil => simp
  | cons f c ih =>
    refine (ih _).trans ?_
    simp only [ids_branch, ids_append, ids_nil, List.append_nil, List.map_cons, sideIds_cons]
    rw [List.perm_iff_count]
    intro a
    simp only [List.count_append, List.count_cons]
    omega

/-- The items before the open place. -/
def itemsBefore : List Frame → List Item
  | [] => []
  | f :: c => itemsBefore c ++ ((f.label.item? f.id).toList ++ f.before.items)

/-- The items behind the open place. -/
def itemsAfter : List Frame → List Item
  | [] => []
  | f :: c => f.after.items ++ itemsAfter c

theorem itemsAfter_append (c d : List Frame) : itemsAfter (c ++ d) = itemsAfter c ++ itemsAfter d := by
  induction c with
  | nil => rfl
  | cons f c ih => simp [itemsAfter, ih]

theorem items_plug (c : List Frame) (F : Forest) :
    (plug c F).items = itemsBefore c ++ F.items ++ itemsAfter c := by
  induction c generalizing F with
  | nil => simp [itemsBefore, itemsAfter]
  | cons f c ih =>
    rw [plug_cons, ih]
    simp [itemsBefore, itemsAfter]

theorem tokens_plug (c : List Frame) (F : Forest) : (plug c F).tokens =
    (itemsBefore c).filterMap Item.token? ++ F.tokens ++ (itemsAfter c).filterMap Item.token? := by
  rw [tokens_eq, tokens_eq, items_plug, List.filterMap_append, List.filterMap_append]

end Forest

end SmithyIdl
