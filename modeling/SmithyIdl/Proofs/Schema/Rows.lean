import SmithyIdl.Proofs.Buffer.Moves
import SmithyIdl.Proofs.Buffer.Runs
import SmithyIdl.Proofs.Schema.Productions

/-! # Rows of symbols

A forest conforms to the schema when the row of the children of each of its nodes matches the production of the
node. While a tree is built this is asked of the closed nodes only; an open one has a row that still grows. Rows
are all that conformity is about, so trees may be changed below as long as the rows above them stay. -/

namespace SmithyIdl

/-- The kind of the node that a symbol is of. -/
def Symbol.kind : Symbol → TreeKind
  | token _ => .token
  | node kind => kind
  | absoluteId => .shapeId

theorem Symbol.kind_ofNode (k : TreeKind) (first : Option TreeKind) : (Symbol.ofNode k first).kind = k := by
  unfold Symbol.ofNode
  split
  · next h => exact h.1.symm
  · rfl

theorem Symbol.ofNode_of_ne {k : TreeKind} (ne : k ≠ .shapeId) (first : Option TreeKind) :
    Symbol.ofNode k first = .node k := if_neg fun h => ne h.1

/-! ### Forests -/

namespace Forest

/-- The kind of the first node at the top. -/
def firstKind : Forest → Option TreeKind
  | nil => none
  | leaf .. => some .token
  | branch _ label .. => some label.kind

/-- What stands at the top. -/
def row (ts : Array Token) : Forest → List Symbol
  | nil => []
  | leaf _ token rest => .token (kindAt ts token) :: rest.row ts
  | branch _ label inner rest => Symbol.ofNode label.kind inner.firstKind :: rest.row ts

/-- The children of all nodes match the productions. -/
def Conforms (ts : Array Token) : Forest → Prop
  | nil => True
  | leaf _ _ rest => rest.Conforms ts
  | branch _ label inner rest =>
    inner.row ts ∈ (Schema.production label.kind).matches' ∧ inner.Conforms ts ∧ rest.Conforms ts

variable {ts : Array Token} {F G : Forest}

@[simp] theorem row_nil : row ts nil = [] := rfl

@[simp] theorem row_leaf (id : NodeId) (token : TokenId) :
    row ts (leaf id token F) = .token (kindAt ts token) :: F.row ts := rfl

@[simp] theorem row_branch (id : NodeId) (label : Label) :
    row ts (branch id label F G) = Symbol.ofNode label.kind F.firstKind :: G.row ts := rfl

@[simp] theorem row_append : (F ++ G).row ts = F.row ts ++ G.row ts := by
  induction F with
  | nil => rfl
  | leaf id token rest ih => simp [ih]
  | branch id label inner rest _ ih => simp [ih]

@[simp] theorem conforms_nil : Conforms ts nil := trivial

@[simp] theorem conforms_leaf (id : NodeId) (token : TokenId) : (leaf id token F).Conforms ts ↔ F.Conforms ts := .rfl

@[simp] theorem conforms_branch (id : NodeId) (label : Label) : (branch id label F G).Conforms ts ↔
    F.row ts ∈ (Schema.production label.kind).matches' ∧ F.Conforms ts ∧ G.Conforms ts := .rfl

@[simp] theorem conforms_append : (F ++ G).Conforms ts ↔ F.Conforms ts ∧ G.Conforms ts := by
  induction F with
  | nil => simp
  | leaf id token rest ih => simpa using ih
  | branch id label inner rest _ ih => simp [ih, and_assoc]

/-- The row of a forest says of what kind its first node is. -/
theorem firstKind_eq (ts : Array Token) (F : Forest) : F.firstKind = (F.row ts).head?.map Symbol.kind := by
  cases F with
  | nil => rfl
  | leaf id token rest => rfl
  | branch id label inner rest => rw [row_branch, List.head?_cons, Option.map_some, Symbol.kind_ofNode, firstKind]

/-- What stands in an open place may be replaced by a forest with the same row. -/
theorem conforms_plug (same : G.row ts = F.row ts) (c : List Frame) (h : (plug c F).Conforms ts) :
    F.Conforms ts ∧ (plug c G).row ts = (plug c F).row ts ∧ (G.Conforms ts → (plug c G).Conforms ts) := by
  induction c generalizing F G with
  | nil => exact ⟨h, same, id⟩
  | cons f c ih =>
    have inner : (f.before ++ G ++ f.after).row ts = (f.before ++ F ++ f.after).row ts := by simp [same]
    have first : (f.before ++ G ++ f.after).firstKind = (f.before ++ F ++ f.after).firstKind := by
      rw [firstKind_eq ts, firstKind_eq ts, inner]
    obtain ⟨⟨row, below, -⟩, rows, whole⟩ :=
      ih (F := .branch f.id f.label (f.before ++ F ++ f.after) .nil)
        (G := .branch f.id f.label (f.before ++ G ++ f.after) .nil) (by rw [row_branch, row_branch, first]) h
    rw [conforms_append, conforms_append] at below
    refine ⟨below.1.2, rows, fun conf => whole ⟨inner ▸ row, ?_, trivial⟩⟩
    rw [conforms_append, conforms_append]
    exact ⟨⟨below.1.1, conf⟩, below.2⟩

end Forest

/-! ### Matching -/

namespace Schema

variable {u : List Symbol} {r r' : Rows}

theorem mem_tok {k : TokenKind} : u ∈ (tok k).matches' ↔ u = [.token k] := .rfl

theorem mem_one {k : TreeKind} : u ∈ (one k).matches' ↔ u = [.node k] := .rfl

theorem mem_add : u ∈ (r + r').matches' ↔ u ∈ r.matches' ∨ u ∈ r'.matches' := .rfl

theorem mem_anyOf {rs : List Rows} : u ∈ (anyOf rs).matches' ↔ ∃ r ∈ rs, u ∈ r.matches' := by
  induction rs with
  | nil => exact ⟨fun never => never.elim, fun h => nomatch h⟩
  | cons r rs ih => rw [anyOf, List.foldr_cons, mem_add, ← anyOf, ih, List.exists_mem_cons_iff]

theorem matches_sequence_one (r : Rows) : (sequence [r]).matches' = r.matches' := mul_one r.matches'

theorem matches_sequence_append (rs qs : List Rows) :
    (sequence (rs ++ qs)).matches' = (sequence rs).matches' * (sequence qs).matches' := by
  induction rs with
  | nil => exact (one_mul _).symm
  | cons r rs ih =>
    calc (sequence (r :: rs ++ qs)).matches'
      _ = r.matches' * (sequence (rs ++ qs)).matches' := rfl
      _ = (sequence (r :: rs)).matches' * (sequence qs).matches' := by rw [ih, ← mul_assoc]; rfl

theorem mem_optional_mul (r r' : Rows) : ∀ u ∈ r'.matches', u ∈ (optional r * r').matches' :=
  fun u hu => ⟨[], .inl rfl, u, hu, rfl⟩

theorem mem_optional_mul_of_mul (r r' : Rows) : ∀ u ∈ (r * r').matches', u ∈ (optional r * r').matches' :=
  fun _ ⟨first, hf, rest, hr, same⟩ => ⟨first, .inr hf, rest, hr, same⟩

end Schema

/-! ### Productions that forget a symbol -/

namespace Schema

/-- From a row that matches, an occurrence of the symbol can be left out. -/
def Forgets (s : Symbol) (r : Rows) : Prop := ∀ xs ys, xs ++ s :: ys ∈ r.matches' → xs ++ ys ∈ r.matches'

variable {s t : Symbol} {r r' : Rows}

namespace Forgets

theorem char (ne : t ≠ s) : Forgets s (.char t) := by
  intro xs ys h
  have one : xs ++ s :: ys = [t] := h
  have among : s ∈ [t] := one ▸ List.mem_append_right _ List.mem_cons_self
  exact absurd (List.mem_singleton.mp among).symm ne

theorem one : Forgets s 1 := by
  intro xs ys h
  have none : xs ++ s :: ys = [] := h
  simp at none

theorem optional (s : Symbol) : Forgets s (optional (.char s)) := by
  intro xs ys h
  rcases h with h | h
  · have none : xs ++ s :: ys = [] := h
    simp at none
  · have one : xs ++ s :: ys = [s] := h
    cases xs with
    | nil =>
      obtain rfl : ys = [] := by simpa using one
      exact .inl rfl
    | cons x xs => simp at one

theorem add (h : Forgets s r) (h' : Forgets s r') : Forgets s (r + r') := by
  rintro xs ys (among | among)
  · exact .inl (h xs ys among)
  · exact .inr (h' xs ys among)

/-- Where a row is cut in two, the symbol is in one of the parts. -/
theorem split {xs ys us vs : List Symbol} (cut : us ++ vs = xs ++ s :: ys) :
    (∃ ws, us = xs ++ s :: ws ∧ ys = ws ++ vs) ∨ ∃ ws, xs = us ++ ws ∧ vs = ws ++ s :: ys := by
  rcases List.append_eq_append_iff.mp cut with ⟨ws, left, right⟩ | ⟨ws, left, right⟩
  · exact .inr ⟨ws, left, right⟩
  · cases ws with
    | nil => exact .inr ⟨[], by simpa using left.symm, by simpa using right.symm⟩
    | cons w ws =>
      obtain ⟨rfl, rest⟩ := List.cons.inj right
      exact .inl ⟨ws, left, rest⟩

theorem mul (h : Forgets s r) (h' : Forgets s r') : Forgets s (r * r') := by
  rintro xs ys ⟨us, hu, vs, hv, cut⟩
  rcases split cut with ⟨ws, rfl, rfl⟩ | ⟨ws, rfl, rfl⟩
  · exact ⟨xs ++ ws, h xs ws hu, vs, hv, by simp⟩
  · exact ⟨us, hu, ws ++ ys, h' ws ys hv, by simp⟩

theorem star (h : Forgets s r) : Forgets s r.star := by
  intro xs ys hw
  obtain ⟨words, whole, among⟩ := hw
  refine Language.mem_kstar.mpr ?_
  induction words generalizing xs with
  | nil => simp at whole
  | cons w words ih =>
    obtain ⟨first, rest⟩ := List.forall_mem_cons.mp among
    rcases split whole.symm with ⟨ws, rfl, rfl⟩ | ⟨ws, rfl, right⟩
    · exact ⟨(xs ++ ws) :: words, by simp, List.forall_mem_cons.mpr ⟨h xs ws first, rest⟩⟩
    · obtain ⟨words', joined, among'⟩ := ih ws right.symm rest
      exact ⟨w :: words', by simp [joined], List.forall_mem_cons.mpr ⟨first, among'⟩⟩

theorem anyOf {rs : List Rows} (h : ∀ r ∈ rs, Forgets s r) : Forgets s (anyOf rs) := by
  induction rs with
  | nil => exact fun _ _ never => never.elim
  | cons r rs ih =>
    obtain ⟨first, rest⟩ := List.forall_mem_cons.mp h
    exact first.add (ih rest)

theorem sequence {rs : List Rows} (h : ∀ r ∈ rs, Forgets s r) : Forgets s (sequence rs) := by
  induction rs with
  | nil => exact one
  | cons r rs ih =>
    obtain ⟨first, rest⟩ := List.forall_mem_cons.mp h
    exact first.mul (ih rest)

end Forgets

/-- The nodes that documentation comments are taken out of. -/
def docHolders : List TreeKind := [.lineBreak, .shapeMember, .enumMember]

theorem production_forgets {k : TreeKind} (holder : k ∈ docHolders) : Forgets (.node .whitespace) (production k) := by
  have token (kind : TokenKind) : Forgets (.node .whitespace) (tok kind) := .char (by simp)
  have node (kind : TreeKind) (ne : kind ≠ .whitespace) : Forgets (.node .whitespace) (one kind) := .char (by simpa)
  have space : Forgets (.node .whitespace) space := .optional _
  have traits : Forgets (.node .whitespace) traits := .add .one (node _ (by decide))
  have trailing : Forgets (.node .whitespace) trailing := .add (node _ (by decide)) (.sequence (by simp [space]))
  simp only [docHolders, List.mem_cons, List.not_mem_nil, or_false] at holder
  rcases holder with rfl | rfl | rfl
  · have starts : Forgets (.node .whitespace) (anyOf [tok .newline, tok .comment, tok .docComment]) :=
      .anyOf (by simp [token])
    have goesOn : Forgets (.node .whitespace) whitespaceToken.star := .star (.anyOf (by simp [token]))
    exact .sequence (by simp [starts, goesOn, space])
  · have target : Forgets (.node .whitespace) (anyOf (memberTargets.map one)) := .anyOf (by simp [memberTargets, node])
    exact .sequence (by simp [traits, space, Forgets.sequence, target, trailing])
  · have name := node .shapeMemberName (by decide)
    exact .sequence (by simp [traits, space, Forgets.sequence, name, trailing])

end Schema

/-! ### Views -/

namespace View

variable {ts : Array Token} {v w x : View} {u u' : List Symbol} {exact : Prop}

/-- All closed nodes conform. -/
structure Tidy (ts : Array Token) (v : View) : Prop where
  open' : ∀ n ∈ v.spine, n.children.Conforms ts
  loose : v.loose.Conforms ts

/-- The rows of the open nodes around the innermost one. -/
def outerRows (ts : Array Token) (v : View) : List (List Symbol) := v.outer.map fun n => n.children.row ts

/-- The row of the innermost open node goes on with `u`, and no other changes. If `kept` holds, this comes of new
    children alone. -/
structure Gains (kept : Prop) (ts : Array Token) (v : View) (u : List Symbol) (w : View) : Prop where
  names : w.names = v.names
  loose : w.loose = v.loose
  row : w.inner.children.row ts = v.inner.children.row ts ++ u
  outer : w.outerRows ts = v.outerRows ts
  grown : kept → ∃ F, w = v.grow F

namespace Gains

theorem refl (v : View) : v.Gains exact ts [] v := ⟨rfl, rfl, by simp, rfl, fun _ => ⟨.nil, v.grow_nil.symm⟩⟩

theorem trans (h : v.Gains exact ts u w) (h' : w.Gains exact ts u' x) : v.Gains exact ts (u ++ u') x where
  names := h'.names.trans h.names
  loose := h'.loose.trans h.loose
  row := by rw [h'.row, h.row, List.append_assoc]
  outer := h'.outer.trans h.outer
  grown only := by
    obtain ⟨F, rfl⟩ := h.grown only
    obtain ⟨G, rfl⟩ := h'.grown only
    exact ⟨F ++ G, v.grow_grow F G⟩

theorem grow (v : View) (F : Forest) : v.Gains exact ts (F.row ts) (v.grow F) :=
  ⟨rfl, rfl, Forest.row_append, rfl, fun _ => ⟨F, rfl⟩⟩

/-- A node that is closed is one child more. -/
theorem leave {id : NodeId} {label : Label} (h : (v.enter id label).Gains exact ts u w) :
    v.Gains exact ts [Symbol.ofNode label.kind w.inner.children.firstKind] w.leave := by
  obtain ⟨⟨i, l, F⟩, outer, L⟩ := w
  obtain ⟨name, names⟩ := List.cons.inj h.names
  cases name
  have rows := h.outer
  obtain _ | ⟨g, outer⟩ := outer
  · cases names
  · obtain ⟨here, around⟩ := List.cons.inj rows
    refine ⟨names, h.loose, ?_, around, fun only => ?_⟩
    · change (g.children ++ .branch id label F .nil).row ts = _
      change g.children.row ts = v.inner.children.row ts at here
      rw [Forest.row_append, here]
      rfl
    · obtain ⟨G, same⟩ := h.grown only
      exact ⟨.branch id label G .nil, same ▸ v.enter_grow_leave G id label⟩

end Gains

/-- The node that was closed last is the last child. -/
theorem exists_leave {id : NodeId} {label : Label} (h : w.names = (id, label) :: v.names) :
    ∃ F, w.leave.inner.children = F ++ .branch id label w.inner.children .nil := by
  obtain ⟨⟨i, l, G⟩, outer, L⟩ := w
  obtain ⟨name, names⟩ := List.cons.inj h
  cases name
  obtain _ | ⟨g, outer⟩ := outer
  · cases names
  · exact ⟨g.children, rfl⟩

namespace Tidy

theorem grow (h : v.Tidy ts) {F : Forest} (conf : F.Conforms ts) : (v.grow F).Tidy ts := by
  obtain ⟨inner, outer⟩ := List.forall_mem_cons.mp h.open'
  exact ⟨List.forall_mem_cons.mpr ⟨Forest.conforms_append.mpr ⟨inner, conf⟩, outer⟩, h.loose⟩

theorem enter (h : v.Tidy ts) (id : NodeId) (label : Label) : (v.enter id label).Tidy ts :=
  ⟨List.forall_mem_cons.mpr ⟨trivial, h.open'⟩, h.loose⟩

theorem leave (h : v.Tidy ts)
    (conf : v.inner.children.row ts ∈ (Schema.production v.inner.label.kind).matches') : v.leave.Tidy ts := by
  obtain ⟨⟨i, l, F⟩, _ | ⟨g, outer⟩, L⟩ := v
  · exact h
  obtain ⟨inner, outer⟩ := List.forall_mem_cons.mp h.open'
  obtain ⟨next, outer⟩ := List.forall_mem_cons.mp outer
  refine ⟨List.forall_mem_cons.mpr ⟨Forest.conforms_append.mpr ⟨next, conf, inner, trivial⟩, outer⟩, h.loose⟩

end Tidy

end View

/-! ### Documentation comments -/

/-- A node that documentation comments can be taken out of. -/
def HoldsDocs (label : Option Label) : Prop := ∃ k ∈ Schema.docHolders, label = some (.plain k)

namespace View

variable {v : View} {docs : Option NodeId}

/-- The documentation comments, if any, end the tree and stand in a closed node. -/
abbrev Held (v : View) (docs : Option NodeId) : Prop := v.AwaitsIn HoldsDocs docs

/-- The documentation comments, if any, are the last child of the innermost node, or stand in a closed one. -/
def Pends (v : View) (docs : Option NodeId) : Prop :=
  ∀ d ∈ docs, (∃ F G, v.inner.children = F ++ .branch d (.plain .whitespace) G .nil) ∨ v.Held (some d)

theorem Pends.none : v.Pends none := fun _ h => nomatch h

theorem AwaitsIn.pends (h : v.Held docs) : v.Pends docs := by
  rintro d rfl
  exact .inr h

theorem AwaitsIn.leave_held (h : v.Held docs) : v.leave.Held docs :=
  AwaitsIn.leave h fun ⟨_, _, never⟩ => nomatch never

/-- Documentation comments at the end of a node stand in it when it is closed. -/
theorem Pends.leave_held (h : v.Pends docs) {k : TreeKind} (label : v.inner.label = .plain k)
    (holder : k ∈ Schema.docHolders) (open' : v.outer ≠ []) : v.leave.Held docs := by
  intro d hd
  rcases h d hd with ⟨F, G, last⟩ | held
  · obtain ⟨⟨i, l, H⟩, _ | ⟨g, outer⟩, L⟩ := v
    · exact absurd rfl open'
    obtain rfl : l = .plain k := label
    obtain rfl : H = _ := last
    have inside : (g.children ++ .branch i (.plain k) (F ++ .branch d (.plain .whitespace) G .nil) .nil) = g.children ++
        Forest.plug [⟨i, .plain k, F, .nil⟩] (.branch d (.plain .whitespace) G .nil) ++ .nil := by simp
    exact ⟨_, _, .here inside ⟨k, holder, rfl⟩ rfl rfl⟩
  · exact held.leave_held d rfl

end View

section
variable {ts : Array Token} {d : NodeId} {D : Forest} {spine spine' : List OpenNode}

/-- Without the documentation comments the node that they stand in conforms too. -/
theorem Forest.Conforms.without_docs {i : NodeId} {k : TreeKind} {F G inner : Forest} (holder : k ∈ Schema.docHolders)
    (h : (branch i (.plain k) (F ++ branch d (.plain .whitespace) inner nil ++ G) nil).Conforms ts) :
    (branch d (.plain .whitespace) inner nil).Conforms ts ∧ (branch i (.plain k) (F ++ nil ++ G) nil).Conforms ts := by
  obtain ⟨row, below, -⟩ := h
  rw [conforms_append, conforms_append] at below
  have whitespace : (branch d (.plain .whitespace) inner nil).row ts = [.node .whitespace] := rfl
  rw [row_append, row_append, whitespace, List.append_assoc] at row
  have shorter := Schema.production_forgets holder _ _ row
  refine ⟨below.1.2, ?_, ?_, trivial⟩
  · rw [append_nil, row_append]
    exact shorter
  · rw [append_nil, conforms_append]
    exact ⟨below.1.1, below.2⟩

/-- Without the documentation comments the rows of the open nodes are the same, and all closed nodes conform. -/
theorem DocsOut.tidy (h : DocsOut HoldsDocs d D spine spine') (conf : ∀ n ∈ spine, n.children.Conforms ts) :
    (D.Conforms ts ∧ D.row ts = [.node .whitespace]) ∧ (∀ n ∈ spine', n.children.Conforms ts) ∧
      spine'.map (fun n => n.children.row ts) = spine.map fun n => n.children.row ts := by
  induction h with
  | @here n outer before after inner way children placed _ _ =>
    obtain ⟨first, rest⟩ := List.forall_mem_cons.mp conf
    obtain _ | ⟨⟨i, l, F, G⟩, way⟩ := way
    · obtain ⟨_, _, never⟩ := placed
      cases never
    obtain ⟨k, holder, label⟩ := placed
    obtain rfl : l = .plain k := Option.some.inj label
    have ne : k ≠ .shapeId := by
      rintro rfl
      simp [Schema.docHolders] at holder
    have same : (Forest.branch i (.plain k) (F ++ .nil ++ G) .nil).row ts =
        (Forest.branch i (.plain k) (F ++ .branch d (.plain .whitespace) inner .nil ++ G) .nil).row ts := by
      rw [Forest.row_branch, Forest.row_branch, Symbol.ofNode_of_ne (k := Label.kind (.plain k)) ne,
        Symbol.ofNode_of_ne (k := Label.kind (.plain k)) ne]
    rw [children, Forest.conforms_append, Forest.conforms_append] at first
    obtain ⟨⟨left, middle⟩, right⟩ := first
    obtain ⟨within, rows, whole⟩ := Forest.conforms_plug same way middle
    obtain ⟨docs, shorter⟩ := within.without_docs holder
    refine ⟨⟨docs, rfl⟩, List.forall_mem_cons.mpr ⟨?_, rest⟩, ?_⟩
    · rw [Forest.conforms_append, Forest.conforms_append]
      exact ⟨⟨left, whole shorter⟩, right⟩
    · rw [List.map_cons, List.map_cons, children]
      simp only [Forest.row_append, Forest.plug_cons, rows]
  | deeper _ _ _ ih =>
    obtain ⟨first, rest⟩ := List.forall_mem_cons.mp conf
    obtain ⟨docs, conf', rows⟩ := ih rest
    exact ⟨docs, List.forall_mem_cons.mpr ⟨first, conf'⟩, by rw [List.map_cons, List.map_cons, rows]⟩

end

end SmithyIdl
