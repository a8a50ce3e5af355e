import SmithyIdl.Proofs.Buffer.Unique
import SmithyIdl.Proofs.ErrorCount
import SmithyIdl.Proofs.Tree.Links
import SmithyIdl.Proofs.Trivia.Model

/-! # Trivia in a tree without errors

The trees that the grammar adds are orderly, and so is the tree of a file without errors. There every statement, member
and property is found at its place, with what is said of its children. -/

namespace SmithyIdl

/-! ### Productions -/

/-- Nodes of these kinds can be without tokens. -/
@[reducible]
def TreeKind.isSection : TreeKind → Bool
  | idl | controlSection | metadataSection | shapeSection | useSection | shapeStatements => true
  | _ => false

/-- Whether a symbol is that of trivia. -/
def Symbol.isTrivia : Symbol → Bool
  | token kind => kind.isTrivia
  | _ => false

namespace Schema

open RegularExpression (matchEpsilon)

/-- Below lower nodes there are only lower ones. -/
theorem symbols_lower {kind : TreeKind} (lower : kind.isLower = true) :
    ∀ s ∈ symbols (production kind), s.kind.isLower = true := by
  cases kind <;> first | exact (Bool.noConfusion lower) | decide

/-- All other nodes begin with a token or such a node. -/
theorem firsts_filled {kind : TreeKind} (filled : kind.isSection = false) :
    (production kind).matchEpsilon = false ∧ ∀ s ∈ firsts (production kind), s.kind.isSection = false := by
  cases kind <;> first | exact (Bool.noConfusion filled) | decide

/-- The nodes around a statement of a shape stand in one kind of node each, and the root in none. -/
theorem mem_symbols_kind {kind : TreeKind} :
    (.idl ∉ (symbols (production kind)).map Symbol.kind) ∧
    (.shapeSection ∈ (symbols (production kind)).map Symbol.kind → kind = .idl) ∧
    (.shapeStatements ∈ (symbols (production kind)).map Symbol.kind → kind = .shapeSection) ∧
    (.shapeOrApplyStatement ∈ (symbols (production kind)).map Symbol.kind → kind = .shapeStatements) ∧
    (.shapeStatement ∈ (symbols (production kind)).map Symbol.kind → kind = .shapeOrApplyStatement) := by
  cases kind <;> decide

/-- Whitespace has tokens of trivia. -/
theorem symbols_whitespace : ∀ s ∈ symbols (production .whitespace), s.isTrivia = true := by decide

end Schema

namespace Forest

variable {ts : Array Token} {D F : Forest} {s : Symbol} {i : TokenId}

/-- What begins with a node that is no section begins with a token. -/
theorem tokens_ne_nil (conf : F.Conforms ts) (first : (F.row ts).head? = some s) (filled : s.kind.isSection = false) :
    F.tokens ≠ [] := by
  induction F generalizing s with
  | nil => cases first
  | leaf => exact List.cons_ne_nil _ _
  | branch id label inner rest ih =>
    obtain ⟨row, below, -⟩ := conf
    cases first
    rw [Symbol.kind_ofNode] at filled
    obtain ⟨some, firsts⟩ := Schema.firsts_filled filled
    cases heads : (inner.row ts).head? with
    | none =>
      rw [List.head?_eq_none_iff.mp heads] at row
      exact absurd (Schema.matchEpsilon_of_nil row) (by simp [some])
    | some z => exact List.append_ne_nil_of_left_ne_nil (ih below heads (firsts z (Schema.mem_firsts row heads))) _

/-- Where something stands in an orderly tree that could not stand below a lower node, it is orderly. -/
theorem Orderly.plugged {way : List Frame} (h : (plug way D).Orderly ts) (conf : (plug way D).Conforms ts)
    (among : s ∈ D.row ts) (upper : s.kind.isLower = false) : D.Orderly ts := by
  induction way generalizing D s with
  | nil => exact h
  | cons f way ih =>
    obtain ⟨row, -⟩ := (conforms_plug rfl way conf).1
    have above : f.label.kind.isLower = false := by
      by_contra lower
      have lower := Schema.symbols_lower (Bool.not_eq_false _ ▸ lower) s (Schema.mem_symbols row (by simp [among]))
      exact absurd (lower.symm.trans upper) Bool.noConfusion
    have around := ih h conf (s := .ofNode f.label.kind (f.before ++ D ++ f.after).firstKind) (by simp)
      (by rwa [Symbol.kind_ofNode])
    obtain ⟨-, inside⟩ := around.1 above
    simp only [orderly_append] at inside
    exact inside.1.2

/-- Where all children are trivia, every token is a child. -/
theorem exists_leaf_of_trivia (only : ∀ s ∈ F.row ts, s.isTrivia = true) (among : i ∈ F.tokens) :
    (kindAt ts i).isTrivia = true ∧ ∃ X l Y, F = X ++ leaf l i nil ++ Y := by
  induction F with
  | nil => cases among
  | leaf id token rest ih =>
    obtain ⟨here, only⟩ := List.forall_mem_cons.mp only
    rcases List.mem_cons.mp among with rfl | among
    · exact ⟨here, nil, id, rest, rfl⟩
    · obtain ⟨kind, X, l, Y, rfl⟩ := ih only among
      exact ⟨kind, leaf id token X, l, Y, rfl⟩
  | branch id label inner rest =>
    obtain ⟨here, -⟩ := List.forall_mem_cons.mp only
    unfold Symbol.ofNode at here
    split at here <;> cases here

theorem whitespace_only (row : F.row ts ∈ (Schema.production .whitespace).matches') :
    ∀ s ∈ F.row ts, s.isTrivia = true := fun s among => Schema.symbols_whitespace s (Schema.mem_symbols row among)

/-- What begins with a token that is no trivia begins with a tree that is no whitespace and begins with this token. -/
theorem exists_first (conf : F.Conforms ts) (filled : ∀ s ∈ F.row ts, s.kind.isSection = false)
    (first : F.tokens.head? = some i) (other : (kindAt ts i).isTrivia = false) :
    ∃ c E rest, F = E ++ rest ∧ E.roots = [c] ∧ E.tokens.head? = some i ∧
      ∃ s, E.row ts = [s] ∧ s ∈ F.row ts ∧ s.kind ≠ .whitespace := by
  cases F with
  | nil => cases first
  | leaf id token rest => exact ⟨id, leaf id token nil, rest, rfl, rfl, first, _, rfl, List.mem_cons_self, nofun⟩
  | branch id label inner rest =>
    obtain ⟨row, below, -⟩ := conf
    have one : (branch id label inner nil).Conforms ts := ⟨row, below, trivial⟩
    have head : inner.tokens.head? = some i := by
      have some := tokens_ne_nil one rfl (filled _ List.mem_cons_self)
      rw [tokens_branch, tokens_nil, List.append_nil] at some
      obtain ⟨k, ks, tokens⟩ := List.exists_cons_of_ne_nil some
      rw [tokens_branch, tokens] at first
      rw [tokens]
      exact first
    refine ⟨id, branch id label inner nil, rest, rfl, rfl, by simpa using head, _, rfl, List.mem_cons_self,
      fun white => ?_⟩
    rw [Symbol.kind_ofNode] at white
    have trivia := (exists_leaf_of_trivia (whitespace_only (white ▸ row)) (List.mem_of_mem_head? head)).1
    exact absurd (trivia.symm.trans other) Bool.noConfusion

end Forest

/-! ### Places -/

namespace SyntaxTree

open Forest

variable {t : SyntaxTree} {way : List Frame} {D F : Forest} {i l l' : NodeId} {k : TokenId}

/-- A tree whose first token is known starts with it. -/
theorem At.firstToken (h : t.At way D i) (first : D.tokens.head? = some k) {u : Token} (found : t.tokens[k]? = some u) :
    (Reading.firstToken? i).run' t = .ok (some u) := by
  obtain ⟨rest, tokens⟩ := List.head?_eq_some_iff.mp first
  exact (reads_firstToken h.inside h.one h.size_ids h.nodup_ids tokens found).run'

theorem At.kind?_eq (h : t.At way D i) (ts : Array Token) {s : Symbol} (row : D.row ts = [s]) :
    t.kind? i = some s.kind := by
  have inside := h.inside
  rcases eq_of_roots i h.one with ⟨token, rfl⟩ | ⟨label, inner, rfl⟩
  · obtain ⟨⟨kept, node, -⟩, -⟩ := inside
    obtain rfl := (List.cons.inj row).1
    rw [kind?, node]
    rfl
  · obtain ⟨⟨kept, node, -⟩, -⟩ := inside
    obtain rfl := (List.cons.inj row).1
    rw [kind?, node, Symbol.kind_ofNode]
    rfl

theorem At.tokens (h : t.At way D i) {us : List Token} (found : D.tokens.map (t.tokens[·]?) = us.map some) :
    (Reading.tokens i).run' t = .ok us :=
  (reads_tokens h.inside h.one h.size_ids h.nodup_ids found).run'

/-- A token has one leaf. -/
theorem Stands.leaf_unique (h : t.Stands F) (sorted : F.Sorted) (leaf : t.tag? l = some (.inl k))
    (leaf' : t.tag? l' = some (.inl k)) : l = l' := by
  have item {l : NodeId} (leaf : t.tag? l = some (.inl k)) : ⟨l, some k⟩ ∈ F.items := by
    obtain ⟨n, found, tag⟩ := Option.map_eq_some_iff.mp leaf
    obtain ⟨A, way, D, B, rfl, place⟩ := h.exists_at (lt_size_of_tag? leaf)
    rcases place.eq_of_node found with ⟨token, content, rfl⟩ | ⟨label, inner, content, rfl⟩
    · rw [Node.tag, content] at tag
      cases tag
      simp [items_plug]
    · rw [Node.tag, content] at tag
      cases tag
  obtain ⟨us, vs, split⟩ := List.append_of_mem (item leaf)
  have among := item leaf'
  rw [Forest.Sorted, split, List.pairwise_append] at sorted
  obtain ⟨-, later, before⟩ := sorted
  rw [split] at among
  rcases List.mem_append.mp among with among | among
  · exact absurd ((before _ among _ List.mem_cons_self).token k rfl k rfl) (Nat.lt_irrefl k)
  · rcases List.mem_cons.mp among with same | among
    · exact (congrArg Item.id same).symm
    · exact absurd (((List.pairwise_cons.mp later).1 _ among).token k rfl k rfl) (Nat.lt_irrefl k)

end SyntaxTree

/-! ### Files -/

/-- The tree of a file without errors conforms to the schema and is orderly. -/
theorem exists_orderly (filename text : String) (maxDepth : Nat) :
    ∃ b, parse filename text maxDepth = .ok ⟨filename, b.tree⟩ ∧
      (ParsedModel.hasErrors ⟨filename, b.tree⟩ = .ok false → ∃ F, Grammar.Finished b text F .nil ∧
        (Forest.branch SyntaxTree.root (.plain .idl) F .nil).Conforms (tokens text).toArray ∧
          F.Orderly (tokens text).toArray) := by
  obtain ⟨b, F, L, run, finished, parsed, sound⟩ := exists_run filename text maxDepth
  refine ⟨b, parsed, fun none => ?_⟩
  obtain ⟨G, finished, conf⟩ := finished.conforming run (sound none)
  have start : (Buffer.ofText filename text maxDepth).Gathers (tokens text).toArray
      ⟨⟨SyntaxTree.root, .plain .idl, .nil⟩, [], .nil⟩ :=
    ⟨⟨text, rfl⟩, Grammar.ofText_shows filename text maxDepth, rfl, rfl⟩
  obtain ⟨H, gathers, orderly⟩ :=
    Grammar.model_orders start (Grammar.ofText_builds filename text maxDepth) run (sound none)
  have same := finished.shown.unique gathers.shown rfl rfl
  obtain rfl : H = G := congrArg (·.inner.children) same
  exact ⟨H, finished, conf, orderly⟩

namespace Grammar.Finished

variable {b : Buffer} {text : String} {F : Forest} {id : NodeId} {kind : TreeKind}

/-- A token has one leaf. -/
theorem leaf_unique (h : Finished b text F .nil) {l l' : NodeId} {k : TokenId} (leaf : b.tree.tag? l = some (.inl k))
    (leaf' : b.tree.tag? l' = some (.inl k)) : l = l' := by
  have sorted := h.shown.sorted
  rw [View.whole_of_one] at sorted
  exact h.stands.leaf_unique (by rwa [Forest.append_nil]) leaf leaf'

/-- A node of a kind that is not lower, with what is said of its children. -/
theorem exists_orderlyNode (h : Finished b text F .nil)
    (conf : (Forest.branch SyntaxTree.root (.plain .idl) F .nil).Conforms (SmithyIdl.tokens text).toArray)
    (orderly : F.Orderly (SmithyIdl.tokens text).toArray) (sort : b.tree.kind? id = some kind)
    (upper : kind.isLower = false) :
    ∃ way label inner, b.tree.At way (.branch id label inner .nil) id ∧
      (∀ i ∈ inner.tokens, i + 1 < (SmithyIdl.tokens text).length) ∧
      inner.Conforms (SmithyIdl.tokens text).toArray ∧
      inner.row (SmithyIdl.tokens text).toArray ∈ (Schema.production kind).matches' ∧
      OrderlyNode (SmithyIdl.tokens text).toArray kind inner := by
  have whole : (Forest.branch SyntaxTree.root (.plain .idl) F .nil).Orderly (SmithyIdl.tokens text).toArray :=
    ⟨fun _ => ⟨trivial, orderly⟩, trivial⟩
  have tokens : (Forest.branch SyntaxTree.root (.plain .idl) F .nil).tokens = List.range b.eof := by
    rw [← h.leaves, Forest.tokens_branch, Forest.tokens_nil, List.append_nil]
  obtain ⟨n, found, rfl⟩ := Option.map_eq_some_iff.mp sort
  have stands := h.stands
  rw [Forest.append_nil] at stands
  obtain ⟨A, way, D, B, parts, place⟩ := stands.exists_at (Array.getElem?_eq_some_iff.mp found).1
  rw [parts] at conf whole tokens
  simp only [Forest.conforms_append, Forest.orderly_append] at conf whole
  rcases place.eq_of_node found with ⟨token, content, rfl⟩ | ⟨label, inner, content, rfl⟩
  · rw [Node.kind, content] at upper
    cases upper
  · have kind : n.kind = label.kind := by rw [Node.kind, content]
    rw [kind] at upper ⊢
    obtain ⟨row, below, -⟩ := (Forest.conforms_plug rfl way conf.1.2).1
    have here := whole.1.2.plugged conf.1.2 (s := .ofNode label.kind inner.firstKind) (by simp)
      (by rwa [Symbol.kind_ofNode])
    refine ⟨way, label, inner, place, fun i among => ?_, below, row, (here.1 upper).1⟩
    have inside : i ∈ List.range b.eof := tokens ▸ by simp [Forest.tokens_plug, among]
    have before := List.mem_range.mp inside
    rw [Buffer.eof, h.tokens, List.size_toArray] at before
    exact Nat.add_lt_of_lt_sub before

/-- The symbols of the children are read off the tree. -/
theorem row?_eq (h : Finished b text F .nil) {way : List Frame} {label : Label} {inner : Forest}
    (place : b.tree.At way (.branch id label inner .nil) id)
    (short : ∀ i ∈ inner.tokens, i + 1 < (SmithyIdl.tokens text).length) :
    b.tree.row? id = some (inner.row (SmithyIdl.tokens text).toArray) := by
  have made : ∀ i ∈ inner.tokens, i < b.tree.tokens.size := fun i among => by
    rw [h.tokens, List.size_toArray]
    exact Nat.lt_of_succ_lt (short i among)
  rw [SyntaxTree.row?, place.children_eq, ← h.tokens]
  exact place.inside.2.1.mapM_symbol made

/-- The node is the root, or it stands in a node whose production has its symbol. -/
theorem parent_cases (h : Finished b text F .nil) (conforms : b.tree.Conforms) (sort : b.tree.kind? id = some kind) :
    kind = .idl ∧ b.tree.parent? id = none ∨ ∃ p above s, b.tree.parent? id = some p ∧ b.tree.kind? p = some above ∧
      b.tree.symbol? id = some s ∧ s ∈ Schema.symbols (Schema.production above) := by
  have stands := h.stands
  rw [Forest.append_nil] at stands
  obtain ⟨n, found, rfl⟩ := Option.map_eq_some_iff.mp sort
  cases up : b.tree.parent? id with
  | none =>
    have among : id ∈ (Forest.branch SyntaxTree.root (.plain .idl) F .nil).ids := by
      simpa using h.mem_ids (Array.getElem?_eq_some_iff.mp found).1
    obtain ⟨way, E, parts, one, -⟩ := Forest.exists_place_of_one rfl among
    have place : b.tree.At way E id := stands.at_of_eq (A := .nil) (B := .nil) (by simpa using parts) one
    rw [place.parent?_eq] at up
    obtain rfl : way = [] := by simpa using up
    obtain rfl : E = _ := parts.symm
    obtain ⟨kept, node⟩ := h.root_node
    obtain rfl : SyntaxTree.root = id := (List.cons.inj one).1
    rw [node] at found
    cases found
    exact .inl ⟨rfl, rfl⟩
  | some p =>
    obtain ⟨m, foundP, leaf⟩ := Option.map_eq_some_iff.mp (stands.isLeaf_of_parent? up)
    obtain ⟨row, symbols, among⟩ := conforms p m foundP leaf
    have child := stands.mem_childrenOf.mpr up
    obtain ⟨s, mem, same⟩ := List.mem_map.mp ((SyntaxTree.map_symbol? symbols).symm ▸ List.mem_map_of_mem child)
    exact .inr ⟨p, m.kind, s, rfl, by rw [SyntaxTree.kind?, foundP]; rfl, same.symm, Schema.mem_symbols among mem⟩

theorem ancestors_cases (h : Finished b text F .nil) (conforms : b.tree.Conforms) (sort : b.tree.kind? id = some kind) :
    kind = .idl ∧ b.tree.ancestors id = [] ∨ ∃ p above, b.tree.ancestors id = p :: b.tree.ancestors p ∧
      b.tree.kind? p = some above ∧ kind ∈ (Schema.symbols (Schema.production above)).map Symbol.kind := by
  have stands := h.stands
  rw [Forest.append_nil] at stands
  obtain ⟨top, up⟩ | ⟨p, above, s, up, sort', symbol, among⟩ := h.parent_cases conforms sort
  · exact .inl ⟨top, SyntaxTree.ancestors_of_none up⟩
  · have here := SyntaxTree.kind?_of_symbol? symbol
    rw [sort] at here
    exact .inr ⟨p, above, stands.ancestors_of_some up, sort', Option.some.inj here ▸ List.mem_map_of_mem among⟩

end Grammar.Finished

end SmithyIdl
