import SmithyIdl.Proofs.Trivia.Trees

/-! # What documentation comments belong to

Documentation comments are read with the trivia before what they document, often at the end of what comes before. They
are handed on from there: to the statement or the member whose first token is the next one that is no trivia. Behind an
opening brace nothing is handed on. -/

namespace SmithyIdl

/-! ### Trivia before a token -/

/-- The tokens `last` and `first` of a text with the trivia between them. The trivia from some comment on, `docs`, is
    for what begins with `first`. -/
structure LeadIn (text : String) where
  before : List Token
  last : Token
  run : List Token
  docs : List Token
  first : Token
  behind : List Token
  cut : tokens text = before ++ last :: (run ++ docs) ++ first :: behind
  last_other : last.kind.isTrivia = false
  first_other : first.kind.isTrivia = false
  trivia : ∀ t ∈ run ++ docs, t.kind.isTrivia = true

/-- A documentation comment on a later line than the last token. -/
def LeadIn.IsLate {text : String} (l : LeadIn text) (t : Token) : Prop :=
  t.kind = .docComment ∧ l.last.stop.line < t.start.line

namespace Trail

variable {text : String} {j k i m : TokenId} {t : Token}

/-- The tokens of a trail. -/
def leadIn (h : Trail (tokens text).toArray j k i) (made : i < (tokens text).length)
    (other : (kindAt (tokens text).toArray i).isTrivia = false) : LeadIn text where
  before := (tokens text).take j
  last := tokenAt (tokens text).toArray j
  run := (tokens text).extract (j + 1) k
  docs := (tokens text).extract k i
  first := tokenAt (tokens text).toArray i
  behind := (tokens text).drop (i + 1)
  cut := by
    have less : j < i := Nat.lt_of_lt_of_le h.before h.upTo
    rw [extract_append h.before h.upTo]
    exact cut_between (exists_tokenAt (Nat.lt_trans less made)) (exists_tokenAt made) less
  last_other := h.last
  first_other := other
  trivia t among := by
    rw [extract_append h.before h.upTo] at among
    obtain ⟨m, behind, before, found⟩ := mem_extract among
    rw [← tokenAt_of_getElem? found]
    exact h.trivia m behind before

variable (h : Trail (tokens text).toArray j k i) (made : i < (tokens text).length)
  (other : (kindAt (tokens text).toArray i).isTrivia = false)

theorem leadIn_isLate (found : (tokens text)[m]? = some t) :
    (h.leadIn made other).IsLate t ↔ SmithyIdl.IsLate (tokens text).toArray j m := by
  rw [SmithyIdl.IsLate, kindAt, List.getElem?_toArray, found, tokenAt_of_getElem? found]
  rfl

/-- What is on a later line than the last token is left to what comes, unless this token is an opening brace. -/
theorem not_isLate (brace : kindAt (tokens text).toArray j ≠ .lbrace) :
    ∀ t ∈ (h.leadIn made other).run, ¬ (h.leadIn made other).IsLate t := by
  intro t among
  obtain ⟨m, behind, before, found⟩ := mem_extract among
  rw [leadIn_isLate h made other found]
  exact h.none brace m behind before

theorem mem_head_docs (among : t ∈ (h.leadIn made other).docs.head?) : k < i ∧ (tokens text)[k]? = some t := by
  have first : ((tokens text).extract k i).head? = some t := among
  rw [List.extract_eq_take_drop, List.head?_take, List.head?_drop] at first
  split at first
  · cases first
  · next less => exact ⟨Nat.lt_of_sub_ne_zero less, first⟩

end Trail

/-! ### Nodes that take documentation comments -/

/-- The children of a node are those of its documentation comments, `ws`, and then `c`, which begins with the token
    behind them. No other node than those around the node has any of them. -/
structure ParsedModel.TakesDocs {text : String} (m : ParsedModel) (id : NodeId) (l : LeadIn text) (ws : List NodeId)
    (c : NodeId) : Prop where
  children : ∃ rest, m.tree.childrenOf id = ws ++ c :: rest
  first : m.read (Reading.firstToken? c) = .ok (some l.first)
  docs : l.docs = [] ∧ ws = [] ∨
    l.docs ≠ [] ∧ ∃ w, ws = [w] ∧ m.tree.kind? w = some .whitespace ∧ m.read (Reading.tokens w) = .ok l.docs
  apart : ∀ w ∈ ws, ∀ leaf i t, m.tree.tag? leaf = some (.inl i) → m.tree.tokens[i]? = some t → t ∈ l.docs →
    m.tree.ancestors leaf = w :: id :: m.tree.ancestors id

namespace Grammar.Finished

variable {b : Buffer} {text : String} {F D rest inner : Forest} {way : List Frame} {label : Label} {id : NodeId}
  {j k i : TokenId}

/-- The node of documentation comments has their tokens. -/
theorem docs_read (h : Finished b text F .nil) (place : b.tree.At way (.branch id label (D ++ rest) .nil) id)
    (docs : D.IsDocs k i) (made : i < (SmithyIdl.tokens text).length) :
    (SmithyIdl.tokens text).extract k i = [] ∧ D.roots = [] ∨
      (SmithyIdl.tokens text).extract k i ≠ [] ∧ ∃ w, D.roots = [w] ∧ b.tree.kind? w = some .whitespace ∧
        (Reading.tokens w).run' b.tree = .ok ((SmithyIdl.tokens text).extract k i) := by
  have length : ((SmithyIdl.tokens text).extract k i).length = i - k := by
    rw [List.extract_eq_take_drop, List.length_take, List.length_drop]
    exact Nat.min_eq_left (Nat.sub_le_sub_right (Nat.le_of_lt made) k)
  rcases docs with ⟨rfl, rfl⟩ | ⟨w, inner, rfl, less, tokens⟩
  · exact .inl ⟨List.eq_nil_of_length_eq_zero (length.trans (Nat.sub_self k)), rfl⟩
  · have white := place.descend (X := .nil) (E := .branch w (.plain .whitespace) inner .nil) rfl
    refine .inr ⟨fun none => ?_, w, rfl, white.kind?_eq #[] rfl, white.tokens ?_⟩
    · rw [none] at length
      exact absurd length.symm (Nat.sub_ne_zero_of_lt less)
    · rw [h.tokens, Forest.tokens_branch, Forest.tokens_nil, List.append_nil, tokens]
      simpa using map_extract (Nat.le_of_lt made)

/-- Only the nodes around it have a token of a documentation comment. -/
theorem docs_apart (h : Finished b text F .nil) (place : b.tree.At way (.branch id label (D ++ rest) .nil) id)
    (docs : D.IsDocs k i) (conf : D.Conforms (SmithyIdl.tokens text).toArray) {w leaf : NodeId} (mem : w ∈ D.roots)
    {m : TokenId} {t : Token} (tag : b.tree.tag? leaf = some (.inl m)) (known : b.tree.tokens[m]? = some t)
    (among : t ∈ (SmithyIdl.tokens text).extract k i) : b.tree.ancestors leaf = w :: id :: b.tree.ancestors id := by
  rcases docs with ⟨rfl, -⟩ | ⟨w', inner, rfl, less, tokens⟩
  · cases mem
  obtain rfl := List.mem_singleton.mp mem
  -- A token of the text has one number.
  obtain ⟨n, behind, before, found⟩ := mem_extract among
  rw [h.tokens, List.getElem?_toArray] at known
  obtain rfl : n = m := (List.getElem?_inj (List.getElem?_eq_some_iff.mp found).1 (nodup_tokens text)).mp
    (found.trans known.symm)
  have inside : n ∈ inner.tokens := tokens ▸ List.mem_range'_1.mpr ⟨behind, by omega⟩
  obtain ⟨-, X, leaf', Y, rfl⟩ := Forest.exists_leaf_of_trivia (Forest.whitespace_only conf.1) inside
  have here := (place.descend (X := .nil) (E := .branch w (.plain .whitespace) (X ++ .leaf leaf' n .nil ++ Y) .nil)
    rfl).descend rfl
  have tag' : b.tree.tag? leaf' = some (.inl n) := by
    obtain ⟨⟨kept, node, -⟩, -⟩ := here.inside
    rw [SyntaxTree.tag?, node]
    rfl
  obtain rfl := h.leaf_unique tag tag'
  rw [here.ancestors_eq, place.ancestors_eq]
  rfl

theorem takesDocs (h : Finished b text F .nil) (place : b.tree.At way (.branch id label inner .nil) id)
    (short : ∀ i ∈ inner.tokens, i + 1 < (SmithyIdl.tokens text).length)
    (conf : inner.Conforms (SmithyIdl.tokens text).toArray)
    (filled : ∀ s ∈ inner.row (SmithyIdl.tokens text).toArray, s.kind.isSection = false)
    (documented : Documented (SmithyIdl.tokens text).toArray inner j k i) (filename : String) :
    ∃ made ws c s, ParsedModel.TakesDocs ⟨filename, b.tree⟩ id (documented.trail.leadIn made documented.first) ws c ∧
      b.tree.kind? c = some (Symbol.kind s) ∧ s ∈ inner.row (SmithyIdl.tokens text).toArray ∧ s.kind ≠ .whitespace := by
  obtain ⟨trail, other, D, rest, rfl, docs, first⟩ := documented
  rw [Forest.conforms_append] at conf
  rw [Forest.row_append] at filled ⊢
  obtain ⟨c, E, G, rfl, one, head, s, row, among, ne⟩ :=
    Forest.exists_first conf.2 (fun s among => filled s (List.mem_append_right _ among)) first other
  have made : i < (SmithyIdl.tokens text).length := by
    have below : i ∈ (E ++ G).tokens := List.mem_of_mem_head? first
    exact Nat.lt_of_succ_lt (short i (by rw [Forest.tokens_append]; exact List.mem_append_right _ below))
  have found : b.tree.tokens[i]? = some (tokenAt (SmithyIdl.tokens text).toArray i) := by
    rw [h.tokens, List.getElem?_toArray]
    exact exists_tokenAt made
  have here : b.tree.At (⟨id, label, D, G⟩ :: way) E c := (Forest.append_assoc D E G ▸ place).descend one
  refine ⟨made, D.roots, c, s, ⟨⟨G.roots, ?_⟩, here.firstToken head found, ?_, ?_⟩, here.kind?_eq _ row,
    List.mem_append_right _ among, ne⟩
  · rw [place.children_eq, Forest.roots_append, Forest.roots_append, one, List.singleton_append]
  · exact h.docs_read place docs made
  · exact fun w mem leaf m t tag known among => h.docs_apart place docs conf.1 mem tag known among

/-- What stands around a statement of a shape. -/
theorem ancestors_statement (h : Finished b text F .nil) (conforms : b.tree.Conforms)
    (sort : b.tree.kind? id = some .shapeStatement) : (b.tree.ancestors id).map b.tree.kind? =
      [some .shapeOrApplyStatement, some .shapeStatements, some .shapeSection, some .idl] := by
  obtain ⟨other, -⟩ | ⟨statement, _, up, sort, among⟩ := h.ancestors_cases conforms sort
  · cases other
  obtain rfl := Schema.mem_symbols_kind.2.2.2.2 among
  obtain ⟨other, -⟩ | ⟨statements, _, up₁, sort₁, among₁⟩ := h.ancestors_cases conforms sort
  · cases other
  obtain rfl := Schema.mem_symbols_kind.2.2.2.1 among₁
  obtain ⟨other, -⟩ | ⟨shapes, _, up₂, sort₂, among₂⟩ := h.ancestors_cases conforms sort₁
  · cases other
  obtain rfl := Schema.mem_symbols_kind.2.2.1 among₂
  obtain ⟨other, -⟩ | ⟨root, _, up₃, sort₃, among₃⟩ := h.ancestors_cases conforms sort₂
  · cases other
  obtain rfl := Schema.mem_symbols_kind.2.1 among₃
  obtain ⟨-, top⟩ | ⟨_, _, -, -, among₄⟩ := h.ancestors_cases conforms sort₃
  · simp [up, up₁, up₂, up₃, top, sort, sort₁, sort₂, sort₃]
  · exact absurd among₄ Schema.mem_symbols_kind.1

end Grammar.Finished

/-! ### Files -/

theorem Schema.symbols_shapeStatement : ∀ s ∈ symbols (production .shapeStatement), s.kind.isSection = false ∧
    (s = .node .whitespace ∨ s = .node .traitStatements ∨ s = .node .shapeBody) := by decide

theorem Schema.symbols_member : ∀ kind ∈ [TreeKind.shapeMember, .enumMember],
    ∀ s ∈ symbols (production kind), s.kind.isSection = false := by decide

/-- In a file without errors the documentation comments before a statement of a shape, which begin on a later line than
    the last token before, are its first child, with all that comes behind the first of them. Where there are none it
    begins with its traits or with the shape. -/
theorem parse_documents_statements (filename text : String) (maxDepth : Nat) :
    ∃ m, parse filename text maxDepth = .ok m ∧ (m.hasErrors = .ok false →
      ∀ id, m.tree.kind? id = some .shapeStatement → ∃ (l : LeadIn text) (ws : List NodeId) (c : NodeId),
        m.TakesDocs id l ws c ∧ (∀ t ∈ l.run, ¬ l.IsLate t) ∧ (∀ t ∈ l.docs.head?, l.IsLate t) ∧
        (m.tree.kind? c = some .traitStatements ∨ m.tree.kind? c = some .shapeBody) ∧
        (m.tree.ancestors id).map m.tree.kind? =
          [some .shapeOrApplyStatement, some .shapeStatements, some .shapeSection, some .idl]) := by
  obtain ⟨b, parsed, sound⟩ := exists_orderly filename text maxDepth
  refine ⟨_, parsed, fun clean id kind => ?_⟩
  obtain ⟨F, finished, conf, orderly⟩ := sound clean
  obtain ⟨way, label, inner, place, short, below, row, j, k, i, documented, brace, late⟩ :=
    finished.exists_orderlyNode conf orderly kind rfl
  have symbols := fun s among => Schema.symbols_shapeStatement s (Schema.mem_symbols row among)
  obtain ⟨made, ws, c, s, takes, sort, among, ne⟩ :=
    finished.takesDocs place short below (fun s among => (symbols s among).1) documented filename
  refine ⟨_, ws, c, takes, documented.trail.not_isLate made documented.first brace, fun t among => ?_, ?_,
    finished.ancestors_statement (finished.conforms conf) kind⟩
  · obtain ⟨less, found⟩ := documented.trail.mem_head_docs made documented.first among
    exact (documented.trail.leadIn_isLate made documented.first found).mpr (late less)
  · rcases (symbols s among).2 with rfl | rfl | rfl
    · exact absurd rfl ne
    · exact .inl sort
    · exact .inr sort

/-- In a file without errors the documentation comments before a member which begin on a later line than the last token
    before are in its first child. But none are before the first member, behind the opening brace: there they stay
    outside of the member. -/
theorem parse_documents_members (filename text : String) (maxDepth : Nat) :
    ∃ m, parse filename text maxDepth = .ok m ∧ (m.hasErrors = .ok false →
      ∀ id, m.tree.kind? id = some .shapeMember ∨ m.tree.kind? id = some .enumMember →
        ∃ (l : LeadIn text) (ws : List NodeId) (c : NodeId), m.TakesDocs id l ws c ∧
          m.tree.kind? c ≠ some .whitespace ∧ (l.last.kind = .lbrace → l.docs = []) ∧
          (l.last.kind ≠ .lbrace → ∀ t ∈ l.run, ¬ l.IsLate t)) := by
  obtain ⟨b, parsed, sound⟩ := exists_orderly filename text maxDepth
  refine ⟨_, parsed, fun clean id kind => ?_⟩
  obtain ⟨F, finished, conf, orderly⟩ := sound clean
  obtain ⟨sort, mem, kind⟩ : ∃ sort ∈ [TreeKind.shapeMember, .enumMember], b.tree.kind? id = some sort :=
    kind.elim (fun kind => ⟨_, by simp, kind⟩) fun kind => ⟨_, by simp, kind⟩
  obtain ⟨upper, node⟩ : sort.isLower = false ∧ ∀ ts F, OrderlyNode ts sort F → ∃ j k i, Documented ts F j k i := by
    rcases List.mem_cons.mp mem with rfl | mem
    · exact ⟨rfl, fun _ _ node => node⟩
    · obtain rfl := List.mem_singleton.mp mem
      exact ⟨rfl, fun _ _ node => node⟩
  obtain ⟨way, label, inner, place, short, below, row, said⟩ := finished.exists_orderlyNode conf orderly kind upper
  obtain ⟨j, k, i, documented⟩ := node _ _ said
  obtain ⟨made, ws, c, s, takes, sort, -, ne⟩ := finished.takesDocs place short below
    (fun s among => Schema.symbols_member sort mem s (Schema.mem_symbols row among)) documented filename
  refine ⟨_, ws, c, takes, fun white => ne (Option.some.inj (sort.symm.trans white)),
    fun brace => ?_, documented.trail.not_isLate made documented.first⟩
  · rw [show (documented.trail.leadIn made documented.first).docs = (tokens text).extract k i from rfl,
      documented.trail.opens brace, List.extract_eq_take_drop, Nat.sub_self, List.take_zero]

end SmithyIdl
