import SmithyIdl.Proofs.Buffer.Alongside
import SmithyIdl.Proofs.ErrorCount
import SmithyIdl.Proofs.Grammar.Preamble
import SmithyIdl.Proofs.Lockstep.Statements
import SmithyIdl.Proofs.Tree.Displaced

/-! # Statements on their own

How a statement is read depends on the tokens from it on alone. The tokens before, the nodes that were made of them and
the errors that were counted have no influence, so an error does not spoil the statements behind it. -/

namespace SmithyIdl

/-! ### Open nodes -/

namespace Buffer.Shows

variable {b : Buffer} {v : View}

theorem open_lt (h : b.Shows v) {n : NodeId × Label} (among : n ∈ v.names) : n.1 < b.tree.size := by
  obtain ⟨node, spine, rfl⟩ := List.mem_map.mp among
  have frame : node.id ∈ v.frames.map Frame.id := List.mem_map_of_mem (List.mem_map_of_mem spine)
  exact h.lt_size (List.mem_append_left _ (v.ids_whole.mem_iff.mpr (List.mem_append_left _ frame)))

theorem innermost_lt (h : b.Shows v) : b.innermost < b.tree.size := by
  rw [h.innermost]
  exact h.open_lt (n := v.inner.name) List.mem_cons_self

/-- No node is open twice. -/
theorem nodup_open (h : b.Shows v) : (v.names.map Prod.fst).Nodup := by
  have names : v.names.map Prod.fst = v.frames.map Frame.id := by
    simp only [View.names, View.frames, List.map_map]
    rfl
  have whole := v.ids_whole.nodup_iff.mp (List.nodup_append.mp h.nodup).1
  exact names ▸ (List.nodup_append.mp whole).1

/-- The children of an open node are those it has so far, and the next open node. -/
theorem node_open (h : b.Shows v) {inner outer : List OpenNode} {n : OpenNode} (spine : v.spine = inner ++ n :: outer) :
    ∃ parent kept, b.tree.nodes[n.id]? = some ⟨.branch n.label
      (n.children ++ Forest.plug (inner.map OpenNode.frame) .nil).roots.toArray, parent, kept⟩ := by
  have frames : v.frames = inner.map OpenNode.frame ++ n.frame :: outer.map OpenNode.frame := by
    simp [View.frames, spine]
  have placed := h.placed
  rw [View.whole, frames, Forest.plug_append] at placed
  obtain ⟨kept, node⟩ := placed.frame
  have children (D : Forest) : n.frame.before ++ D ++ n.frame.after = n.children ++ D := by simp [OpenNode.frame]
  rw [children] at node
  exact ⟨_, kept, node⟩

theorem tag?_open (h : b.Shows v) {inner outer : List OpenNode} {n : OpenNode} (spine : v.spine = inner ++ n :: outer) :
    b.tree.tag? n.id = some (.inr n.label) := by
  obtain ⟨parent, kept, node⟩ := h.node_open spine
  rw [SyntaxTree.tag?, node]
  rfl

theorem childrenOf_open (h : b.Shows v) {inner outer : List OpenNode} {n : OpenNode}
    (spine : v.spine = inner ++ n :: outer) :
    b.tree.childrenOf n.id = (n.children ++ Forest.plug (inner.map OpenNode.frame) .nil).roots := by
  obtain ⟨parent, kept, node⟩ := h.node_open spine
  rw [SyntaxTree.childrenOf, node]
  rfl

theorem childrenOf_innermost (h : b.Shows v) : b.tree.childrenOf b.innermost = v.inner.children.roots := by
  have spine : v.spine = [] ++ v.inner :: v.outer := rfl
  rw [h.innermost, h.childrenOf_open spine]
  simp

theorem tag?_innermost (h : b.Shows v) : b.tree.tag? b.innermost = some (.inr v.inner.label) := by
  have spine : v.spine = [] ++ v.inner :: v.outer := rfl
  rw [h.innermost, h.tag?_open spine]

end Buffer.Shows

/-! ### Two moments -/

namespace Grammar.InStatements

variable {b : Buffer} {v : View} (inside : InStatements v) (shown : b.Shows v)
include inside shown

/-- Three different nodes are open. -/
theorem exists_openNodes : ∃ i, b.openNodes = [b.innermost, i, SyntaxTree.root] ∧ i < b.tree.size ∧ i ≠ b.innermost := by
  obtain ⟨s, i, names⟩ := inside
  have nodes := shown.openNodes
  have nodup := shown.nodup_open
  have made : i < b.tree.size := shown.open_lt (n := (i, .plain .shapeSection)) (by simp [names])
  rw [names] at nodes nodup
  have innermost : b.innermost = s := by
    rw [Buffer.innermost, nodes]
    rfl
  refine ⟨i, innermost ▸ nodes, made, ?_⟩
  rintro rfl
  simp [innermost] at nodup

theorem innermost_ne_root : b.innermost ≠ SyntaxTree.root := by
  obtain ⟨s, i, names⟩ := inside
  have nodup := shown.nodup_open
  rw [names] at nodup
  rw [shown.innermost, show v.inner.id = s from congrArg Prod.fst (List.cons.inj names).1]
  rintro rfl
  simp at nodup

theorem tag?_innermost : b.tree.tag? b.innermost = some (.inr (.plain .shapeStatements)) := by
  obtain ⟨s, i, names⟩ := inside
  rw [shown.tag?_innermost, show v.inner.label = .plain .shapeStatements from congrArg Prod.snd (List.cons.inj names).1]

end Grammar.InStatements

section
variable {b b' : Buffer} {v v' : View} (L : Layout) (shown : b.Shows v) (shown' : b'.Shows v')
  (inside : Grammar.InStatements v) (inside' : Grammar.InStatements v')

/-- Two moments at which a statement is about to be read. It is put into the node of all statements. -/
def Onset.atStatements : Onset where
  made := b.tree.size
  made' := b'.tree.size
  taken := b.cursor
  taken' := b'.cursor
  counted := b.errors
  counted' := b'.errors
  top := b.innermost
  top' := b'.innermost
  before := b.tree.childrenOf b.innermost
  before' := b'.tree.childrenOf b'.innermost
  layout := L
  top_root := iff_of_false (inside.innermost_ne_root shown) (inside'.innermost_ne_root shown')
  top_lt := shown.innermost_lt
  top_lt' := shown'.innermost_lt
  before_lt _ among := (shown.stands.lt_of_parent? (shown.stands.mem_childrenOf.mp among)).1
  before_lt' _ among := (shown'.stands.lt_of_parent? (shown'.stands.mem_childrenOf.mp among)).1

variable {us us' ts ts' : List Token}

/-- Where the tokens to come belong together, so do the moments. -/
theorem Buffer.alongside_atStatements (splits : b.Splits us ts) (splits' : b'.Splits us' ts')
    (same : List.Forall₂ L.token ts ts') (maxDepth : b'.maxDepth = b.maxDepth) :
    b.Alongside (.atStatements L shown shown' inside inside') b' where
  tree := .start shown.stands shown'.stands rfl rfl rfl rfl fun {k k'} taken => by
    obtain ⟨j, rfl, rfl⟩ := taken
    change Option.Rel L.token b.tree.tokens[b.cursor + j]? b'.tree.tokens[b'.cursor + j]?
    rw [splits.getElem?, splits'.getElem?]
    exact rel_getElem? same j
  openNodes := by
    obtain ⟨i, nodes, made, other⟩ := inside.exists_openNodes shown
    obtain ⟨i', nodes', made', other'⟩ := inside'.exists_openNodes shown'
    rw [nodes, nodes']
    exact .cons .top (.cons (.old made other made' other') (.cons .root .nil))
  maxDepth := maxDepth
  cursor := .refl
  errors := .refl
  sees := splits.sees splits' same

end

/-! ### A line before the rest of a text -/

/-- The tokens of a line with a namespace. -/
def namespaceLine : List Token :=
  [⟨.plain .identifier, "namespace", ⟨0, 9⟩, .first, ⟨1, 10⟩⟩, ⟨.plain .space, " ", ⟨9, 10⟩, ⟨1, 10⟩, ⟨1, 11⟩⟩,
    ⟨.plain .identifier, "a", ⟨10, 11⟩, ⟨1, 11⟩, ⟨1, 12⟩⟩, ⟨.plain .newline, "\n", ⟨11, 12⟩, ⟨1, 12⟩, ⟨2, 1⟩⟩]

/-- Behind a line with a namespace, the text is cut as it is from any other place on. -/
theorem tokens_namespaceLine (rest : String) :
    tokens ("namespace a\n" ++ rest) = namespaceLine ++ (Lexer.mk rest.toList 12 ⟨2, 1⟩ false).drain.1 := by
  have keyword : scan 'n' ('a' :: 'm' :: 'e' :: 's' :: 'p' :: 'a' :: 'c' :: 'e' :: ' ' :: 'a' :: '\n' :: rest.toList) =
    ⟨.plain .identifier, 8⟩ := rfl
  have space : scan ' ' ('a' :: '\n' :: rest.toList) = ⟨.plain .space, 0⟩ := rfl
  have name : scan 'a' ('\n' :: rest.toList) = ⟨.plain .identifier, 0⟩ := rfl
  have newline : scan '\n' rest.toList = ⟨.plain .newline, 0⟩ := rfl
  have characters : "namespace a\n".toList =
    ['n', 'a', 'm', 'e', 's', 'p', 'a', 'c', 'e', ' ', 'a', '\n'] := rfl
  rw [tokens, Lexer.ofText, String.toList_append, characters]
  simp only [List.cons_append, List.nil_append, Lexer.drain_cons, Token.scanned, keyword, space, name, newline,
    List.drop_succ_cons, List.drop_zero, List.take_succ_cons, List.take_zero]
  rfl

/-- Where neither trivia nor the keyword `use` comes behind it, the line is known to be a namespace. -/
theorem Buffer.ofText_namespaceLine (filename : String) (maxDepth : Nat) {rest : String} {t : Token} {ts : List Token}
    (drained : (Lexer.mk rest.toList 12 ⟨2, 1⟩ false).drain.1 = t :: ts) (other : t.kind.isTrivia = false)
    (notUse : t.isIdentifier "use" = false) :
    (Buffer.ofText filename ("namespace a\n" ++ rest) maxDepth).NamespaceLine := by
  have splits := Splits.ofText filename ("namespace a\n" ++ rest) maxDepth
  rw [tokens_namespaceLine, drained] at splits
  have many : (namespaceLine ++ t :: ts).length = ts.length + 5 := by simp [namespaceLine]
  have peek {k : Nat} (few : k < 5) : (Buffer.ofText filename ("namespace a\n" ++ rest) maxDepth).peek k =
      (namespaceLine ++ t :: ts)[k] := splits.peek_of_lt (by omega)
  refine ⟨?_, ?_, ?_, ?_, ?other, ?notUse, ?left⟩
  case left =>
    rw [splits.eof, many]
    omega
  all_goals rw [peek (by decide)]
  case other => exact other
  case notUse => exact notUse
  all_goals rfl

/-! ### Statements behind errors -/

/-- Unless it is the end token, the token to come is the one at the cursor. -/
theorem Buffer.getElem?_cursor {b : Buffer} (more : b.hasNext = true) : b.tree.tokens[b.cursor]? = some b.current := by
  have next := Buffer.hasNext_iff.mp more
  have made : b.cursor < b.tree.tokens.size := Nat.lt_of_lt_of_le next (Nat.sub_le ..)
  rw [Buffer.current, Buffer.peek, Nat.add_zero, Nat.min_eq_left (Nat.le_of_lt next), Array.getElem?_eq_getElem made]
  rfl

theorem Buffer.exists_splits {b : Buffer} {all : List Token} (tokens : b.tree.tokens = all.toArray) (more : b.hasNext = true) :
    ∃ us ts, all = us ++ b.current :: ts ∧ b.Splits us (b.current :: ts) := by
  have current := Buffer.getElem?_cursor more
  rw [tokens, List.getElem?_toArray] at current
  obtain ⟨made, current⟩ := List.getElem?_eq_some_iff.mp current
  have parts : all = all.take b.cursor ++ b.current :: all.drop (b.cursor + 1) := by
    rw [← current, ← List.drop_eq_getElem_cons made, List.take_append_drop]
  refine ⟨_, _, parts, parts ▸ tokens, ?_, List.cons_ne_nil _ _⟩
  rw [List.length_take, Nat.min_eq_left (Nat.le_of_lt made)]

/-- How far away the tokens from some place on are where they come behind a line with a namespace. -/
def Displacement.toLine (offset line : Nat) : Displacement := ⟨12 - offset, 2 - line⟩

namespace Grammar.AtStatement

variable {filename text : String} {maxDepth : Nat} {docs : Docs} {b : Buffer}

/-- The rest of the text begins with the next token, and is cut the same behind a line with a namespace. -/
theorem exists_rest (h : AtStatement filename text maxDepth docs b) (column : b.current.start.column = 1) :
    ∃ before rest us ts, text = before ++ rest ∧ byteLength before.toList = b.current.range.start ∧
      b.Splits us (b.current :: ts) ∧
      List.Forall₂ (Displacement.toLine b.current.range.start b.current.start.line).Tokens (b.current :: ts)
        (Lexer.mk rest.toList 12 ⟨2, 1⟩ false).drain.1 := by
  obtain ⟨us, ts, all, splits⟩ := Buffer.exists_splits (h.leads.tokens.trans rfl) h.more
  obtain ⟨before, l, cut, running, start, offset, position, drained⟩ := Lexer.exists_drain all
  refine ⟨.ofList before, .ofList l.rest, us, ts, ?_, ?_, splits, ?_⟩
  · rw [← String.ofList_append, ← cut]
    exact String.ofList_toList.symm
  · rw [String.toList_ofList, ← start]
    rfl
  · rw [String.toList_ofList, ← drained]
    have place : (Displacement.toLine b.current.range.start b.current.start.line).Positions l.position ⟨2, 1⟩ := by
      rw [position]
      refine ⟨?_, column.symm⟩
      rw [Displacement.toLine]
      push_cast
      omega
    refine Displacement.Lexers.drain ⟨rfl, ?_, place, running.symm⟩
    rw [offset, Displacement.toLine, Displacement.Offsets]
    push_cast
    omega

end Grammar.AtStatement

/-! ### Up to the end of a file -/

namespace Grammar

open SmithyIdl.Parser

variable {filename text text' : String} {maxDepth : Nat} {p p' : Parser Docs} {b b' e e' : Buffer} {v v' : View}

/-- The parser reads what is left of a file. Behind it the open nodes are closed, and the trees stay as they are. -/
structure ReadsOn (filename text : String) (maxDepth : Nat) (p : Parser Docs) (b e : Buffer) : Prop where
  whole : model.run (.ofText filename text maxDepth) = .ok () e
  run : ∃ docs b₁, p.run b = .ok docs b₁ ∧ e = { b₁ with openNodes := b₁.openNodes.tail.tail }
  finished : ∃ F L, Finished e text F L

/-- Statements are all that is left. -/
theorem AtStatement.reads {docs : Docs} (moment : AtStatement filename text maxDepth docs b) (room : 3 ≤ maxDepth) :
    ∃ e, ReadsOn filename text maxDepth (foldWhile (fun _ b => b.hasNext) shapeOrApplyStatement docs) b e := by
  obtain ⟨docs₁, b₁, rounds, whole, finished⟩ := moment.model_run room
  exact ⟨_, whole, ⟨docs₁, b₁, rounds, rfl⟩, finished⟩

namespace ReadsOn

variable (reads : ReadsOn filename text maxDepth p b e)
include reads

theorem parse_eq : parse filename text maxDepth = .ok ⟨filename, e.tree⟩ := by
  obtain ⟨F, L, finished⟩ := reads.finished
  exact parse_of_run reads.whole finished.finish

/-- The errors that were counted stand in the tree. -/
theorem length_errorNodes (enough : 5 ≤ maxDepth) : e.tree.errorNodes.length = e.errors := by
  obtain ⟨b₁, F, run, -, counts⟩ := model_counts filename text enough
  cases run.symm.trans reads.whole
  exact counts.nodes

theorem leads [Steady p] : b.Leads e := by
  obtain ⟨docs, b₁, run, rfl⟩ := reads.run
  have leads := Steady.ok run
  exact ⟨leads.tree, leads.maxDepth, leads.cursor, leads.errors, leads.counted⟩

theorem kind?_innermost [Steady p] (shown : b.Shows v) (inside : InStatements v) :
    e.tree.kind? b.innermost = some .shapeStatements :=
  SyntaxTree.kind?_of_tag? (reads.leads.tree.tag?_eq (inside.tag?_innermost shown))

variable {us us' ts ts' : List Token} {d : Displacement}

/-- From two moments at which the same tokens come, the same trees are put into the node of all statements, and as many
    problems are met, whatever was read before. -/
theorem exists_trees (reads' : ReadsOn filename text' maxDepth p' b' e') (shown : b.Shows v) (shown' : b'.Shows v')
    (inside : InStatements v) (inside' : InStatements v') (splits : b.Splits us ts) (splits' : b'.Splits us' ts')
    (same : List.Forall₂ d.Tokens ts ts') (limit : b'.maxDepth = b.maxDepth)
    (lockstep : ∀ {M : Matching}, M.moves → M.encloses → Lockstep M (Option.Rel M.docs) p p') :
    Abreast b.errors b'.errors e.errors e'.errors ∧
      ∃ new new', e.tree.childrenOf b.innermost = b.tree.childrenOf b.innermost ++ new ∧
        e'.tree.childrenOf b'.innermost = b'.tree.childrenOf b'.innermost ++ new' ∧
        List.Forall₂ (d.Trees e.tree e'.tree) new new' := by
  let O := Onset.atStatements d.layout shown shown' inside inside'
  have onset : b.Alongside O b' :=
    Buffer.alongside_atStatements d.layout shown shown' inside inside' splits splits' same limit
  obtain ⟨F, L, finished⟩ := reads.finished
  obtain ⟨F', L', finished'⟩ := reads'.finished
  obtain ⟨n, anchored⟩ := model_anchored reads.whole
  obtain ⟨docs₁, b₁, run, rfl⟩ := reads.run
  obtain ⟨docs₁', b₁', run', rfl⟩ := reads'.run
  have agree := (lockstep (M := O.matching) trivial trivial).agrees O.simulation onset
  rw [run, run'] at agree
  cases agree with
  | escaped lost => exact lost.elim
  | ok _ alongside =>
    exact ⟨alongside.errors, Displacement.trees_of_alongside alongside.tree rfl finished.sound_all finished'.sound_all
      anchored⟩

end ReadsOn

end Grammar

/-- From two moments at which the same tokens come, the statements read are the same, whatever was read before. -/
theorem Grammar.AtStatement.exists_trees {filename text text' : String} {maxDepth : Nat} {b b' : Buffer}
    {us us' ts ts' : List Token} {d : Displacement} (moment : AtStatement filename text maxDepth none b)
    (moment' : AtStatement filename text' maxDepth none b') (room : 3 ≤ maxDepth) (splits : b.Splits us ts)
    (splits' : b'.Splits us' ts') (same : List.Forall₂ d.Tokens ts ts') :
    ∃ m m' new new', parse filename text maxDepth = .ok m ∧ parse filename text' maxDepth = .ok m' ∧
      m.tree.kind? b.innermost = some .shapeStatements ∧ m'.tree.kind? b'.innermost = some .shapeStatements ∧
      m.tree.childrenOf b.innermost = b.tree.childrenOf b.innermost ++ new ∧
      m'.tree.childrenOf b'.innermost = b'.tree.childrenOf b'.innermost ++ new' ∧
      List.Forall₂ (d.Trees m.tree m'.tree) new new' := by
  obtain ⟨v, shown, -, inside⟩ := moment.shown
  obtain ⟨v', shown', -, inside'⟩ := moment'.shown
  obtain ⟨e, reads⟩ := moment.reads room
  obtain ⟨e', reads'⟩ := moment'.reads room
  obtain ⟨-, new, new', children, children', trees⟩ := reads.exists_trees reads' shown shown' inside inside' splits splits'
    same (moment'.leads.maxDepth.trans moment.leads.maxDepth.symm) fun moves encloses =>
      statements_lockstep moves encloses .none
  exact ⟨_, _, new, new', reads.parse_eq, reads'.parse_eq, reads.kind?_innermost shown inside,
    reads'.kind?_innermost shown' inside', children, children', trees⟩

/-- Where a statement is about to be read, without documentation comments, at a token on the first column that is
    neither trivia nor the keyword `use`: what is put into the node of all statements from there on reads the same as the
    statements of a file that has a line with a namespace and then the rest of the text. Only the offsets and the lines
    are different, all by the same amounts. -/
theorem parse_isolates (filename text : String) {b : Buffer}
    (moment : Grammar.AtStatement filename text defaultMaxDepth none b) (column : b.current.start.column = 1)
    (other : b.current.kind.isTrivia = false) (notUse : b.isAtKeyword "use" = false) :
    ∃ before rest m m' b' new, text = before ++ rest ∧ byteLength before.toList = b.current.range.start ∧
      parse filename text = .ok m ∧ parse filename ("namespace a\n" ++ rest) = .ok m' ∧
      Grammar.preamble.run (.ofText filename ("namespace a\n" ++ rest) defaultMaxDepth) = .ok none b' ∧
      m.tree.kind? b.innermost = some .shapeStatements ∧ m'.tree.kind? b'.innermost = some .shapeStatements ∧
      m.tree.childrenOf b.innermost = b.tree.childrenOf b.innermost ++ new ∧
      List.Forall₂ ((Displacement.toLine b.current.range.start b.current.start.line).Trees m.tree m'.tree) new
        (m'.tree.childrenOf b'.innermost) := by
  obtain ⟨before, rest, us, ts, cut, start, splits, same⟩ := moment.exists_rest column
  obtain ⟨t', ts', first, -, drained⟩ := List.forall₂_cons_left_iff.mp same
  rw [drained] at same
  have notUse' : t'.isIdentifier "use" = false := by
    rw [Token.isIdentifier, first.kind_eq, first.lexeme]
    exact notUse
  have line := Buffer.ofText_namespaceLine filename defaultMaxDepth drained (by rw [first.kind_eq]; exact other) notUse'
  have room : 1 + 2 < defaultMaxDepth := by decide
  obtain ⟨_, b', run', ⟨rfl, behind⟩, v', shown', -, -, empty⟩ := Parser.exists_ok_of_gives
    (Grammar.preamble_line line room) (Grammar.preamble_ensures filename ("namespace a\n" ++ rest) defaultMaxDepth)
  have splits' : b'.Splits namespaceLine (t' :: ts') := by
    refine ⟨behind.leads.tokens.trans ?_, behind.cursor, List.cons_ne_nil _ _⟩
    rw [← drained, ← tokens_namespaceLine]
    rfl
  have more' : b'.hasNext = true := by
    have more := moment.more
    rw [splits.hasNext] at more
    rw [splits'.hasNext, ← same.length_eq]
    exact more
  obtain ⟨m, m', new, new', parsed, parsed', kind, kind', children, children', trees⟩ :=
    moment.exists_trees (.first run' more') (by decide) splits splits' same
  have all : m'.tree.childrenOf b'.innermost = new' := by
    rw [children', shown'.childrenOf_innermost, empty]
    rfl
  exact ⟨before, rest, m, m', b', new, cut, start, parsed, parsed', run', kind, kind', children, all ▸ trees⟩

/-- Behind a line that is no statement, and where the namespace is missing. -/
theorem parse_isolates_behind_errors : ∃ b, Grammar.AtStatement "a.smithy" "!\nstring A\n" defaultMaxDepth none b ∧
    b.current.start.column = 1 ∧ b.current.kind.isTrivia = false ∧ b.isAtKeyword "use" = false ∧ b.errors = 2 ∧
    ∃ before rest m m' b' new, "!\nstring A\n" = before ++ rest ∧ byteLength before.toList = b.current.range.start ∧
      parse "a.smithy" "!\nstring A\n" = .ok m ∧ parse "a.smithy" ("namespace a\n" ++ rest) = .ok m' ∧
      Grammar.preamble.run (.ofText "a.smithy" ("namespace a\n" ++ rest) defaultMaxDepth) = .ok none b' ∧
      m.tree.kind? b.innermost = some .shapeStatements ∧ m'.tree.kind? b'.innermost = some .shapeStatements ∧
      m.tree.childrenOf b.innermost = b.tree.childrenOf b.innermost ++ new ∧
      List.Forall₂ ((Displacement.toLine b.current.range.start b.current.start.line).Trees m.tree m'.tree) new
        (m'.tree.childrenOf b'.innermost) := by
  have second : (Grammar.moment? "a.smithy" "!\nstring A\n" defaultMaxDepth 1).any (fun r => r.1 = none ∧
      r.2.current.start.column = 1 ∧ r.2.current.kind.isTrivia = false ∧ r.2.isAtKeyword "use" = false ∧
      r.2.errors = 2) = true := by
    decide +kernel
  obtain ⟨⟨docs, b⟩, found, holds⟩ := (Option.any_eq_true _ _).mp second
  obtain ⟨rfl, column, other, notUse, errors⟩ := of_decide_eq_true holds
  have moment := Grammar.atStatement_iff.mpr ⟨1, found⟩
  exact ⟨b, moment, column, other, notUse, errors, parse_isolates "a.smithy" "!\nstring A\n" moment column other notUse⟩

end SmithyIdl
