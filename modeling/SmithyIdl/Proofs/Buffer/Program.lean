import Mathlib.Data.List.Chain
import SmithyIdl.Proofs.Buffer.Traced
import SmithyIdl.Proofs.Grammar.Model

/-! # Any program of buffer steps

The order that a buffer keeps does not depend on the grammar. Whatever program its steps are put together to, and
wherever it fails, the tokens before the cursor stand below the root in order, every open node is the last child of the
one around it, and a scope leaves the nodes open that it found open. -/

namespace SmithyIdl

open SmithyIdl.Parser (Recovery Closed)

/-- Fails with a problem that was located before. -/
def Parser.raise {α : Type} (e : SyntaxError) : Parser α := fun b => .error e b

/-- What can be written with the steps of a buffer. A program goes on in any way from the value of a step, from a
    failure that it caught and from what it sees of the buffer. -/
inductive Program : Type → Type 1 where
  | pure {α : Type} (a : α) : Program α
  | bind {α β : Type} (p : Program α) (f : α → Program β) : Program β
  | attempt {α : Type} (p : Program α) : Program (Except SyntaxError α)
  | ask {α : Type} (f : Buffer → α) : Program α
  | fail {α : Type} (problem : Problem) : Program α
  | raise {α : Type} (e : SyntaxError) : Program α
  | next : Program TokenKind
  | shiftWhile (kinds : Token → Bool) : Program Unit
  | expectAny (kinds : TokenSet) : Program TokenKind
  | reportMissing (problem : Problem) : Program Unit
  | report (e : SyntaxError) (recovery : Recovery) : Program Unit
  | recover (recovery : Recovery) : Program Unit
  | scope {α : Type} (kind : TreeKind) (body : Program α) (recovery : Recovery) : Program (Closed α)

namespace Program

/-- The parser that a program is. -/
def parser : {α : Type} → Program α → Parser α
  | _, .pure a => Pure.pure a
  | _, .bind p f => p.parser >>= fun a => (f a).parser
  | _, .attempt p => Parser.attempt p.parser
  | _, .ask f => Parser.ask f
  | _, .fail problem => Parser.fail problem
  | _, .raise e => Parser.raise e
  | _, .next => Parser.next
  | _, .shiftWhile kinds => Parser.shiftWhile kinds
  | _, .expectAny kinds => Parser.expectAny kinds
  | _, .reportMissing problem => Parser.reportMissing problem
  | _, .report e recovery => Parser.report e recovery
  | _, .recover recovery => Parser.recover recovery
  | _, .scope kind body recovery => Parser.scope kind body.parser recovery

/-- The same steps, with the buffers between them. -/
def traced : {α : Type} → Program α → Traced α
  | _, .pure a => Pure.pure a
  | _, .bind p f => p.traced >>= fun a => (f a).traced
  | _, .attempt p => p.traced.attempt
  | _, .ask f => .note (Parser.ask f)
  | _, .fail problem => .note (Parser.fail problem)
  | _, .raise e => .note (Parser.raise e)
  | _, .next => .note Parser.next
  | _, .shiftWhile kinds => .shiftWhile kinds
  | _, .expectAny kinds => .note (Parser.expectAny kinds)
  | _, .reportMissing problem => .note (Parser.reportMissing problem)
  | _, .report e recovery => .report e recovery
  | _, .recover recovery => .recover recovery
  | _, .scope kind body recovery => body.traced.scope kind recovery

/-- All buffers of a run, from `b` on. -/
def moments {α : Type} (P : Program α) (b : Buffer) : List Buffer := b :: (P.traced b).1

variable {α : Type}

theorem parser_traced (P : Program α) : P.traced.parser = P.parser := by
  induction P with
  | pure | ask | fail | raise | next | expectAny | reportMissing => rfl
  | bind p f ihp ihf => simp only [traced, parser, Traced.parser_bind, ihp, ihf]
  | attempt p ih => rw [traced, parser, Traced.parser_attempt, ih]
  | shiftWhile kinds => exact Traced.parser_shiftWhile kinds
  | report e recovery => exact Traced.parser_report e recovery
  | recover recovery => exact Traced.parser_recover recovery
  | scope kind body recovery ih => rw [traced, parser, Traced.parser_scope, ih]

instance raise_steady (e : SyntaxError) : Parser.Steady (Parser.raise e : Parser α) :=
  ⟨fun h => Option.some.inj h ▸ .refl _⟩

instance raise_grows (e : SyntaxError) : Parser.Grows (Parser.raise e : Parser α) := .of fun h => h.grown

/-- By induction on the program: a scope closes the node that it opened, and every other step leaves the open nodes as
    they are. -/
theorem traced_grows (P : Program α) : P.traced.Grows := by
  induction P with
  | pure a => exact .pure a
  | bind p f ihp ihf => exact ihp.bind ihf
  | attempt p ih => exact ih.attempt
  | ask | fail | raise | next | expectAny | reportMissing => exact .note _
  | shiftWhile kinds => exact ⟨fun h rooted => Traced.shifts_ensures h rooted kinds _⟩
  | report e recovery => exact ⟨fun h rooted => Traced.report_ensures h rooted e recovery⟩
  | recover recovery => exact ⟨fun h rooted => Traced.recover_ensures h rooted recovery⟩
  | scope kind body recovery ih => exact ⟨fun h rooted => Traced.scope_ensures h rooted ih kind recovery⟩

end Program

/-! ### Order -/

/-- The tokens before the cursor stand below the root in order, the innermost open node is the last child of the one
    around it, and so on up to the root. -/
structure Buffer.Ordered (b : Buffer) : Prop where
  tokens : (Reading.tokenIds SyntaxTree.root).run' b.tree = .ok (Array.range b.cursor)
  nested : b.openNodes.IsChain fun inner outer => (b.tree.childrenOf outer).getLast? = some inner
  outermost : b.openNodes.getLast? = some SyntaxTree.root

section
variable {spine : List OpenNode} {F : Forest}

/-- The open place of a node is behind all its children, so the node that stands there is the last of them. -/
theorem SyntaxTree.Holds.nested {t : SyntaxTree}
    (h : t.Holds none (Forest.plug (spine.map OpenNode.frame) F)) :
    (spine.map OpenNode.id).IsChain fun inner outer => (t.childrenOf outer).getLast? = some inner := by
  induction spine generalizing F with
  | nil => exact .nil
  | cons n spine ih =>
    cases spine with
    | nil => exact .singleton _
    | cons g spine =>
      obtain ⟨kept, node⟩ := SyntaxTree.Holds.frame (f := g.frame) h
      refine List.isChain_cons_cons.mpr ⟨?_, ih h⟩
      change (t.childrenOf g.frame.id).getLast? = some n.id
      rw [SyntaxTree.childrenOf, node]
      simp [Node.children, OpenNode.frame]

/-- The outermost of the open nodes has all others below it. -/
theorem Forest.plug_eq_branch {id : NodeId} {label : Label}
    (last : (spine.map OpenNode.name).getLast? = some (id, label)) (F : Forest) :
    ∃ G, Forest.plug (spine.map OpenNode.frame) F = .branch id label G .nil := by
  induction spine generalizing F with
  | nil => cases last
  | cons n spine ih =>
    cases spine with
    | nil =>
      cases last
      exact ⟨_, rfl⟩
    | cons g spine => exact ih (by simpa using last) _

end

theorem Buffer.Rooted.ordered {b : Buffer} (h : b.Rooted) : b.Ordered := by
  obtain ⟨v, shown, rooted⟩ := h
  refine ⟨?_, ?_, ?_⟩
  · obtain ⟨F, whole⟩ := Forest.plug_eq_branch rooted.root .nil
    have one : v.whole.roots = [SyntaxTree.root] := by
      rw [View.whole, View.frames, whole, Forest.roots_branch, Forest.roots_nil]
    have fits : v.whole.ids.length ≤ b.tree.size := shown.fits ▸ Nat.le_add_right ..
    have nodup : v.whole.ids.Nodup := (List.nodup_append.mp shown.nodup).1
    have read := SyntaxTree.reads_tokenIds shown.placed one fits nodup
    rw [read.run', shown.tokens_whole rooted.loose, List.toArray_range]
  · have nested := SyntaxTree.Holds.nested shown.placed
    rw [shown.openNodes]
    simpa [View.names, Function.comp_def, OpenNode.name] using nested
  · rw [shown.openNodes, List.getLast?_map, rooted.root]
    rfl

/-! ### Runs -/

namespace Program

/-- A run meets no fault and keeps the order of the buffer at every moment. -/
structure KeepsOrder (P : Program α) (b : Buffer) : Prop where
  /-- The moments are those of the run. -/
  run : ∃ b', (P.traced b).2 = P.parser.run b ∧ (P.parser.run b).buffer? = some b' ∧
    (P.moments b).getLast? = some b' ∧ b'.openNodes = b.openNodes
  ordered : ∀ m ∈ P.moments b, m.Ordered
  forward : (P.moments b).Pairwise fun m m' => m.cursor ≤ m'.cursor
  bounded : ∀ m ∈ P.moments b, m.cursor ≤ b.eof
  /-- Whatever happens inside a scope that is opened at some moment, the same nodes are open behind it. -/
  scopes : ∀ m ∈ P.moments b, ∀ {β : Type} (kind : TreeKind) (body : Program β) (recovery : Recovery),
    ∃ r b', (Parser.scope kind body.parser recovery).run m = .ok r b' ∧ b'.openNodes = m.openNodes

theorem openNodes_eq {b b' : Buffer} {v : View} (shown : b.Shows v) (grown : b'.ShowsGrown v) :
    b'.openNodes = b.openNodes := by
  obtain ⟨F, shown'⟩ := grown
  rw [shown'.openNodes, shown.openNodes, View.grow_names]

theorem scope_run {b : Buffer} (h : b.Rooted) (kind : TreeKind) (body : Program α) (recovery : Recovery) :
    ∃ r b', (Parser.scope kind body.parser recovery).run b = .ok r b' ∧ b'.openNodes = b.openNodes := by
  obtain ⟨v, shown, rooted⟩ := h
  have closed : (body.traced.scope kind recovery).Ensures b (fun _ b' => b'.ShowsGrown v) fun _ => False :=
    Traced.scope_ensures shown rooted body.traced_grows kind recovery
  obtain ⟨r, b', run, grown⟩ := closed.parser.exists_ok
  rw [Traced.parser_scope, parser_traced] at run
  exact ⟨r, b', run, openNodes_eq shown grown⟩

theorem keepsOrder (P : Program α) {b : Buffer} (h : b.Rooted) : P.KeepsOrder b := by
  obtain ⟨v, shown, rooted⟩ := id h
  obtain ⟨b', left, passes, grown⟩ := (P.traced_grows.ensures shown rooted).exists_passes
  have same : (P.traced b).2 = P.parser.run b := by rw [← parser_traced]; rfl
  have kept : ∀ m ∈ P.moments b, m.Rooted := List.forall_mem_cons.mpr ⟨h, passes.rooted⟩
  have leads : ∀ m ∈ P.moments b, b.Leads m := List.forall_mem_cons.mpr ⟨.refl b, passes.leads⟩
  refine ⟨⟨b', same, same ▸ left, passes.getLast?, openNodes_eq shown grown⟩, fun m among => (kept m among).ordered,
    passes.pairwise.imp Buffer.Leads.cursor, fun m among => ?_, fun m among => scope_run (kept m among)⟩
  obtain ⟨w, shown', -⟩ := kept m among
  exact (leads m among).eof ▸ shown'.cursor

end Program

/-- Whatever is written with the steps of a buffer keeps the order of the buffer, on every text and under every limit
    on open nodes. -/
theorem program_keeps_order (filename text : String) (maxDepth : Nat) {α : Type} (P : Program α) :
    P.KeepsOrder (.ofText filename text maxDepth) :=
  P.keepsOrder ⟨_, Grammar.ofText_shows filename text maxDepth, rfl, rfl⟩

end SmithyIdl
