import SmithyIdl.Proofs.Buffer.Standing

/-! # Parsers that use all steps of a buffer

A parser may take nodes out of the tree and put them in elsewhere, and enclose them in errors, besides what a program
does. Its value, what it sees of the buffer and the failures that it caught decide how it goes on. Whatever it does, it
closes the nodes that it opened. -/

namespace SmithyIdl

open SmithyIdl.Parser (Recovery Steady KeepsOpen Looks Upholds)

/-- The parser is put together from the steps of a buffer. -/
inductive Parser.Built : {α : Type} → Parser α → Prop where
  | pure {α : Type} (a : α) : Built (Pure.pure a : Parser α)
  | bind {α β : Type} {p : Parser α} {f : α → Parser β} (first : Built p) (next : ∀ a, Built (f a)) : Built (p >>= f)
  | attempt {α : Type} {p : Parser α} (tried : Built p) : Built (Parser.attempt p)
  | foldWhile {σ : Type} (more : σ → Buffer → Bool) {round : σ → Parser σ} (rounds : ∀ s, Built (round s)) (s : σ) :
    Built (Parser.foldWhile more round s)
  | ask {α : Type} (f : Buffer → α) : Built (Parser.ask f)
  | fail {α : Type} (problem : Problem) : Built (Parser.fail problem : Parser α)
  | raise {α : Type} (e : SyntaxError) : Built (Parser.raise e : Parser α)
  | next : Built Parser.next
  | shiftWhile (kinds : Token → Bool) : Built (Parser.shiftWhile kinds)
  | expectAny (kinds : TokenSet) : Built (Parser.expectAny kinds)
  | reportMissing (problem : Problem) : Built (Parser.reportMissing problem)
  | report (e : SyntaxError) (recovery : Recovery) : Built (Parser.report e recovery)
  | recover (recovery : Recovery) : Built (Parser.recover recovery)
  | attach (node : NodeId) : Built (Parser.attach node)
  | detach (node : NodeId) : Built (Parser.detach node)
  | adoptDocs (docs : Option NodeId) : Built (Parser.adoptDocs docs)
  | encloseInError (node : NodeId) (problem : Problem) : Built (Parser.encloseInError node problem)
  | scope {α : Type} (kind : TreeKind) {body : Parser α} (inside : Built body) (recovery : Recovery) :
    Built (Parser.scope kind body recovery)

namespace Parser

instance KeepsOpen.looks {α : Type} {p : Parser α} [Looks p] : KeepsOpen p := ⟨fun left => Looks.same left ▸ rfl⟩

instance KeepsOpen.raise {α : Type} (e : SyntaxError) : KeepsOpen (Parser.raise e : Parser α) :=
  ⟨fun left => Option.some.inj left ▸ rfl⟩

instance KeepsOpen.next : KeepsOpen Parser.next := by
  have : Looks Parser.current := .ask _
  unfold Parser.next
  infer_instance

namespace Built

variable {α : Type} {p : Parser α}

theorem steady (h : p.Built) : Steady p := by
  induction h with
  | bind _ _ first next => exact @Steady.bind _ _ _ _ first next
  | attempt _ tried => exact @Steady.attempt _ _ tried
  | foldWhile _ _ _ rounds => exact @Steady.foldWhile _ _ _ rounds _
  | scope kind _ recovery inside => exact @Steady.scope _ _ inside kind recovery
  | _ => infer_instance

theorem keepsOpen (h : p.Built) : KeepsOpen p := by
  induction h with
  | bind _ _ first next => exact @KeepsOpen.bind _ _ _ _ first next
  | attempt _ tried => exact @KeepsOpen.attempt _ _ tried
  | foldWhile _ _ _ rounds => exact @KeepsOpen.foldWhile _ _ _ rounds _
  | scope kind _ recovery inside => exact @KeepsOpen.scope _ _ inside kind recovery
  | _ => infer_instance

theorem upholds (h : p.Built) : Upholds p := by
  induction h with
  | bind _ _ first next => exact @Upholds.bind _ _ _ _ first next
  | attempt _ tried => exact @Upholds.attempt _ _ tried
  | foldWhile _ _ _ rounds => exact @Upholds.foldWhile _ _ _ rounds _
  | scope kind _ recovery inside => exact @Upholds.scope _ _ inside kind recovery
  | _ => infer_instance

end Built

end Parser

/-! ### Buffers -/

namespace Buffer

/-- The states of a buffer in which a scope can be opened: at the start of a text, behind the steps of a parser whether
    it failed or not, and inside a node that was opened. -/
inductive Reached : Buffer → Prop
  | ofText (filename text : String) (maxDepth : Nat) : Reached (.ofText filename text maxDepth)
  | run {α : Type} {b b' : Buffer} {p : Parser α} (before : Reached b) (built : p.Built)
    (left : (p.run b).buffer? = some b') : Reached b'
  | opened {b b' : Buffer} {kind : TreeKind} {node : NodeId} (before : Reached b)
    (run : (Parser.openNode kind).run b = .ok node b') : Reached b'

/-- Children can be added to the innermost open node. -/
structure Ready (b : Buffer) : Prop extends b.Standing where
  innermost : ∃ label, b.tree.tag? b.innermost = some (.inr label)

variable {b b' : Buffer}

theorem Ready.after {α : Type} {p : Parser α} (h : b.Ready) [Steady p] [KeepsOpen p] [Upholds p]
    (left : (p.run b).buffer? = some b') : b'.Ready where
  toStanding := Upholds.standing left h.toStanding
  innermost := by
    obtain ⟨label, tag⟩ := h.innermost
    rw [Buffer.innermost, KeepsOpen.same left]
    exact ⟨label, (Steady.leads left).tree.tag?_eq tag⟩

theorem Ready.opened {kind : TreeKind} {node : NodeId} (h : b.Ready) (run : (Parser.openNode kind).run b = .ok node b') :
    b'.Ready where
  toStanding := Upholds.ok run h.toStanding
  innermost := by
    obtain ⟨-, tag, -⟩ := Parser.openNode_ok run
    rw [Buffer.innermost, KeepsOpen.openNode_ok run]
    exact ⟨_, tag⟩

theorem Reached.ready (h : b.Reached) : b.Ready := by
  induction h with
  | ofText filename text maxDepth =>
    exact ⟨⟨⟨_, SyntaxTree.stands_new .idl _⟩, Nat.zero_le _⟩, _, rfl⟩
  | run _ built left ih =>
    have := built.steady
    have := built.keepsOpen
    have := built.upholds
    exact ih.after left
  | opened _ run ih => exact ih.opened run

end Buffer

end SmithyIdl
