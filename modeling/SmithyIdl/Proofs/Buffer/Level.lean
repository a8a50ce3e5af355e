import SmithyIdl.Proofs.Buffer.Edits
import SmithyIdl.Proofs.Buffer.Respaced
import SmithyIdl.Proofs.Buffer.Simulation
import SmithyIdl.Proofs.Buffer.Takes

/-! # Level runs

Two buffers are level if the same tokens come in both, as many nodes are open and as many problems were counted. What
stands behind them may differ, and so may the trees. Parsers in lockstep keep them level. -/

namespace SmithyIdl

open SmithyIdl.Parser (Steady KeepsOpen Recovery Closed)

/-- Nothing is said of nodes. -/
def Matching.level : Matching where
  toLikeness := .ofContent Token.Alike (·.content) (·.lexeme) (·.begins)
  docs _ _ := True
  node _ _ := True
  errors m m' := m' = m
  lenient := False
  moves := True
  encloses := True
  errors_lt same same' := lt_iff_of_eq same.symm same'.symm

namespace Buffer

variable {b b' b₁ b₁' : Buffer} {d d' i i' : NodeId}

/-- The same comes in both buffers, with as many nodes open and as many problems behind. -/
structure Level (b b' : Buffer) : Prop where
  sees : Matching.level.Sees b b'
  maxDepth : b'.maxDepth = b.maxDepth
  openNodes : b'.openNodes.length = b.openNodes.length
  errors : b'.errors = b.errors

namespace Level

variable (h : b.Level b')
include h

/-- Where no token is taken, only the open nodes and the problems have to be compared. -/
theorem step (leads : b.Leads b₁) (leads' : b'.Leads b₁') (here : b₁.cursor = b.cursor) (here' : b₁'.cursor = b'.cursor)
    (openNodes : b₁'.openNodes.length = b₁.openNodes.length) (errors : b₁'.errors = b₁.errors) : b₁.Level b₁' where
  sees := h.sees.step leads leads' here here'
  maxDepth := by rw [leads.maxDepth, leads'.maxDepth, h.maxDepth]
  openNodes := openNodes
  errors := errors

theorem opens {nodes nodes' : List NodeId} (length : nodes'.length = nodes.length) :
    { b with openNodes := nodes }.Level { b' with openNodes := nodes' } :=
  ⟨⟨h.sees.remaining, h.sees.peek⟩, h.maxDepth, length, h.errors⟩

/-- A step that only edits the tree. -/
theorem edit {α : Type} {p q : Parser α} {a a' : α} [Steady p] [Steady q] [KeepsOpen p] [KeepsOpen q]
    (run : p.run b = .ok a b₁) (run' : q.run b' = .ok a' b₁') (here : b₁.cursor = b.cursor)
    (here' : b₁'.cursor = b'.cursor) (errors : b₁'.errors = b₁.errors) : b₁.Level b₁' :=
  h.step (Steady.ok run) (Steady.ok run') here here' (by rw [KeepsOpen.ok run, KeepsOpen.ok run', h.openNodes]) errors

theorem shift (run : Parser.shift.run b = .ok () b₁) (run' : Parser.shift.run b' = .ok () b₁') : b₁.Level b₁' := by
  have sees := h.sees.shift run run'
  obtain ⟨-, t, -, rfl⟩ := Parser.shift_ok run
  obtain ⟨-, t', -, rfl⟩ := Parser.shift_ok run'
  exact ⟨sees, h.maxDepth, h.openNodes, h.errors⟩

theorem openNode {kind : TreeKind} (run : (Parser.openNode kind).run b = .ok i b₁)
    (run' : (Parser.openNode kind).run b' = .ok i' b₁') : b₁.Level b₁' := by
  obtain ⟨-, -, here, errors⟩ := Parser.openNode_ok run
  obtain ⟨-, -, here', errors'⟩ := Parser.openNode_ok run'
  refine h.step (Steady.ok run) (Steady.ok run') here here' ?_ (by rw [errors, errors', h.errors])
  rw [KeepsOpen.openNode_ok run, KeepsOpen.openNode_ok run', List.length_cons, List.length_cons, h.openNodes]

theorem addError {mark mark' : Mark} (run : (Parser.addError mark).run b = .ok i b₁)
    (run' : (Parser.addError mark').run b' = .ok i' b₁') : b₁.Level b₁' := by
  obtain ⟨-, -, here, errors⟩ := Parser.addError_ok run
  obtain ⟨-, -, here', errors'⟩ := Parser.addError_ok run'
  exact h.edit run run' here here' (by rw [errors, errors', h.errors])

theorem attach (run : (Parser.attach d).run b = .ok () b₁) (run' : (Parser.attach d').run b' = .ok () b₁') :
    b₁.Level b₁' := by
  obtain ⟨t, -, rfl⟩ := Parser.attach_ok run
  obtain ⟨t', -, rfl⟩ := Parser.attach_ok run'
  exact h.edit run run' rfl rfl h.errors

theorem detach (run : (Parser.detach d).run b = .ok () b₁) (run' : (Parser.detach d').run b' = .ok () b₁') :
    b₁.Level b₁' := by
  have still {c c₁ : Buffer} {d : NodeId} (run : (Parser.detach d).run c = .ok () c₁) :
      c₁.cursor = c.cursor ∧ c₁.errors = c.errors := by
    rcases Parser.detach_edit run with ⟨-, rfl⟩ | ⟨_, _, t, -, -, rfl⟩ <;> exact ⟨rfl, rfl⟩
  obtain ⟨here, errors⟩ := still run
  obtain ⟨here', errors'⟩ := still run'
  exact h.edit run run' here here' (by rw [errors, errors', h.errors])

theorem adoptDocs (run : (Parser.adoptDocs (some d)).run b = .ok () b₁)
    (run' : (Parser.adoptDocs (some d')).run b' = .ok () b₁') : b₁.Level b₁' := by
  obtain ⟨b₂, taken, put⟩ := Parser.adoptDocs_steps run
  obtain ⟨b₂', taken', put'⟩ := Parser.adoptDocs_steps run'
  exact (h.detach taken taken').attach put put'

theorem encloseInError {problem : Problem} (run : (Parser.encloseInError d problem).run b = .ok () b₁)
    (run' : (Parser.encloseInError d' problem).run b' = .ok () b₁') : b₁.Level b₁' := by
  have counts {c c₁ : Buffer} {d : NodeId} (run : (Parser.encloseInError d problem).run c = .ok () c₁) :
      c₁.errors = c.errors + 1 := by
    obtain ⟨_, t₁, _, t₂, c₂, t₃, -, -, added, -, rfl⟩ := Parser.encloseInError_edit run
    exact (Parser.addError_ok added).2.2.2
  refine h.edit run run' (Parser.encloseInError_ok run).1 (Parser.encloseInError_ok run').1 ?_
  rw [counts run, counts run', h.errors]

end Level

end Buffer

/-- Level runs, step by step. -/
def Simulation.level : Simulation .level where
  same := Buffer.Level
  lost _ := False
  lost_leads _ lost := lost
  refused lenient := lenient.elim
  docs_of_node _ := trivial
  sees h := h.sees
  errors h := h.errors
  room h := .inl (by rw [h.maxDepth, h.openNodes])
  deep h := .inl (by rw [Buffer.isTooDeep, Buffer.isTooDeep, h.maxDepth, h.openNodes])
  push h _ := h.opens (by rw [List.length_cons, List.length_cons, h.openNodes])
  pop h := h.opens (by rw [List.length_tail, List.length_tail, h.openNodes])
  shift h := h.shift
  openNode h run run' := ⟨trivial, h.openNode run run'⟩
  addError h _ run run' := ⟨trivial, h.addError run run'⟩
  adoptDocs h _ := h.adoptDocs
  detach _ h _ := h.detach
  attach _ h _ := h.attach
  encloseInError _ h _ _ := h.encloseInError

/-- Where the first of two level runs succeeds, so does the second, unless it meets a fault. -/
theorem Lockstep.level {α β : Type} {R : α → β → Prop} {p : Parser α} {q : Parser β} {a : α} {b b' b₁ : Buffer}
    (h : Lockstep .level R p q) (level : b.Level b') (run : p.run b = .ok a b₁) :
    (q.run b').Gives fun a' b₁' => R a a' ∧ b₁.Level b₁' := by
  have agree := h.agrees .level level
  rw [run] at agree
  generalize q.run b' = o at agree
  cases agree with
  | escaped lost => exact lost.elim
  | fault => trivial
  | ok value same => exact ⟨value, same⟩

/-- Where as many nodes may be opened, two scopes are level behind their bodies if these are. -/
theorem Parser.scope_gives {α : Type} {R : α → α → Prop} {p : Parser α} [Steady p] {kind : TreeKind}
    {recovery : Recovery} {c : Closed α} {b b' b₁ : Buffer} (run : (scope kind p recovery).run b = .ok c b₁)
    (clean : b₁.errors = b.errors) (maxDepth : b'.maxDepth = b.maxDepth)
    (openNodes : b'.openNodes.length = b.openNodes.length)
    (inside : ∀ {i i' b₂ b₂' a b₃}, (openNode kind).run b = .ok i b₂ → (openNode kind).run b' = .ok i' b₂' →
      p.run b₂ = .ok a b₃ → b₃.errors = b₂.errors → b₃.cursor = b₁.cursor →
      (p.run b₂').Gives fun a' b₃' => R a a' ∧ b₃.Level b₃') :
    ((scope kind p recovery).run b').Gives fun c' b₁' => Option.Rel R c.value c'.value ∧ b₁.Level b₁' := by
  obtain ⟨i, a, b₂, b₃, opened, shallow, run', clean', rfl, rfl⟩ := exists_scope run clean
  unfold scope
  refine gives_bind (gives_of_ok (A := fun i' b₂' => (openNode kind).run b' = .ok i' b₂') fun _ _ => id)
    fun i' b₂' _ opened' => ?_
  have shallow' : b₂'.isTooDeep = false := by
    rw [← shallow, Buffer.isTooDeep, Buffer.isTooDeep, KeepsOpen.openNode_ok opened, KeepsOpen.openNode_ok opened',
      List.length_cons, List.length_cons, openNodes, (Steady.ok opened).maxDepth, (Steady.ok opened').maxDepth, maxDepth]
  have gives := inside opened opened' run' clean' rfl
  rw [← limited_allowed shallow'] at gives
  refine gives_bind (recovering_gives recovery gives) fun _ b₃' _ ⟨a', same, value, level⟩ => ?_
  obtain rfl := same
  refine gives_bind (gives_of_ok fun _ b₄' closed => ?_) fun _ _ _ level => ⟨.some value, level⟩
  rw [closeNode_ok closed]
  exact level.opens (by rw [List.length_tail, List.length_tail, level.openNodes])

end SmithyIdl
