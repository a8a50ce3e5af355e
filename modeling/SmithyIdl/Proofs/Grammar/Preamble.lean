import SmithyIdl.Proofs.Grammar.Model
import SmithyIdl.Proofs.Grammar.Taken
import SmithyIdl.Proofs.Grammar.Unfailing

/-! # Before the statements

What is read before the first statement, and the moments at which a statement is about to be read. Where a line with a
namespace is all that comes before the first statement, just this line is taken. -/

set_option synthInstance.maxSize 2000

namespace SmithyIdl

namespace Grammar

open SmithyIdl.Parser

/-- Everything up to the namespace. -/
def header : Parser Unit := do
  whitespace
  controlSection
  metadataSection

/-- Everything up to the first statement. The node of all statements is open behind it. -/
def preamble : Parser Docs := do
  header
  let _ ← openNode .shapeSection
  let docs ← namespaceOrError
  let docs ← useSection docs
  let _ ← openNode .shapeStatements
  return docs

/-- A statement of the text is about to be read, and these documentation comments wait for it. -/
inductive AtStatement (filename text : String) (maxDepth : Nat) : Docs → Buffer → Prop where
  | first {docs : Docs} {b : Buffer} (run : preamble.run (.ofText filename text maxDepth) = .ok docs b)
      (more : b.hasNext = true) : AtStatement filename text maxDepth docs b
  | next {docs docs' : Docs} {b b' : Buffer} (before : AtStatement filename text maxDepth docs b)
      (run : (shapeOrApplyStatement docs).run b = .ok docs' b') (more : b'.hasNext = true) :
      AtStatement filename text maxDepth docs' b'

/-- A success before the end of the text. -/
def unlessEnded : Outcome Docs → Option (Docs × Buffer)
  | .ok docs b => if b.hasNext then some (docs, b) else none
  | _ => none

/-- The moment at which the statement behind `n` others is about to be read, if there is one. -/
def moment? (filename text : String) (maxDepth : Nat) : Nat → Option (Docs × Buffer)
  | 0 => unlessEnded (preamble.run (.ofText filename text maxDepth))
  | n + 1 => (moment? filename text maxDepth n).bind fun (docs, b) => unlessEnded ((shapeOrApplyStatement docs).run b)

variable {filename text : String} {maxDepth : Nat} {docs : Docs} {b : Buffer}

theorem unlessEnded_eq_some {o : Outcome Docs} : unlessEnded o = some (docs, b) ↔ o = .ok docs b ∧ b.hasNext = true := by
  cases o with
  | ok docs' b' =>
    simp only [unlessEnded, Option.ite_none_right_eq_some, Option.some.injEq, Prod.mk.injEq, Outcome.ok.injEq]
    constructor
    · rintro ⟨more, rfl, rfl⟩
      exact ⟨⟨rfl, rfl⟩, more⟩
    · rintro ⟨⟨rfl, rfl⟩, more⟩
      exact ⟨more, rfl, rfl⟩
  | error => simp [unlessEnded]
  | fault => simp [unlessEnded]

theorem atStatement_iff : AtStatement filename text maxDepth docs b ↔ ∃ n, moment? filename text maxDepth n = some (docs, b) := by
  constructor
  · intro moment
    induction moment with
    | first run more => exact ⟨0, unlessEnded_eq_some.mpr ⟨run, more⟩⟩
    | next _ run more ih =>
      obtain ⟨n, before⟩ := ih
      exact ⟨n + 1, by rw [moment?, before, Option.bind_some, unlessEnded_eq_some]; exact ⟨run, more⟩⟩
  · rintro ⟨n, moment⟩
    induction n generalizing docs b with
    | zero =>
      obtain ⟨run, more⟩ := unlessEnded_eq_some.mp moment
      exact .first run more
    | succ n ih =>
      obtain ⟨⟨docs', b'⟩, before, moment⟩ := Option.bind_eq_some_iff.mp moment
      obtain ⟨run, more⟩ := unlessEnded_eq_some.mp moment
      exact .next (ih before) run more

end Grammar

/-! ### A namespace in a line of its own -/

/-- A line with a namespace comes, and behind it neither trivia nor the keyword `use`. -/
structure Buffer.NamespaceLine (b : Buffer) : Prop where
  keyword : (b.peek 0).isIdentifier "namespace" = true
  space : (b.peek 1).kind = .space
  name : (b.peek 2).kind = .identifier
  newline : (b.peek 3).kind = .newline
  other : (b.peek 4).kind.isTrivia = false
  notUse : (b.peek 4).isIdentifier "use" = false
  left : b.cursor + 4 ≤ b.eof

namespace Grammar

open SmithyIdl.Parser

variable {b : Buffer} {d k : Nat}

theorem spaces_none (other : (b.peek k).kind ≠ .space) : Takes b d k k spaces fun _ => True := by
  unfold spaces
  refine .bind (.isAt .space) fun here same => ?_
  rw [same, decide_eq_false other]
  exact .pure trivial

theorem spaces_one (room : d < b.maxDepth) (left : b.cursor + k < b.eof) (here : (b.peek k).kind = .space)
    (other : (b.peek (k + 1)).kind ≠ .space) : Takes b d k (k + 1) spaces fun _ => True := by
  unfold spaces
  refine .bind (.isAt .space) fun found same => ?_
  rw [same, decide_eq_true here]
  have comes : b.Comes k [b.peek k] (k + 1) := .cons rfl left .nil
  exact .within room .spaces (.shiftKinds comes (by simp [here]) (decide_eq_false other))

theorem docComments_none (other : (b.peek k).kind ≠ .docComment) : Takes b d k k docComments (· = none) := by
  unfold docComments
  refine .bind (.isAt .docComment) fun here same => ?_
  rw [same, decide_eq_false other]
  exact .pure rfl

/-- A line feed with nothing behind it that belongs to the end of the line. -/
theorem endLine_newline (room : d < b.maxDepth) (left : b.cursor + k < b.eof) (here : (b.peek k).kind = .newline)
    (other : (b.peek (k + 1)).kind.isTrivia = false) : Takes b d k (k + 1) endLine (· = none) := by
  obtain ⟨white, docs⟩ := Bool.or_eq_false_iff.mp other
  have inside : Takes b (d + 1) k (k + 1) (do
      consumeAny
      shiftKinds TokenKind.isWhitespace
      docComments) (· = none) :=
    .bind (.consumeAny left) fun _ _ => .bind (.shiftKinds_none white) fun _ _ =>
      docComments_none (of_decide_eq_false docs)
  unfold endLine
  refine .bind (spaces_none (by rw [here]; decide)) fun _ _ => .bind .current fun token same => ?_
  rw [same, here]
  unfold breakLine
  refine .bind (inside.scope room .lineBreak .statement) fun br closed => .pure ?_
  obtain ⟨docs, found, rfl⟩ := closed
  rw [Option.mem_def.mp found]
  rfl

theorem controlSection_none (room : d < b.maxDepth) (other : (b.peek k).kind ≠ .dollar) :
    Takes b d k k controlSection fun _ => True := by
  refine .within room .controlSection (.stop (fun behind => ?_) trivial)
  dsimp only
  rw [Buffer.isAt, behind.current, decide_eq_false other]

theorem metadataSection_none (room : d < b.maxDepth) (other : (b.peek k).isIdentifier "metadata" = false) :
    Takes b d k k metadataSection fun _ => True := by
  refine .within room .metadataSection (.stop (fun behind => ?_) trivial)
  dsimp only
  rw [Buffer.isAtKeyword, behind.current, other]

theorem useSection_none (room : d < b.maxDepth) (other : (b.peek k).isIdentifier "use" = false) :
    Takes b d k k (useSection none) (· = none) := by
  have inside : Takes b (d + 1) k k (foldWhile (fun _ b => b.isAtKeyword "use") (fun _ => useStatement) none)
      (· = none) := by
    refine .stop (fun behind => ?_) rfl
    rw [Buffer.isAtKeyword, behind.current, other]
  unfold useSection
  refine .bind (inside.scope room .useSection .statement) fun uses closed => .pure ?_
  obtain ⟨docs, found, rfl⟩ := closed
  rw [Option.mem_def.mp found]
  rfl

section
variable (line : b.NamespaceLine)
include line

theorem namespaceOrError_line (room : d + 1 < b.maxDepth) : Takes b d 0 4 namespaceOrError (· = none) := by
  have left := line.left
  have inside : Takes b (d + 1) 0 4 (do
      keyword
      someSpaces
      namespaceId
      endLine) (· = none) := by
    refine .bind (keyword_takes room (by omega)) fun _ _ => ?_
    have spaces : Takes b (d + 1) 1 2 someSpaces fun _ => True :=
      .bind (.expect line.space) fun _ _ => spaces_one room (by omega) line.space (by rw [line.name]; decide)
    refine .bind spaces fun _ _ => ?_
    have name : b.Comes 2 [b.peek 2] 3 := .cons rfl (by omega) .nil
    refine .bind (namespaceId_takes line.name .nil name room (by rw [line.newline]; decide)) fun _ _ => ?_
    exact endLine_newline room (by omega) line.newline line.other
  unfold namespaceOrError
  refine .bind (.isAtKeyword "namespace") fun here same => ?_
  rw [same, line.keyword]
  unfold namespaceStatement declaration
  refine .bind (inside.scope (by omega) .namespaceStatement .statement) fun statement closed => .pure ?_
  obtain ⟨docs, found, rfl⟩ := closed
  rw [Option.mem_def.mp found]
  rfl

/-- The statements begin behind the line, and no documentation comments wait for them. -/
theorem preamble_line (room : b.openNodes.length + 2 < b.maxDepth) :
    (preamble.run b).Gives fun docs b' => docs = none ∧ b.Behind 4 (b.openNodes.length + 2) b' := by
  obtain ⟨kind, name⟩ := Bool.and_eq_true_iff.mp line.keyword
  have kind := of_decide_eq_true kind
  have name := of_decide_eq_true name
  have noMetadata : (b.peek 0).isIdentifier "metadata" = false := by
    rw [Token.isIdentifier, name]
    simp
  have nothing : Takes b b.openNodes.length 0 0 header fun _ => True :=
    .bind (whitespace_none (by rw [kind]; rfl)) fun _ _ =>
      .bind (controlSection_none (by omega) (by rw [kind]; simp)) fun _ _ => metadataSection_none (by omega) noMetadata
  unfold preamble
  refine gives_bind (nothing (.start b)) fun _ b₁ _ h₁ => ?_
  refine gives_bind (Takes.openNode .shapeSection h₁.2) fun _ b₂ _ h₂ => ?_
  refine gives_bind (namespaceOrError_line line room h₂) fun docs b₃ _ h₃ => ?_
  obtain ⟨rfl, h₃⟩ := h₃
  refine gives_bind (useSection_none (by omega) line.notUse h₃) fun docs b₄ _ h₄ => ?_
  obtain ⟨rfl, h₄⟩ := h₄
  refine gives_bind (Takes.openNode .shapeStatements h₄) fun _ b₅ _ h₅ => ?_
  exact ⟨rfl, h₅⟩

end

/-! ### The moments -/

/-- The node of all statements is open, in its section, in the file. -/
def InStatements (v : View) : Prop :=
  ∃ i j, v.names = [(i, .plain .shapeStatements), (j, .plain .shapeSection), (SyntaxTree.root, .plain .idl)]

variable {filename text : String} {maxDepth : Nat} {docs : Docs} {b' : Buffer}

instance header_steady : Steady header := by
  unfold header
  infer_instance

instance preamble_steady : Steady preamble := by
  unfold preamble
  infer_instance

theorem model_eq : model = (header >>= fun _ => shapeSection >>= fun _ => leftOver) := by
  simp only [model, header, bind_assoc]

theorem header_ensures {v : View} {E : Buffer → Prop} (shown : b.Shows v) :
    header.Ensures b (fun _ b' => b'.ShowsGrown v) E := by
  unfold header
  refine (whitespace_ensures shown).bind fun _ b₁ ⟨F₁, shown₁⟩ => ?_
  refine (controlSection_ensures shown₁).bind fun _ b₂ ⟨F₂, shown₂⟩ => ?_
  exact (metadataSection_ensures shown₂).mono (fun _ b₃ _ h₃ => h₃.trans.trans) fun _ h => h

/-- At the first statement the node of all statements has no children. -/
theorem preamble_ensures (filename text : String) (maxDepth : Nat) : preamble.Ensures (.ofText filename text maxDepth)
    (fun docs b => ∃ v, b.Shows v ∧ v.Awaits docs ∧ InStatements v ∧ v.inner.children = .nil) fun _ => True := by
  unfold preamble
  refine (header_ensures (ofText_shows filename text maxDepth)).bind fun _ b₁ ⟨F₁, shown₁⟩ => ?_
  obtain ⟨b₂, entered, shown₂⟩ := run_openNode shown₁ .shapeSection
  refine .after entered (((namespaceOrError_hands.hands shown₂).mono (fun _ _ _ h => h) fun _ _ => trivial).bind
    fun docs₃ b₃ h₃ => ?_)
  obtain ⟨w₃, shown₃, names₃, -, awaits₃⟩ := h₃
  refine ((useSection_passes shown₃ awaits₃).mono (fun _ _ _ h => h) fun _ _ => trivial).bind fun docs₄ b₄ h₄ => ?_
  obtain ⟨w₄, shown₄, names₄, -, awaits₄⟩ := h₄
  obtain ⟨b₅, opened, shown₅⟩ := run_openNode shown₄ .shapeStatements
  refine .after opened (.pure ⟨_, shown₅, awaits₄.enter _ _, ⟨b₄.tree.size, b₁.tree.size, ?_⟩, rfl⟩)
  rw [View.enter_names, names₄, names₃]
  rfl

/-- A repetition that goes on is a round and then the repetition from there. -/
theorem foldWhile_cons {σ : Type} {more : σ → Buffer → Bool} {round : σ → Parser σ} {s s₂ : σ} {b b₂ : Buffer}
    (go : more s b = true) (run : (foldWhile more round s).run b = .ok s₂ b₂) :
    (round s >>= foldWhile more round).run b = .ok s₂ b₂ := by
  obtain ⟨_, _, taken, -, rest⟩ := foldWhile_round go run
  exact (run_bind_of_ok taken).trans rest

/-- Behind a round, a repetition goes on as it does from there. -/
theorem foldWhile_next {σ : Type} {more : σ → Buffer → Bool} {round : σ → Parser σ} {s s₁ s₂ : σ} {b b₁ b₂ : Buffer}
    (go : more s b = true) (taken : (round s).run b = .ok s₁ b₁)
    (run : (foldWhile more round s).run b = .ok s₂ b₂) : (foldWhile more round s₁).run b₁ = .ok s₂ b₂ := by
  have whole := foldWhile_cons go run
  rwa [run_bind_of_ok taken] at whole

theorem shapeSection_eq {b₁ : Buffer} (more : b.hasNext = true) : shapeSection.run b = .ok () b₁ ↔
    (within .shapeSection do
      let docs ← namespaceOrError
      let docs ← useSection docs
      shapeStatements docs).run b = .ok () b₁ := by
  unfold shapeSection
  rw [run_bind_of_ok (run_hasNext b), run_ite, if_pos more]

theorem leftOver_done {b₁ : Buffer} (run : leftOver.run b = .ok () b₁) (ended : b.hasNext = false) : b₁ = b := by
  unfold leftOver at run
  rw [run_bind_of_ok (run_hasNext b), run_ite, if_neg (by rw [ended]; simp)] at run
  cases run
  rfl

/-- From the first statement on there are only statements, up to the end of the file. -/
theorem model_of_preamble (room : 3 ≤ maxDepth) (before : preamble.run (.ofText filename text maxDepth) = .ok docs b)
    (more : b.hasNext = true) :
    ∃ docs₁ b₁, (foldWhile (fun _ b => b.hasNext) shapeOrApplyStatement docs).run b = .ok docs₁ b₁ ∧
      model.run (.ofText filename text maxDepth) = .ok () { b₁ with openNodes := b₁.openNodes.tail.tail } ∧
      ∃ F L, Finished { b₁ with openNodes := b₁.openNodes.tail.tail } text F L := by
  obtain ⟨b', F, L, run, finished, -⟩ := model_run filename text maxDepth
  obtain ⟨v, shown, -, ⟨i, j, names⟩, -⟩ := (preamble_ensures filename text maxDepth).holds before
  have deep : b.openNodes.length = 3 := by rw [shown.length_openNodes, names]; rfl
  have leads := Steady.ok before
  have whole := run
  rw [model_eq] at run
  unfold preamble at before
  obtain ⟨_, b₁, first, run⟩ := bind_eq_ok.mp run
  obtain ⟨_, b₁', first', before⟩ := bind_eq_ok.mp before
  cases first.symm.trans first'
  obtain ⟨_, b₂, entered, before⟩ := bind_eq_ok.mp before
  obtain ⟨docs₃, b₃, named, before⟩ := bind_eq_ok.mp before
  obtain ⟨docs₄, b₄, used, before⟩ := bind_eq_ok.mp before
  obtain ⟨_, b₅, opened, done⟩ := bind_eq_ok.mp before
  cases done
  obtain ⟨_, b₆, sections, last⟩ := bind_eq_ok.mp run
  -- The section is entered, as a token is left, and so is the node of its statements.
  have behind : b₁.Leads b := (Steady.ok entered).trans ((Steady.ok named).trans ((Steady.ok used).trans (Steady.ok opened)))
  have more₁ : b₁.hasNext = true := by
    rw [Buffer.hasNext_iff] at more ⊢
    exact Nat.lt_of_le_of_lt behind.cursor (behind.eof ▸ more)
  obtain ⟨F₁, shown₁⟩ := (header_ensures (E := fun _ => False) (ofText_shows filename text maxDepth)).holds first
  have room₂ : b₂.isTooDeep = false := by
    rw [Buffer.isTooDeep, KeepsOpen.openNode_ok entered, List.length_cons, shown₁.length_openNodes,
      ((Steady.ok first).trans (Steady.ok entered)).maxDepth]
    exact decide_eq_false (by change ¬ maxDepth < 1 + 1; omega)
  have room₅ : b.isTooDeep = false := by
    rw [Buffer.isTooDeep, deep, leads.maxDepth]
    exact decide_eq_false (Nat.not_lt_of_le room)
  obtain ⟨b₇, inside, rfl⟩ := within_entered entered room₂ ((shapeSection_eq more₁).mp sections)
  obtain ⟨_, b₃', named', inside⟩ := bind_eq_ok.mp inside
  cases named.symm.trans named'
  obtain ⟨_, b₄', used', statements⟩ := bind_eq_ok.mp inside
  cases used.symm.trans used'
  obtain ⟨b₈, within', rfl⟩ := within_entered opened room₅ statements
  obtain ⟨docs₁, _, rounds, done⟩ := bind_eq_ok.mp within'
  cases done
  have ended : b₈.hasNext = false :=
    (foldWhile_ok (I := fun _ _ => True) (fun _ _ _ _ _ _ _ => trivial) trivial rounds).2
  obtain rfl := leftOver_done last ended
  exact ⟨docs₁, b₈, rounds, whole, F, L, finished⟩

namespace AtStatement

variable (h : AtStatement filename text maxDepth docs b)
include h

theorem more : b.hasNext = true := by cases h <;> assumption

theorem shown : ∃ v, b.Shows v ∧ v.Awaits docs ∧ InStatements v := by
  induction h with
  | first run =>
    obtain ⟨v, shown, awaits, inside, -⟩ := (preamble_ensures filename text maxDepth).holds run
    exact ⟨v, shown, awaits, inside⟩
  | next _ run _ ih =>
    obtain ⟨v, shown, awaits, i, j, names⟩ := ih
    obtain ⟨w, shown', same, -, awaits'⟩ := (shapeOrApplyStatement_ensures shown awaits).holds run
    exact ⟨w, shown', awaits', i, j, same.trans names⟩

theorem leads : (Buffer.ofText filename text maxDepth).Leads b := by
  induction h with
  | first run => exact Steady.ok run
  | next _ run _ ih => exact ih.trans (Steady.ok run)

/-- The statements that come are the last ones of the file, and nothing is added to its tree behind them. -/
theorem model_run (room : 3 ≤ maxDepth) :
    ∃ docs₁ b₁, (foldWhile (fun _ b => b.hasNext) shapeOrApplyStatement docs).run b = .ok docs₁ b₁ ∧
      model.run (.ofText filename text maxDepth) = .ok () { b₁ with openNodes := b₁.openNodes.tail.tail } ∧
      ∃ F L, Finished { b₁ with openNodes := b₁.openNodes.tail.tail } text F L := by
  induction h with
  | first run more => exact model_of_preamble room run more
  | next before run _ ih =>
    obtain ⟨docs₁, b₁, rounds, whole⟩ := ih
    exact ⟨docs₁, b₁, foldWhile_next before.more run rounds, whole⟩

end AtStatement

end Grammar

end SmithyIdl
