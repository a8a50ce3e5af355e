import SmithyIdl.Proofs.Buffer.Confined
import SmithyIdl.Proofs.Grammar.Nearsighted
import SmithyIdl.Proofs.Lockstep.Statements

/-! # Shape statements around their bodies

A shape statement with a body is what stands before the opening brace, and then the body in a node of its own. The
moments at which a body is about to be read are those at which a mistake in it has not been met yet. -/

set_option synthInstance.maxSize 20000

namespace SmithyIdl.Grammar

open SmithyIdl.Parser

/-- A statement with a body in braces. What stands before it ends in front of the opening brace. The contents are read
    from there up to the closing brace, and say whether it is taken. -/
structure Braced where
  head : Parser Unit
  kind : TreeKind
  contents : Parser Bool

/-- The opening brace and what is read behind it, whatever becomes of it. -/
def upToBrace (contents : Parser Unit) : Parser Bool := do
  consumeAny
  whitespace
  contents
  return true

/-- The opening brace of an object and its entries. -/
def objectUpToBrace : Parser Bool := do
  consumeAny
  whitespace
  partsUntil .rbrace (objectEntry nodeValue)

/-- The only member of a list. -/
def listMembers : Parser Unit := do
  if ← ask beforeBrace then
    within .listMember do let _ ← shapeMember .inList none
  whitespace

/-- The properties of an operation, up to its closing brace. -/
def operationProperties : Parser Unit := do
  let _ ← foldWhile (fun _ b => beforeBrace b) operationProperty []

/-- What stands before the body of a structure. -/
def structureHead : Parser Unit := do
  typedName
  structureResource
  mixins
  whitespace
  expect .lbrace

namespace ShapeForm

/-- The forms that have a body. -/
def braced? : ShapeForm → Option Braced
  | simple => none
  | enumeration => some ⟨headUpToBrace, .enumMembers, upToBrace (membersOf .enumMember enumMember)⟩
  | list => some ⟨headUpToBrace, .listMembers, upToBrace listMembers⟩
  | map => some ⟨headUpToBrace, .mapMembers, upToBrace mapMembers⟩
  | struct => some ⟨structureHead, .structureMembers, upToBrace (membersOf .structureMember (blockMember .inStructure))⟩
  | union => some ⟨headUpToBrace, .unionMembers, upToBrace (membersOf .unionMember (blockMember .inUnion))⟩
  | service | resource => some ⟨headUpToBrace, .nodeObject, objectUpToBrace⟩
  | operation => some ⟨headUpToBrace, .operationBody, upToBrace operationProperties⟩

end ShapeForm

/-- The closing brace is taken where the contents say so. -/
def Braced.body (x : Braced) : Parser Unit := do if ← x.contents then consume .rbrace

variable {form : ShapeForm} {x : Braced}

theorem braced_eq (kind : TreeKind) (contents : Parser Unit) :
    braced kind contents = within kind (do if ← upToBrace contents then consume .rbrace) := by
  simp only [braced, upToBrace, bind_assoc, pure_bind, if_true]

/-- The statement is the head and then the body. -/
theorem statement_eq (h : form.braced? = some x) : form.statement = (do
    x.head
    within x.kind x.body) := by
  cases form
  case simple => cases h
  case service | resource =>
    cases h
    simp only [ShapeForm.statement, entityStatement, nodeObject, objectOf, Braced.body, objectUpToBrace, bind_assoc]
  all_goals
    cases h
    simp only [ShapeForm.statement, enumStatement, listStatement, mapStatement, structureStatement, structureRest,
      unionStatement, operationStatement, memberBlock, braced_eq, Braced.body, headUpToBrace, structureHead, listMembers,
      operationProperties, bind_assoc]

/-! ### The parts -/

variable {M : Matching} {hints : Prop} {contents : Parser Unit}

instance listMembers_lockstep : Lockstep M Eq listMembers listMembers := by
  have member : Lockstep M Eq (do let _ ← shapeMember .inList none) (do let _ ← shapeMember .inList none) :=
    .bind (shapeMember_lockstep .inList .none) fun _ _ _ => .pure rfl
  unfold listMembers
  infer_instance

instance operationProperties_lockstep : Lockstep M Eq operationProperties operationProperties := by
  have properties : Lockstep M (fun seen seen' => seen' = seen.map M.respell)
      (foldWhile (fun _ b => beforeBrace b) operationProperty [])
      (foldWhile (fun _ b => beforeBrace b) operationProperty []) :=
    .foldWhile rfl (fun _ _ _ _ _ h => beforeBrace_shown.same h) fun seen _ same => same ▸ operationProperty_lockstep seen
  unfold operationProperties
  exact .bind properties fun _ _ _ => .pure rfl

instance upToBrace_lockstep [Steady contents] [Lockstep M Eq contents contents] :
    Lockstep M Eq (upToBrace contents) (upToBrace contents) := by
  unfold upToBrace
  infer_instance

instance objectUpToBrace_lockstep : Lockstep M Eq objectUpToBrace objectUpToBrace := by
  unfold objectUpToBrace
  infer_instance

instance structureHead_lockstep : Lockstep M Eq structureHead structureHead := by
  unfold structureHead
  infer_instance

instance listMembers_nearsighted : Nearsighted hints listMembers := by
  unfold listMembers
  infer_instance

instance operationProperties_nearsighted : Nearsighted hints operationProperties := by
  unfold operationProperties
  infer_instance

instance upToBrace_nearsighted [Nearsighted hints contents] : Nearsighted hints (upToBrace contents) := by
  unfold upToBrace
  infer_instance

instance objectUpToBrace_nearsighted : Nearsighted hints objectUpToBrace := by
  unfold objectUpToBrace
  infer_instance

instance structureHead_nearsighted : Nearsighted hints structureHead := by
  unfold structureHead
  infer_instance

instance structureHead_grows : Grows structureHead := by
  unfold structureHead
  infer_instance

instance listMembers_reshapes : Reshapes listMembers := by
  unfold listMembers
  infer_instance

instance operationProperties_reshapes : Reshapes operationProperties := by
  unfold operationProperties
  infer_instance

instance upToBrace_reshapes [Reshapes contents] : Reshapes (upToBrace contents) := by
  unfold upToBrace
  infer_instance

instance objectUpToBrace_reshapes : Reshapes objectUpToBrace := by
  unfold objectUpToBrace
  infer_instance

/-- What is known of both parts. -/
structure Braced.Regular (x : Braced) : Prop where
  head_lockstep : ∀ M, Lockstep M Eq x.head x.head
  head_near : Nearsighted True x.head
  head_grows : Grows x.head
  head_ends : ∀ {b b' : Buffer}, x.head.run b = .ok () b' → b'.current.kind = .lbrace
  contents_lockstep : ∀ M, Lockstep M Eq x.contents x.contents
  contents_near : Nearsighted False x.contents
  contents_reshapes : Reshapes x.contents

theorem headUpToBrace_ends {b b' : Buffer} (run : headUpToBrace.run b = .ok () b') : b'.current.kind = .lbrace := by
  unfold headUpToBrace at run
  obtain ⟨_, b₁, -, run⟩ := bind_eq_ok.mp run
  obtain ⟨_, b₂, -, run⟩ := bind_eq_ok.mp run
  obtain ⟨_, b₃, -, run⟩ := bind_eq_ok.mp run
  obtain ⟨rfl, kind⟩ := expect_ok run
  exact kind

theorem structureHead_ends {b b' : Buffer} (run : structureHead.run b = .ok () b') : b'.current.kind = .lbrace := by
  unfold structureHead at run
  obtain ⟨_, b₁, -, run⟩ := bind_eq_ok.mp run
  obtain ⟨_, b₂, -, run⟩ := bind_eq_ok.mp run
  obtain ⟨_, b₃, -, run⟩ := bind_eq_ok.mp run
  obtain ⟨_, b₄, -, run⟩ := bind_eq_ok.mp run
  obtain ⟨rfl, kind⟩ := expect_ok run
  exact kind

theorem regular_of_braced (h : form.braced? = some x) : x.Regular := by
  cases form
  case simple => cases h
  case struct =>
    cases h
    exact ⟨fun _ => structureHead_lockstep, structureHead_nearsighted, structureHead_grows, structureHead_ends,
      fun _ => inferInstance, inferInstance, inferInstance⟩
  all_goals
    cases h
    exact ⟨fun _ => headUpToBrace_lockstep, inferInstance, inferInstance, headUpToBrace_ends, fun _ => inferInstance,
      inferInstance, inferInstance⟩

/-! ### The moments -/

/-- Opens the nodes around a body, and reads what stands before it. -/
def upToBody (docs : Docs) (traits : Option NodeId) (form : ShapeForm) (x : Braced) : Parser Unit := do
  let _ ← openNode .shapeOrApplyStatement
  let _ ← openNode .shapeStatement
  adoptDocs docs
  withTraits traits attach
  let _ ← openNode .shapeBody
  let _ ← openNode form.kind
  x.head
  let _ ← openNode x.kind

/-- A body of the text is about to be read, in nodes that are open for its statement. -/
inductive AtBody (filename text : String) (maxDepth : Nat) (x : Braced) (b : Buffer) : Prop where
  | intro {docs : Docs} {traits : Option NodeId} {form : ShapeForm} {s b₀ : Buffer}
      (moment : AtStatement filename text maxDepth docs s) (taken : detachedTraits.run s = .ok traits b₀)
      (name : b₀.isAt .identifier = true) (type : ShapeForm.ofType? b₀.current.lexeme = some form)
      (braced : form.braced? = some x) (run : (upToBody docs traits form x).run b₀ = .ok () b)

/-- The body of the statement that is about to be read, if it is a shape statement that comes so far. -/
def body? (docs : Docs) (s : Buffer) : Option (Braced × Buffer) :=
  match detachedTraits.run s with
  | .ok traits b₀ =>
    if b₀.isAt .identifier then
      (ShapeForm.ofType? b₀.current.lexeme).bind fun form => form.braced?.bind fun x =>
        match (upToBody docs traits form x).run b₀ with
        | .ok () b => some (x, b)
        | _ => none
    else none
  | _ => none

variable {b b₀ b₁ b₂ s : Buffer} {docs : Docs} {traits : Option NodeId}

theorem atBody_iff {filename text : String} {maxDepth : Nat} : AtBody filename text maxDepth x b ↔
    ∃ docs s, AtStatement filename text maxDepth docs s ∧ body? docs s = some (x, b) := by
  constructor
  · rintro ⟨moment, taken, name, type, braced, run⟩
    refine ⟨_, _, moment, ?_⟩
    rw [body?, taken]
    simp only [name, if_true, type, braced, Option.bind_some, run]
  · rintro ⟨docs, s, moment, found⟩
    rw [body?] at found
    split at found
    · next traits b₀ taken =>
      split at found
      · next name =>
        obtain ⟨form, type, found⟩ := Option.bind_eq_some_iff.mp found
        obtain ⟨y, braced, found⟩ := Option.bind_eq_some_iff.mp found
        split at found
        · next run =>
          cases found
          exact .intro moment taken name type braced run
        · cases found
      · cases found
    · cases found

/-- Where a statement begins with a trait or an identifier, it begins with no trivia. -/
theorem not_trivia_of_traits (taken : detachedTraits.run s = .ok traits b₀) (name : b₀.isAt .identifier = true) :
    s.current.kind.isTrivia = false := by
  unfold detachedTraits at taken
  obtain ⟨found, b₁, read, rest⟩ := bind_eq_ok.mp taken
  cases found with
  | none =>
    cases rest
    unfold traitStatements at read
    obtain ⟨here, b₂, look, read⟩ := bind_eq_ok.mp read
    cases look
    rw [run_ite] at read
    split at read
    · obtain ⟨_, _, -, done⟩ := bind_eq_ok.mp read
      cases done
    · cases read
      rw [of_decide_eq_true name]
      rfl
  | some d =>
    rw [of_decide_eq_true (isAt_of_traitStatements read)]
    rfl

theorem withTraits_attach_ok {b b' : Buffer} (run : (withTraits traits attach).run b = .ok () b') :
    b'.openNodes = b.openNodes ∧ b'.cursor = b.cursor := by
  cases traits with
  | none =>
    cases run
    exact ⟨rfl, rfl⟩
  | some d =>
    obtain ⟨t, -, rfl⟩ := attach_ok run
    exact ⟨rfl, rfl⟩

/-- A statement is not refused where a node inside of it is not. -/
theorem shallow_of_leads (leads : b₁.Leads b) (fewer : b₁.openNodes.length ≤ b.openNodes.length)
    (room : b.isTooDeep = false) : b₁.isTooDeep = false := by
  rw [Buffer.isTooDeep, decide_eq_false_iff_not] at room ⊢
  rw [leads.maxDepth] at room
  omega

/-- The nodes that are open for a statement, from its body outwards, and the runs between. -/
theorem exists_opened (regular : x.Regular) {form : ShapeForm}
    (run : (upToBody docs traits form x).run b₀ = .ok () b) :
    ∃ n₁ b₁ n₂ b₂ b₃ b₄ n₃ b₅ n₄ b₆ b₇ n₅,
      (openNode .shapeOrApplyStatement).run b₀ = .ok n₁ b₁ ∧ (openNode .shapeStatement).run b₁ = .ok n₂ b₂ ∧
      (adoptDocs docs).run b₂ = .ok () b₃ ∧ (withTraits traits attach).run b₃ = .ok () b₄ ∧
      (openNode .shapeBody).run b₄ = .ok n₃ b₅ ∧ (openNode form.kind).run b₅ = .ok n₄ b₆ ∧
      x.head.run b₆ = .ok () b₇ ∧ (openNode x.kind).run b₇ = .ok n₅ b ∧
      b.openNodes = n₅ :: n₄ :: n₃ :: n₂ :: n₁ :: b₀.openNodes ∧ b₅.current = b₀.current := by
  unfold upToBody at run
  obtain ⟨n₁, b₁, run₁, run⟩ := bind_eq_ok.mp run
  obtain ⟨n₂, b₂, run₂, run⟩ := bind_eq_ok.mp run
  obtain ⟨_, b₃, run₃, run⟩ := bind_eq_ok.mp run
  obtain ⟨_, b₄, run₄, run⟩ := bind_eq_ok.mp run
  obtain ⟨n₃, b₅, run₅, run⟩ := bind_eq_ok.mp run
  obtain ⟨n₄, b₆, run₆, run⟩ := bind_eq_ok.mp run
  obtain ⟨_, b₇, run₇, run⟩ := bind_eq_ok.mp run
  obtain ⟨n₅, b₈, run₈, done⟩ := bind_eq_ok.mp run
  cases done
  have : KeepsOpen x.head := Lockstep.keepsOpen fun _ => regular.head_lockstep _
  refine ⟨n₁, b₁, n₂, b₂, b₃, b₄, n₃, b₅, n₄, b₆, b₇, n₅, run₁, run₂, run₃, run₄, run₅, run₆, run₇, run₈, ?_, ?_⟩
  · rw [KeepsOpen.openNode_ok run₈, KeepsOpen.ok run₇, KeepsOpen.openNode_ok run₆, KeepsOpen.openNode_ok run₅,
      (withTraits_attach_ok run₄).1, KeepsOpen.ok run₃, KeepsOpen.openNode_ok run₂, KeepsOpen.openNode_ok run₁]
  · have same₁ := (Steady.ok run₁).current_of_same (openNode_ok run₁).2.2.1
    have same₂ := (Steady.ok run₂).current_of_same (openNode_ok run₂).2.2.1
    have same₃ : b₃.current = b₂.current := congrFun (adoptDocs_peek run₃) 0
    have same₄ := (Steady.ok run₄).current_of_same (withTraits_attach_ok run₄).2
    have same₅ := (Steady.ok run₅).current_of_same (openNode_ok run₅).2.2.1
    rw [same₅, same₄, same₃, same₂, same₁]

/-- Behind its body a statement ends, and all nodes that are open for it are closed. -/
theorem AtBody.exists_round {filename text : String} {maxDepth : Nat} (h : AtBody filename text maxDepth x b)
    (room : b.isTooDeep = false) {b' : Buffer} (read : x.body.run b = .ok () b') (same : b'.openNodes = b.openNodes) :
    ∃ docs s v, AtStatement filename text maxDepth docs s ∧
      (shapeOrApplyStatement docs).run s = endStatement.run { b' with openNodes := b.openNodes.drop 5 } ∧
      ({ b' with openNodes := b.openNodes.drop 5 } : Buffer).Shows v ∧ InStatements v := by
  obtain @⟨docs, traits, form, s, b₀, moment, taken, name, type, braced, run⟩ := h
  have regular := regular_of_braced braced
  have := regular.head_grows
  obtain ⟨n₁, b₁, n₂, b₂, b₃, b₄, n₃, b₅, n₄, b₆, b₇, n₅, run₁, run₂, run₃, run₄, run₅, run₆, run₇, run₈, opened,
    current⟩ := exists_opened regular run
  have opened₁ := KeepsOpen.openNode_ok run₁
  have opened₂ := KeepsOpen.openNode_ok run₂
  have opened₅ := KeepsOpen.openNode_ok run₅
  have opened₆ := KeepsOpen.openNode_ok run₆
  have opened₄ : b₄.openNodes = b₂.openNodes := (withTraits_attach_ok run₄).1.trans (KeepsOpen.ok run₃)
  have leads₆ : b₆.Leads b := (Steady.ok run₇).trans (Steady.ok run₈)
  have leads₅ : b₅.Leads b := (Steady.ok run₆).trans leads₆
  have leads₂ : b₂.Leads b := (Steady.ok run₃).trans ((Steady.ok run₄).trans ((Steady.ok run₅).trans leads₅))
  have leads₁ : b₁.Leads b := (Steady.ok run₂).trans leads₂
  have shallow {b₁ : Buffer} (leads : b₁.Leads b) (few : b₁.openNodes.length ≤ b₀.openNodes.length + 5) :
      b₁.isTooDeep = false :=
    shallow_of_leads leads (by simpa [opened] using few) room
  -- From the body outwards, every node is closed behind what runs in it.
  have statement : form.statement.run b₆ = .ok () { b' with openNodes := n₄ :: n₃ :: n₂ :: n₁ :: b₀.openNodes } := by
    rw [statement_eq braced]
    refine (run_bind_of_ok run₇).trans (run_within run₈ room ?_)
    rw [read, ← opened, ← same]
  have body : shapeBody.run b₅ = .ok () { b' with openNodes := n₃ :: n₂ :: n₁ :: b₀.openNodes } := by
    have looked : Parser.current.run b₅ = .ok b₀.current b₅ := congrArg (Outcome.ok · b₅) current
    unfold shapeBody
    rw [run_bind_of_ok looked]
    unfold shapeOfType
    rw [type]
    exact run_within run₆ (shallow leads₆ (by simp [opened₆, opened₅, opened₄, opened₂, opened₁])) statement
  have inside : (within .shapeBody shapeBody).run b₄ = .ok () { b' with openNodes := n₂ :: n₁ :: b₀.openNodes } :=
    run_within run₅ (shallow leads₅ (by simp [opened₅, opened₄, opened₂, opened₁])) body
  have stated : (shapeStatement docs traits).run b₁ = .ok () { b' with openNodes := n₁ :: b₀.openNodes } :=
    run_within run₂ (shallow leads₂ (by simp [opened₂, opened₁]))
      ((run_bind_of_ok run₃).trans ((run_bind_of_ok run₄).trans inside))
  have whole : (within .shapeOrApplyStatement (shapeStatement docs traits)).run b₀ =
      .ok () { b' with openNodes := b₀.openNodes } := run_within run₁ (shallow leads₁ (by simp [opened₁])) stated
  have outside : b.openNodes.drop 5 = b₀.openNodes := by rw [opened]; rfl
  obtain ⟨v, shown, awaits, i, j, names⟩ := moment.shown
  obtain ⟨w, shown₀, spine, pending⟩ := (detachedTraits_ensures shown).holds taken
  obtain ⟨u, shown', names', -⟩ :=
    (statedShape_ensures shown₀ (fun d waits => spine ▸ awaits d waits) pending).holds whole
  refine ⟨docs, s, u, moment, ?_, outside ▸ shown', i, j, ?_⟩
  · have looked : Parser.current.run s = .ok s.current s := rfl
    unfold shapeOrApplyStatement
    rw [run_bind_of_ok looked, if_neg (by rw [not_trivia_of_traits taken name]; exact Bool.false_ne_true),
      run_bind_of_ok taken]
    have apply : (isAtKeyword "apply").run b₀ = .ok false b₀ := by
      refine congrArg (Outcome.ok · b₀) (eq_false_of_ne_true fun here => ?_)
      have lexeme : b₀.current.lexeme = "apply" := of_decide_eq_true (Bool.and_eq_true_iff.mp here).2
      rw [lexeme] at type
      cases type
    have identifier : (isAt .identifier).run b₀ = .ok true b₀ := congrArg (Outcome.ok · b₀) name
    rw [run_bind_of_ok apply, if_neg Bool.false_ne_true, run_bind_of_ok identifier, if_pos rfl, run_bind_of_ok whole,
      outside]
  · rw [names', ← names]
    exact congrArg (List.map OpenNode.name) spine

/-! ### What is open -/

theorem shows_of_openNode {v : View} {kind : TreeKind} {i : NodeId} (shown : b.Shows v)
    (run : (openNode kind).run b = .ok i b₁) : b₁.Shows (v.enter i (.plain kind)) := by
  obtain ⟨b', opened, shown'⟩ := run_openNode shown kind
  cases run.symm.trans opened
  exact shown'

/-- Five nodes are open for the statement, in the node of all statements. -/
theorem AtBody.shown {filename text : String} {maxDepth : Nat} (h : AtBody filename text maxDepth x b) :
    ∃ v inner one top above, b.Shows v ∧ inner.length = 4 ∧ v.names = inner ++
      [(one, .plain .shapeOrApplyStatement), (top, .plain .shapeStatements), (above, .plain .shapeSection),
        (SyntaxTree.root, .plain .idl)] := by
  obtain @⟨docs, traits, form, s, b₀, moment, taken, name, type, braced, run⟩ := h
  have := (regular_of_braced braced).head_grows
  obtain ⟨n₁, b₁, n₂, b₂, b₃, b₄, n₃, b₅, n₄, b₆, b₇, n₅, run₁, run₂, run₃, run₄, run₅, run₆, run₇, run₈, -⟩ :=
    exists_opened (regular_of_braced braced) run
  obtain ⟨v, shown, awaits, i, j, names⟩ := moment.shown
  obtain ⟨w, shown₀, spine, pending⟩ := (detachedTraits_ensures shown).holds taken
  have awaits₀ : w.Awaits docs := fun d waits => spine ▸ awaits d waits
  have shown₂ := shows_of_openNode (shows_of_openNode shown₀ run₁) run₂
  obtain ⟨w₃, shown₃, names₃, loose₃, items₃⟩ :=
    (adoptDocs_ensures (E := fun _ => False) shown₂ ((awaits₀.enter _ _).enter _ _) rfl).holds run₃
  obtain ⟨w₄, shown₄, names₄, -⟩ := (withTraits_ensures (E := fun _ => False) shown₃
    (pending.of_same loose₃ (items₃.trans ((View.items_enter ..).trans (View.items_enter ..)))) fun d =>
      attach_ensures shown₃).holds run₄
  have shown₆ := shows_of_openNode (shows_of_openNode shown₄ run₅) run₆
  obtain ⟨F, shown₇⟩ := (Grows.grows shown₆).holds run₇
  refine ⟨_, [(n₅, .plain x.kind), (n₄, .plain form.kind), (n₃, .plain .shapeBody), (n₂, .plain .shapeStatement)], n₁, i, j,
    shows_of_openNode shown₇ run₈, rfl, ?_⟩
  have outer : w.names = v.names := congrArg (List.map OpenNode.name) spine
  rw [View.enter_names, View.grow_names, View.enter_names, View.enter_names, names₄, names₃, View.enter_names,
    View.enter_names, outer, names]
  rfl

/-! ### Other tokens behind the brace -/

section
variable {filename text text' : String} {maxDepth : Nat} {o : TokenId}

instance upToBody_steady {form : ShapeForm} [Steady x.head] : Steady (upToBody docs traits form x) := by
  unfold upToBody
  infer_instance

theorem upToBody_nearsighted {form : ShapeForm} (head : Nearsighted True x.head) :
    Nearsighted True (upToBody docs traits form x) := by
  unfold upToBody
  infer_instance

theorem AtBody.regular (h : AtBody filename text maxDepth x b) : x.Regular := by
  obtain ⟨-, -, -, -, braced, -⟩ := h
  exact regular_of_braced braced

theorem AtBody.leads (h : AtBody filename text maxDepth x b) : (Buffer.ofText filename text maxDepth).Leads b := by
  obtain ⟨moment, taken, name, type, braced, run⟩ := h
  have := (regular_of_braced braced).head_grows
  exact moment.leads.trans ((Steady.ok taken).trans (Steady.ok run))

/-- The opening brace comes. -/
theorem AtBody.brace (h : AtBody filename text maxDepth x b) : b.current.kind = .lbrace := by
  obtain ⟨moment, taken, name, type, braced, run⟩ := h
  have regular := regular_of_braced braced
  obtain ⟨n₁, b₁, n₂, b₂, b₃, b₄, n₃, b₅, n₄, b₆, b₇, n₅, run₁, run₂, run₃, run₄, run₅, run₆, run₇, run₈, -⟩ :=
    exists_opened regular run
  rw [(Steady.ok run₈).current_of_same (openNode_ok run₈).2.2.1]
  exact regular.head_ends run₇

theorem ofText_withTokens :
    (Buffer.ofText filename text maxDepth).withTokens (tokens text').toArray = .ofText filename text' maxDepth := rfl

variable (shares : (Buffer.ofText filename text maxDepth).SharesUpTo o (tokens text').toArray)
include shares

/-- Where two texts have the same tokens up to a brace, and no problem was met so far, so is the statement with it. -/
theorem AtStatement.withTokens (h : AtStatement filename text maxDepth docs b) (clean : b.errors = 0)
    (before : b.cursor ≤ o) : AtStatement filename text' maxDepth docs (b.withTokens (tokens text').toArray) := by
  induction h with
  | first run more =>
    have run' := preamble_nearsighted.run_withTokens shares run clean before
    rw [ofText_withTokens] at run'
    exact .first run' (((shares.leads (Steady.ok run)).hasNext before).trans more)
  | next moment run more ih =>
    have leads := Steady.ok run
    obtain ⟨clean₁, clean₂⟩ := moment.leads.clean leads clean
    have here := ih clean₁ (Nat.le_trans leads.cursor before)
    have onward := shares.leads moment.leads
    exact .next here (shapeOrApplyStatement_nearsighted.run_withTokens onward run clean₂ before)
      (((onward.leads leads).hasNext before).trans more)

theorem AtBody.withTokens (h : AtBody filename text maxDepth x b) (clean : b.errors = 0) (before : b.cursor ≤ o) :
    AtBody filename text' maxDepth x (b.withTokens (tokens text').toArray) := by
  obtain @⟨docs, traits, form, s, b₀, moment, taken, name, type, braced, run⟩ := h
  have regular := regular_of_braced braced
  have := regular.head_grows
  have leads₀ := Steady.ok taken
  have leads := Steady.ok run
  obtain ⟨clean₀, clean₁⟩ := (moment.leads.trans leads₀).clean leads clean
  obtain ⟨cleanS, clean₂⟩ := moment.leads.clean leads₀ clean₀
  have before₀ := Nat.le_trans leads.cursor before
  have atS := shares.leads moment.leads
  have at₀ := atS.leads leads₀
  have current : (b₀.withTokens (tokens text').toArray).current = b₀.current := at₀.peek before₀
  have near : Nearsighted True detachedTraits := inferInstance
  refine .intro (moment.withTokens shares cleanS (Nat.le_trans leads₀.cursor before₀))
    (near.run_withTokens atS taken clean₂ before₀) ?_ (current.symm ▸ type) braced
    ((upToBody_nearsighted regular.head_near).run_withTokens at₀ run clean₁ before)
  rw [Buffer.isAt, current]
  exact name

end

end SmithyIdl.Grammar
