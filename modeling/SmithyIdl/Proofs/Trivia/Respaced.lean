import SmithyIdl.Proofs.Buffer.Alongside
import SmithyIdl.Proofs.ErrorCount
import SmithyIdl.Proofs.Grammar.Bodies
import SmithyIdl.Proofs.Grammar.Nearsighted
import SmithyIdl.Proofs.Grammar.Taken
import SmithyIdl.Proofs.Lockstep.Statements
import SmithyIdl.Proofs.Trivia.Crosses
import SmithyIdl.Proofs.Trivia.Model

/-! # Files with other whitespace before a sign

The sign of a structure that is defined in place is taken in the structure of an input or output of an operation. So it
is taken by one property of one statement; what comes before this property does not take it, and what comes behind it is
level. -/

-- The sections of a file are sequences of many parts, and so are the instances that are looked for.
set_option synthInstance.maxSize 2000

namespace SmithyIdl

/-- Right behind the signs the same comes. -/
theorem InlineSigns.sees {b b' : Buffer} {n s s' : Nat} (h : InlineSigns b.tree.tokens b'.tree.tokens n s s')
    (ends : b.EndsWithEof) (ends' : b'.EndsWithEof) (here : b.cursor = s + 1) (here' : b'.cursor = s' + 1) :
    Matching.level.Sees b b' := by
  have bound := ends.lt_of_kindAt (k := s) (by rw [h.sign.sign]; decide)
  have bound' := ends'.lt_of_kindAt (k := s') (by rw [h.sign'.sign]; decide)
  refine (ends.splits (here ▸ bound) rfl).sees (ends'.splits (here' ▸ bound') rfl) ?_
  rw [here, here']
  exact h.behind

namespace Grammar

open SmithyIdl.Parser SmithyIdl.Schema

variable {b b' b₁ b₂ : Buffer} {text : String} {v : View} {T : Forest} {ts' : Array Token} {n s s' : Nat}
  {given docs docs' : Docs} {traits : Option NodeId}

/-! ### Structures defined in place -/

/-- What comes behind the sign. -/
def inlineContents : Parser Unit := do
  whitespace
  let _ ← traitStatements
  structureRest

theorem inlineStructure_eq : inlineStructure = (do
    expect .walrus
    within .inlineStructure do
      consumeAny
      inlineContents) := rfl

instance inlineContents_orders : Orders inlineContents := by
  unfold inlineContents
  infer_instance

instance inlineContents_lockstep {M : Matching} : Lockstep M Eq inlineContents inlineContents := by
  have behind : Lockstep M Eq (do
      let _ ← traitStatements
      structureRest) (do
      let _ ← traitStatements
      structureRest) := .bind traitStatements_lockstep fun _ _ _ => inferInstance
  unfold inlineContents
  infer_instance

theorem inlineContents_writes :
    inlineContents.Writes False b (sequence [space, Schema.traits, Schema.structureRest]) := by
  unfold inlineContents
  exact .cons whitespace_writes fun _ _ _ => .cons traitStatements_writes fun _ _ _ => structureRest_writes.last

/-- The only sign that a structure takes is its own. -/
theorem cursor_of_inlineStructure (h : b.Tells text v) (run : inlineStructure.run b = .ok () b')
    (clean : b'.errors = b.errors) (sign : kindAt (tokens text).toArray s = .walrus) (before : b.cursor ≤ s)
    (behind : s < b'.cursor) : b.cursor = s := by
  rw [inlineStructure_eq] at run
  obtain ⟨_, b₁, found, stated⟩ := bind_eq_ok.mp run
  obtain ⟨rfl, here⟩ := expect_ok found
  obtain ⟨c, closed⟩ := exists_of_within stated
  obtain ⟨i, a, b₃, b₄, opened, -, inner, clean₄, rfl, rfl⟩ := exists_scope closed clean
  obtain ⟨_, b₅, taken, rest⟩ := bind_eq_ok.mp inner
  obtain ⟨clean₅, clean₆⟩ := (Steady.ok taken).clean (Steady.ok rest) clean₄
  obtain ⟨tells, same⟩ := openNode_tells h opened
  rw [← Buffer.current_of_peek same] at here
  obtain ⟨w, tells₅⟩ := (Writes.consumeAny_at here (by decide)).tells tells taken clean₅
  have next := shift_cursor (consumeAny_ok taken)
  rw [(openNode_ok opened).2.2.1] at next
  refine Nat.le_antisymm before (Nat.le_of_not_lt fun later => ?_)
  have stays := inlineContents_writes.cursor_le tells₅ rfl rest clean₆ sign (next ▸ later)
  exact Nat.not_lt_of_le stays behind

/-- At its sign, a structure comes to the same level. -/
theorem inlineStructure_gives (signs : InlineSigns b.tree.tokens b'.tree.tokens n s s') (ends : b.EndsWithEof)
    (ends' : b'.EndsWithEof) (here : b.cursor = s) (here' : b'.cursor = s') (maxDepth : b'.maxDepth = b.maxDepth)
    (openNodes : b'.openNodes.length = b.openNodes.length) (errors : b'.errors = b.errors)
    (run : inlineStructure.run b = .ok () b₁) (clean : b₁.errors = b.errors) :
    (inlineStructure.run b').Gives fun a' b₁' => () = a' ∧ b₁.Level b₁' := by
  rw [inlineStructure_eq] at run ⊢
  obtain ⟨_, b₂, found, stated⟩ := bind_eq_ok.mp run
  obtain ⟨rfl, -⟩ := expect_ok found
  have walrus : (b'.peek 0).kind = .walrus := by rw [ends'.kind_peek, here', Nat.add_zero, signs.sign'.sign]
  refine gives_bind (Takes.expect walrus (.start b')) fun _ b₂' found' _ => ?_
  obtain ⟨rfl, -⟩ := expect_ok found'
  obtain ⟨c, closed⟩ := exists_of_within stated
  unfold within
  refine gives_bind (scope_gives (R := Eq) closed clean maxDepth openNodes ?_) fun _ _ _ level => ⟨rfl, level.2⟩
  intro i i' b₄ b₄' _ b₅ opened opened' inner clean₅ _
  obtain ⟨_, b₆, taken, rest⟩ := bind_eq_ok.mp inner
  have atSign {c c₁ : Buffer} {j r : Nat} (ends : c.EndsWithEof) (here : c.cursor = r)
      (sign : kindAt c.tree.tokens r = .walrus) (run : (openNode .inlineStructure).run c = .ok j c₁) :
      c₁.cursor + 0 < c₁.eof := by
    rw [(openNode_ok run).2.2.1, (Steady.ok run).eof, here, Nat.add_zero]
    exact ends.lt_of_kindAt (by rw [sign]; decide)
  obtain ⟨-, behind⟩ := (Takes.consumeAny (atSign ends here signs.sign.sign opened)).ok (.start b₄) taken
  refine gives_bind (Takes.consumeAny (atSign ends' here' signs.sign'.sign opened') (.start b₄'))
    fun _ b₆' taken' ⟨_, behind'⟩ => inlineContents_lockstep.level ?_ rest
  have leads := (Steady.ok opened).trans behind.leads
  have leads' := (Steady.ok opened').trans behind'.leads
  obtain ⟨-, -, same, errors₄⟩ := openNode_ok opened
  obtain ⟨-, -, same', errors₄'⟩ := openNode_ok opened'
  have onward : InlineSigns b₆.tree.tokens b₆'.tree.tokens n s s' := by
    rw [leads.tokens, leads'.tokens]
    exact signs
  refine ⟨?_, by rw [leads.maxDepth, leads'.maxDepth, maxDepth], ?_, ?_⟩
  · refine onward.sees (leads.endsWithEof ends) (leads'.endsWithEof ends') ?_ ?_
    · rw [behind.cursor, same, here]
    · rw [behind'.cursor, same', here']
  · rw [behind.openNodes, behind'.openNodes, KeepsOpen.openNode_ok opened, KeepsOpen.openNode_ok opened',
      List.length_cons, List.length_cons, openNodes]
  · rw [behind.errors, behind'.errors, errors₄, errors₄', errors]

/-- Without a problem there was room for the node. -/
theorem room_of_within {kind : TreeKind} {body : Parser Unit} [Steady body] (run : (within kind body).run b = .ok () b')
    (clean : b'.errors = b.errors) : b.openNodes.length < b.maxDepth := by
  obtain ⟨c, closed⟩ := exists_of_within run
  obtain ⟨i, a, b₂, b₃, opened, shallow, -⟩ := exists_scope closed clean
  rw [Buffer.isTooDeep, KeepsOpen.openNode_ok opened, (Steady.ok opened).maxDepth] at shallow
  exact Nat.lt_of_succ_le (by simpa using shallow)

/-- Where a property takes the sign with its structure, it begins at the name and the structure at the sign: behind its
    own name there is only trivia up to its structure, and before the sign only whitespace from the name on. -/
theorem cursors_of_target (h : b.Tells text v) (here : b.current.kind = .identifier)
    (sign : InlineSign (tokens text).toArray n s) (named : keyword.run b = .ok () b₁)
    (white : whitespace.run b₁ = .ok () b₂) (stated : inlineStructure.run b₂ = .ok () b') (clean₁ : b₁.errors = b.errors)
    (clean₂ : b₂.errors = b₁.errors) (clean' : b'.errors = b₂.errors) (before : b.cursor ≤ s) (behind : s < b'.cursor) :
    b.cursor = n ∧ b₂.cursor = s := by
  have name := h.gathers.kindAt_cursor.trans here
  obtain ⟨w, tells₁⟩ := (keyword_writes here).tells h named clean₁
  obtain ⟨w', tells₂⟩ := whitespace_writes.tells tells₁ white clean₂
  obtain ⟨-, -, -, only, -⟩ := whitespace_skips tells₁.gathers white clean₂
  rw [keyword_cursor h.gathers named clean₁] at only
  have onward : b.cursor < s := Nat.lt_of_le_of_ne before fun same => by
    rw [same, sign.sign] at name
    cases name
  have atSign : b₂.cursor = s := by
    refine cursor_of_inlineStructure tells₂ stated clean' sign.sign (Nat.le_of_not_lt fun taken => ?_) behind
    have trivia := only s onward taken
    rw [sign.sign] at trivia
    cases trivia
  refine ⟨?_, atSign⟩
  rcases Nat.lt_trichotomy b.cursor n with less | same | more
  · have trivia := only n less (atSign ▸ sign.less)
    rw [sign.name] at trivia
    cases trivia
  · exact same
  · have white := sign.run b.cursor more onward
    rw [name] at white
    cases white

/-- From the name on, the look past the whitespace finds the sign in both texts. -/
theorem definesInline_withTokens (signs : InlineSigns b.tree.tokens ts' n s s') (ends : b.EndsWithEof)
    (ends' : (b.withTokens ts').EndsWithEof) (here : b.cursor = n) :
    definesInline (b.withTokens ts') = definesInline b := by
  subst here
  have kind : ((b.withTokens ts').lookPast 1 TokenKind.isWhitespace).kind =
      (b.lookPast 1 TokenKind.isWhitespace).kind :=
    Buffer.kind_lookPast signs ends ends' (fun _ => id) (Nat.lt_succ_self _) signs.sign.less (Nat.lt_succ_self _)
      signs.sign'.less
  rw [definesInline, kind, definesInline]

/-- Behind the name other whitespace is taken. -/
theorem named_takes {d : Nat} (ends : b.EndsWithEof) (sign : InlineSign b.tree.tokens n s) (here : b.cursor = n)
    (room : d < b.maxDepth) : Takes b d 0 (s - n) (keyword >>= fun _ => whitespace) fun _ => True := by
  have less := sign.less
  have left := ends.lt_of_kindAt (k := s) (by rw [sign.sign]; decide)
  have kind {j : Nat} : (b.peek j).kind = kindAt b.tree.tokens (n + j) := here ▸ ends.kind_peek j
  have space (j : Nat) (behind : 1 ≤ j) (before : j < s - n) : (b.peek j).kind.isWhitespace = true := by
    rw [kind]
    exact sign.run _ (by omega) (by omega)
  obtain ⟨w, comes, white⟩ := Buffer.exists_comes (by omega) (by omega) space
  refine .bind (keyword_takes room (by omega)) fun _ _ =>
    whitespace_takes (fun t among => isTrivia_of_isWhitespace (white t among)) comes room ?_
  rw [kind, Nat.add_sub_cancel' (Nat.le_of_lt less), sign.sign]
  rfl

/-- Where a colon has to come, no sign is taken. -/
theorem operationTarget_cursor_le (h : b.Tells text v) (here : b.current.kind = .identifier)
    (other : ¬ definesInline b = true) (run : operationTarget.run b = .ok () b') (clean : b'.errors = b.errors)
    (sign : kindAt (tokens text).toArray s = .walrus) (before : b.cursor ≤ s) : b'.cursor ≤ s := by
  have writes : (do
      keyword
      whitespace
      consume .colon
      whitespace
      shapeId false : Parser Unit).Writes False b (sequence [one .keyword, space, tok .colon, space, Schema.shapeId]) :=
    .cons (keyword_writes here) fun _ _ _ => .cons whitespace_writes fun _ _ _ => .cons (.consume (by decide))
      fun _ _ _ => .cons whitespace_writes fun _ _ _ => (shapeId_writes false).last
  unfold operationTarget at run
  rw [run_bind_of_ok (run_ask definesInline b), if_neg other] at run
  exact writes.cursor_le h rfl run clean sign before

theorem operationTarget_crosses (h : b.Tells text v) (here : b.current.kind = .identifier) :
    operationTarget.Crosses ts' n s s' Eq b := by
  by_cases inline : definesInline b = true
  case neg =>
    exact .of_cursor_le fun _ _ run clean sign before =>
      operationTarget_cursor_le h here inline run clean (h.builds.tokens ▸ sign) before
  intro respaced _ b₁ run clean before behind
  unfold operationTarget at run ⊢
  rw [run_bind_of_ok (run_ask definesInline b), if_pos inline] at run
  obtain ⟨_, b₂, named, rest⟩ := bind_eq_ok.mp run
  obtain ⟨_, b₃, white, stated⟩ := bind_eq_ok.mp rest
  obtain ⟨clean₂, clean'⟩ := (Steady.ok named).clean (Steady.ok rest) clean
  obtain ⟨clean₃, clean₁⟩ := (Steady.ok white).clean (Steady.ok stated) clean'
  have signs := respaced.signs
  have ends := respaced.shares.ends
  have ends' := respaced.shares.ends'
  obtain ⟨atName, atSign⟩ :=
    cursors_of_target h here (h.builds.tokens ▸ signs.sign) named white stated clean₂ clean₃ clean₁ before behind
  refine ⟨Nat.le_of_eq atName, ?_⟩
  have found := (definesInline_withTokens signs ends ends' atName).trans inline
  rw [run_bind_of_ok (run_ask definesInline _), if_pos found, ← bind_assoc]
  have room : b.openNodes.length < b.maxDepth := room_of_within named clean₂
  refine gives_bind (named_takes (b := b.withTokens ts') ends' signs.sign' atName room (.start _))
    fun _ b₃' _ ⟨_, behind'⟩ => ?_
  obtain ⟨-, behind₃⟩ := (named_takes ends signs.sign atName room).ok (.start b) ((run_bind_of_ok named).trans white)
  have leads := behind₃.leads
  have leads' := behind'.leads
  have onward : InlineSigns b₃.tree.tokens b₃'.tree.tokens n s s' := by
    rw [leads.tokens, leads'.tokens]
    exact signs
  refine inlineStructure_gives onward (leads.endsWithEof ends) (leads'.endsWithEof ends') atSign ?_
    (leads'.maxDepth.trans leads.maxDepth.symm) ?_ ?_ stated clean₁
  · rw [behind'.cursor]
    exact atName ▸ Nat.add_sub_cancel' (Nat.le_of_lt (atName ▸ signs.sign'.less))
  · rw [behind'.openNodes, behind₃.openNodes]
  · rw [behind'.errors, behind₃.errors]
    rfl

/-! ### Operations -/

theorem propertyOfName_crosses (name : String) (h : b.Tells text v) (here : b.current.kind = .identifier) :
    (propertyOfName name).Crosses ts' n s s' Eq b := by
  have target {kind : TreeKind} : (within kind operationTarget).Crosses ts' n s s' Eq b :=
    .inside h fun b₁ w tells same => operationTarget_crosses tells (by rwa [Buffer.current_of_peek same])
  unfold propertyOfName propertyOf?
  split
  · next found =>
    split at found <;> cases found
    · exact target
    · exact target
    · refine .of_writes h (r := one .operationErrors) (.within (by decide) fun _ _ same => operationErrors_writes ?_) rfl
      rwa [Buffer.current_of_peek same]
  · exact .fail

theorem operationProperty_crosses (seen : List String) (h : b.Tells text v) :
    (operationProperty seen).Crosses ts' n s s' (fun seen seen' => seen' = seen.map Matching.level.respell) b := by
  dsimp only [operationProperty]
  refine .look fun _ found => .ask (.ite (fun _ => .fail) fun _ => ?_)
  have here := (expect_ok found).2
  refine .cons h (propertyOfName_writes _ here) (propertyOfName_crosses _ h here) (fun _ b₁ w _ tells => ?_)
    fun _ _ _ => Lockstep.seq fun _ => .pure (List.map_id _).symm
  exact .after_writes tells whitespace_writes rfl fun _ _ _ _ _ => .pure

theorem operationStatement_crosses (h : b.Tells text v) (here : b.current.kind = .identifier) :
    operationStatement.Crosses ts' n s s' Eq b := by
  have properties {b : Buffer} {v : View} (h : b.Tells text v) :
      (foldWhile (fun _ b => beforeBrace b) operationProperty []).Crosses ts' n s s'
        (fun seen seen' => seen' = seen.map Matching.level.respell) b := by
    refine .foldWhile (I := fun _ b => ∃ v, b.Tells text v) (fun _ => inferInstance) (fun _ => inferInstance)
      (fun _ _ _ _ _ sees => beforeBrace_shown.same sees) (fun seen _ same => same ▸ operationProperty_lockstep seen)
      (fun seen b₁ _ b₂ ⟨_, tells⟩ _ run clean => (operationProperty_writes seen).tells tells run clean)
      (fun seen b₁ ⟨_, tells⟩ _ => operationProperty_crosses seen tells) ⟨v, h⟩
  have contents {b : Buffer} {v : View} (h : b.Tells text v) : (do
      let _ ← foldWhile (fun _ b => beforeBrace b) operationProperty []
      consume .rbrace : Parser Unit).Crosses ts' n s s' Eq b :=
    .cons h (.foldWhile fun seen _ _ _ => operationProperty_writes seen) (properties h)
      (fun _ _ _ _ h => .of_writes h (.consume (by decide)) rfl) fun _ _ _ => inferInstance
  unfold operationStatement headUpToBrace
  simp only [bind_assoc]
  refine .after_writes h (typedName_writes here) rfl fun _ _ _ _ h => .after_writes h mixins_writes rfl fun _ _ _ _ h =>
    .after_writes h whitespace_writes rfl fun _ _ _ _ h => .look fun _ found => .inside h fun b₁ _ h same => ?_
  have brace : b₁.current.kind = .lbrace := by rw [Buffer.current_of_peek same, (expect_ok found).2]
  simp only [bind_assoc, pure_bind]
  exact .after_writes h (.consumeAny_at brace (by decide)) rfl fun _ _ _ _ h =>
    .after_writes h whitespace_writes rfl fun _ _ _ _ => contents

/-! ### Shapes -/

instance statement_growsOn (form : ShapeForm) : GrowsOn form.statement := by
  cases form <;> (unfold ShapeForm.statement; infer_instance)

theorem shapeOfType_crosses (type : String) (h : b.Tells text v) (here : b.current.kind = .identifier) :
    (shapeOfType type).Crosses ts' n s s' Eq b := by
  unfold shapeOfType
  split
  · next form _ =>
    refine .inside h fun b₁ w h same => ?_
    rw [← Buffer.current_of_peek same] at here
    cases form
    case operation => exact operationStatement_crosses h here
    all_goals exact .of_writes h (statement_writes _ here) rfl
  · exact .fail

theorem shapeBody_crosses (h : b.Tells text v) (here : b.current.kind = .identifier) : shapeBody.Crosses ts' n s s' Eq b := by
  unfold shapeBody
  exact .ask (shapeOfType_crosses _ h here)

/-! ### Statements -/

/-- The documentation comments and the traits are put back without taking a token; then the body takes the sign. -/
theorem shapeStatement_crosses (builds : b.Builds (tokens text).toArray (v.aside T)) (alone : v.loose = .nil)
    (held : v.Held given) (owes : v.Owes traits T) (here : b.current.kind = .identifier) :
    (shapeStatement given traits).Crosses ts' n s s' Eq b := by
  unfold shapeStatement
  refine .within fun i b₁ opened => ?_
  obtain ⟨builds₁, same⟩ := openNode_builds builds opened
  have receives : ((v.enter i (.plain .shapeStatement)).aside T).Receives given := ⟨held.enter _ _, rfl⟩
  refine .after (fun _ _ run _ _ before => adoptDocs_cursor run ▸ before) fun _ b₂ adopted clean₂ => ?_
  obtain ⟨_, _, builds₂, gains, docs⟩ := adoptDocs_yields receives builds₁ adopted clean₂
  obtain ⟨w, rfl, gains₂⟩ := gains.of_aside
  have owed : w.Owes traits T := (owes.enter _ _).of_items docs.2
  refine .after (fun _ _ run _ _ before => attach_cursor run ▸ before) fun _ b₃ attached clean₃ => ?_
  have yields : (withTraits traits attach).YieldsFrom False (tokens text).toArray b₂ (w.aside T) w _ := attach_yields owed
  obtain ⟨x, _, builds₃, gains₃, -⟩ := yields builds₂ attached clean₃
  refine .inside ⟨builds₃, gains₃.loose.trans (gains₂.loose.trans alone)⟩ fun b₄ _ tells same₄ => shapeBody_crosses tells ?_
  rwa [Buffer.current_of_peek same₄, Buffer.current_of_peek (attach_peek_of_withTraits attached),
    Buffer.current_of_peek (adoptDocs_peek adopted), Buffer.current_of_peek same]

theorem endStatement_writes : endStatement.Writes False b lineEnd where
  guards := endStatement_guards
  rows := by
    unfold endStatement
    refine endLine_writes.writes.rows.recovering.bind fun _ _ _ _ _ _ _ h => .pure ?_
    obtain ⟨_, -, row⟩ := h
    rwa [List.append_nil]

/-- A statement with the end of its line. -/
theorem ended_crosses {statement : Parser Unit} [Nearsighted True statement] (first : statement.Crosses ts' n s s' Eq b)
    (tells : ∀ b₁, statement.run b = .ok () b₁ → b₁.errors = b.errors → ∃ w, b₁.Tells text w) : (do
      statement
      endStatement : Parser Docs).Crosses ts' n s s' (Option.Rel Matching.level.docs) b :=
  .bind first (fun _ b₁ run clean => by
    obtain ⟨w, tells₁⟩ := tells b₁ run clean
    exact .of_writes tells₁ endStatement_writes rfl) fun _ _ _ => endStatement_lockstep

theorem detachedTraits_cursor_le (h : b.Tells text v) (run : detachedTraits.run b = .ok traits b')
    (clean : b'.errors = b.errors) (sign : kindAt (tokens text).toArray s = .walrus) (before : b.cursor ≤ s) :
    b'.cursor ≤ s := by
  unfold detachedTraits at run
  obtain ⟨found, b₁, taken, run⟩ := bind_eq_ok.mp run
  obtain ⟨_, b₂, aside, done⟩ := bind_eq_ok.mp run
  cases done
  obtain ⟨clean₁, -⟩ := (Steady.ok taken).clean (Steady.ok aside) clean
  have same : b'.cursor = b₁.cursor := by
    rcases withTraits_ok aside with ⟨-, rfl⟩ | ⟨d, -, detached⟩
    · rfl
    · rcases detach_edit detached with ⟨-, rfl⟩ | ⟨_, _, t, -, -, rfl⟩ <;> rfl
  rw [same]
  exact traitStatements_writes.cursor_le h rfl taken clean₁ sign before

/-- Where no problem is met, no traits are misplaced. -/
theorem misplaced_crosses {α : Type} {R : α → α → Prop} {problem : Problem} {next : Parser α} [Steady next]
    (crosses : traits = none → next.Crosses ts' n s s' R b) : (do
      misplaced traits problem
      next : Parser α).Crosses ts' n s s' R b := by
  refine .after (fun _ b₁ run clean _ before => ?_) fun _ b₁ run clean => ?_
  · obtain ⟨-, rfl⟩ := (misplaced_ok run).2 clean
    exact before
  · obtain ⟨none, rfl⟩ := (misplaced_ok run).2 clean
    exact crosses none

theorem shapeOrApplyStatement_crosses (h : b.Tells text v) (held : v.Held given)
    (settled : b.current.kind.isTrivia = false) :
    (shapeOrApplyStatement given).Crosses ts' n s s' (Option.Rel Matching.level.docs) b := by
  unfold shapeOrApplyStatement
  refine .ask (.ite (fun trivia => absurd (settled.symm.trans trivia) Bool.false_ne_true) fun _ => ?_)
  refine .after (fun _ _ run clean sign before => detachedTraits_cursor_le h run clean (h.builds.tokens ▸ sign) before)
    fun traits b₁ detached clean => ?_
  obtain ⟨T, builds₁, owes⟩ := detachedTraits_builds h.builds detached clean
  refine .ask (.ite (fun apply => ?apply) fun _ => .ask (.ite (fun shape => ?shape) fun _ => .ite
    (fun some => ?dangling) fun _ => ?error))
  case apply =>
    refine misplaced_crosses fun none => ?_
    subst none
    obtain rfl : T = .nil := owes
    have here := identifier_of_keyword apply
    have tells : b₁.Tells text v := ⟨builds₁, h.alone⟩
    refine ended_crosses (.inside tells fun b₂ _ tells₂ same => ?_) fun _ => (statedApply_writes here).tells tells
    exact .of_writes tells₂ (applyStatement_writes (by rwa [Buffer.current_of_peek same])) rfl
  case shape =>
    have here := of_decide_eq_true shape
    have stated : ∀ b₂, (within .shapeOrApplyStatement (shapeStatement given traits)).run b₁ = .ok () b₂ →
        b₂.errors = b₁.errors → ∃ w, b₂.Tells text w := fun b₂ run clean₂ => by
      obtain ⟨w, _, builds₂, gains, -⟩ := statedShape_yields held owes here builds₁ run clean₂
      exact ⟨w, builds₂, gains.loose.trans h.alone⟩
    refine ended_crosses (.within fun i b₂ opened => ?_) stated
    obtain ⟨builds₂, same⟩ := openNode_builds builds₁ opened
    refine shapeStatement_crosses (v := v.enter i (.plain .shapeOrApplyStatement)) builds₂ h.alone (held.enter _ _)
      (owes.enter _ _) ?_
    rwa [Buffer.current_of_peek same]
  case dangling =>
    refine misplaced_crosses fun none => ?_
    subst none
    cases some
  case error => exact .bind (.within fun _ _ _ => .ask .fail) (fun _ _ _ _ => .pure) fun _ _ _ => .pure .none

/-- The buffer stands before a statement: it holds the documentation comments of the statement, and no trivia comes. -/
def BeforeStatement (b : Buffer) (text : String) (docs : Docs) : Prop :=
  ∃ v, b.Tells text v ∧ v.Held docs ∧ b.current.kind.isTrivia = false

theorem BeforeStatement.next (h : BeforeStatement b text docs)
    (run : (shapeOrApplyStatement docs).run b = .ok docs' b') (clean : b'.errors = b.errors) :
    BeforeStatement b' text docs' := by
  obtain ⟨v, tells, held, settled⟩ := h
  obtain ⟨w, _, tells', -, -, held', settled'⟩ :=
    (shapeOrApplyStatement_yields tells.alone held settled).tells tells run clean
  exact ⟨w, tells', held', settled'⟩

theorem shapeStatements_crosses (h : BeforeStatement b text docs) : (shapeStatements docs).Crosses ts' n s s' Eq b := by
  have moves : Matching.level.moves := trivial
  have encloses : Matching.level.encloses := trivial
  obtain ⟨v, tells, held, settled⟩ := h
  unfold shapeStatements
  refine .within fun i b₁ opened => ?_
  obtain ⟨tells₁, same⟩ := openNode_tells tells opened
  have first : BeforeStatement b₁ text docs :=
    ⟨_, tells₁, held.enter _ _, by rwa [Buffer.current_of_peek same]⟩
  refine .bind (.foldWhile (I := fun docs b => BeforeStatement b text docs) (fun _ => inferInstance)
    (fun _ => inferInstance) (fun _ _ _ _ _ sees => sees.hasNext)
    (fun _ _ same => shapeOrApplyStatement_lockstep moves encloses same) (fun _ _ _ _ h _ => h.next) ?_ first)
    (fun _ _ _ _ => .pure) fun _ _ _ => .pure rfl
  intro docs b₂ ⟨x, tells, held, settled⟩ _
  exact shapeOrApplyStatement_crosses tells held settled

/-! ### Files -/

theorem shapeSection_crosses (h : b.Tells text v) : shapeSection.Crosses ts' n s s' Eq b := by
  unfold shapeSection
  refine .ask (.ite (fun _ => .inside h fun b₁ w h₁ _ => ?_) fun _ => .pure)
  refine .after_yields h₁ (namespaceOrError_yields h₁.alone) ?_ fun docs b₂ w₂ _ _ h₂ ⟨_, held, settled⟩ => ?_
  · rintro _ _ _ _ ⟨rfl, -⟩
    decide
  refine .after_yields h₂ (useSection_yields h₂.alone held settled) ?_ fun docs b₃ w₃ _ _ h₃ ⟨_, held, settled⟩ =>
    shapeStatements_crosses ⟨_, h₃, held, settled⟩
  · rintro _ _ _ _ ⟨rfl, -⟩
    decide

/-- In a run without a problem that takes the sign, a file comes to the same level over the other tokens. -/
theorem model_crosses (h : b.Tells text v) : model.Crosses ts' n s s' Eq b := by
  unfold model
  refine .after_writes h whitespace_writes rfl fun _ _ _ _ h => ?_
  refine .after_writes h controlSection_writes rfl fun _ _ _ _ h => ?_
  refine .after_writes h metadataSection_writes rfl fun _ _ _ _ h => ?_
  refine .bind (shapeSection_crosses h) (fun _ b₁ _ _ => ?_) fun _ _ _ => leftOver_lockstep
  refine .of_cursor_le fun _ _ run clean _ before => ?_
  obtain ⟨rfl, -⟩ := leftOver_ok run clean
  exact before

end Grammar

open Grammar (ofText_shows)

theorem RespacesSign.respaced {text text' : String} {n s s' : Nat} (h : RespacesSign text text' n s s')
    (filename : String) (maxDepth : Nat) :
    (Buffer.ofText filename text maxDepth).Respaced (tokens text').toArray n s s' := by
  refine ⟨⟨fun i upTo => ?_, .name h.signs, (ofText_shows ..).ends, (ofText_shows filename text' maxDepth).ends⟩, h.signs⟩
  rw [List.getElem?_toArray, h.getElem?_eq upTo, ← List.getElem?_toArray]
  rfl

/-- Other whitespace before the sign keeps a file free of errors. -/
theorem parse_respaced {filename text text' : String} {maxDepth n s s' : Nat} {m : ParsedModel}
    (parsed : parse filename text maxDepth = .ok m) (sound : m.hasErrors = .ok false)
    (h : RespacesSign text text' n s s') :
    ∃ m', parse filename text' maxDepth = .ok m' ∧ m'.hasErrors = .ok false := by
  obtain ⟨b, F, L, run, finished, parsed', none⟩ := exists_run filename text maxDepth
  cases parsed.symm.trans parsed'
  obtain ⟨b', F', L', run', finished', -⟩ := Grammar.model_run filename text' maxDepth
  have respaced := h.respaced filename maxDepth
  have behind : s < b.cursor := by
    rw [finished.cursor, (Parser.Steady.ok run).eof]
    exact respaced.shares.ends.lt_of_kindAt (by rw [respaced.signs.sign.sign]; decide)
  have crosses := Grammar.model_crosses ⟨Grammar.ofText_builds filename text maxDepth, rfl⟩ respaced run (none sound)
    (Nat.zero_le s) behind
  have level := crosses.2
  rw [Grammar.ofText_withTokens, run'] at level
  obtain ⟨G, whole, -⟩ := finished'.conforming run' (level.2.errors.trans (none sound))
  refine ⟨_, parse_of_run run' finished'.finish, (whole.counts run').hasErrors.trans ?_⟩
  rw [level.2.errors, none sound]
  rfl

end SmithyIdl
