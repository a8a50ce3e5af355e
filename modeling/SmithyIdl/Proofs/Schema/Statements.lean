import SmithyIdl.Proofs.Grammar.Statements
import SmithyIdl.Proofs.Schema.Ends
import SmithyIdl.Proofs.Schema.Shapes

/-! # Rows of statements

The traits before a shape are taken out of the tree and stand alone until the shape takes them back, which without a
new problem it does. So a statement is written as if they had stood in it from the beginning. -/

set_option synthInstance.maxSize 2000

namespace SmithyIdl

/-! ### Trees that stand alone -/

/-- One tree more stands alone. -/
def View.aside (v : View) (T : Forest) : View := { v with loose := T ++ v.loose }

/-- The traits, if any, are the tree `T`, and belong behind all items of the view. -/
def View.Owes (v : View) (traits : Option NodeId) (T : Forest) : Prop :=
  match traits with
  | none => T = .nil
  | some d => (∃ F, T = .branch d (.plain .traitStatements) F .nil) ∧ (v.whole ++ T).Sorted

namespace View

variable {v w : View} {traits : Option NodeId} {T : Forest} {ts : Array Token} {u : List Symbol} {kept : Prop}

theorem Owes.of_items (h : v.Owes traits T) (same : w.whole.items = v.whole.items) : w.Owes traits T := by
  cases traits with
  | none => exact h
  | some d =>
    obtain ⟨node, sorted⟩ := h
    exact ⟨node, sorted.of_items T same⟩

theorem Owes.enter (h : v.Owes traits T) (id : NodeId) (kind : TreeKind) : (v.enter id (.plain kind)).Owes traits T :=
  h.of_items (v.items_enter id kind)

theorem Owes.row (owes : v.Owes traits T) : T.row ts ∈ Schema.traits.matches' := by
  cases traits with
  | none =>
    obtain rfl : T = .nil := owes
    exact .inl rfl
  | some d =>
    obtain ⟨⟨F, rfl⟩, -⟩ := owes
    exact .inr rfl

/-- What is gained beside a tree that stands alone is gained without it. -/
theorem Gains.of_aside (h : (v.aside T).Gains kept ts u w) : ∃ x, w = x.aside T ∧ v.Gains kept ts u x := by
  refine ⟨{ w with loose := v.loose }, ?_, h.names, rfl, h.row, h.outer, fun only => ?_⟩
  · rw [aside, ← show w.loose = T ++ v.loose from h.loose]
  · obtain ⟨F, rfl⟩ := h.grown only
    exact ⟨F, rfl⟩

end View

/-- A step beside a tree that stands alone, before others that take it back. -/
theorem Parser.YieldsFrom.bind_aside {α β : Type} {p : Parser α} {f : α → Parser β} {b : Buffer} {v : View} {T : Forest}
    {ts : Array Token} {kept : Prop} {Q : α → Buffer → View → List Symbol → Prop}
    {R : β → Buffer → View → List Symbol → Prop} [Steady p] [∀ a, Steady (f a)] (h : p.Yields kept ts b (v.aside T) Q)
    (next : ∀ a b₁ w u, p.run b = .ok a b₁ → Q a b₁ (w.aside T) u →
      (f a).YieldsFrom kept ts b₁ (w.aside T) w fun c b' x u' => R c b' x (u ++ u')) :
    (p >>= f).YieldsFrom kept ts b (v.aside T) v R := by
  intro builds c b' run clean
  obtain ⟨a, b₁, first, rest⟩ := bind_eq_ok.mp run
  obtain ⟨clean₁, clean₂⟩ := (Steady.ok first).clean (Steady.ok rest) clean
  obtain ⟨_, u, builds₁, gains, hQ⟩ := h builds first clean₁
  obtain ⟨w, rfl, gains₁⟩ := gains.of_aside
  obtain ⟨x, u', builds', gains', hR⟩ := next a b₁ w u first hQ builds₁ rest clean₂
  exact ⟨x, u ++ u', builds', gains₁.trans gains', hR⟩

namespace Grammar

open SmithyIdl.Parser SmithyIdl.Schema

variable {b b' : Buffer} {v : View} {T : Forest} {ts : Array Token} {given docs : Docs} {traits : Option NodeId}

/-! ### Traits -/

/-- Traits that were read are one new child, which is a tree of its own. -/
theorem traitStatements_yields :
    traitStatements.Yields True ts b v fun traits _ w _ => match traits with
      | none => w = v
      | some d => ∃ F, w = v.grow (.branch d (.plain .traitStatements) F .nil) := by
  unfold traitStatements
  refine .ask (.ite (fun here => ?_) fun _ => .pure rfl)
  refine (YieldsFrom.scope (Q := fun _ _ _ => True) fun b₁ _ same => ?_).bind fun _ _ _ _ _ _ _ h => .pure ?_
  · refine (traitRun_writes ?_).rows.mono fun _ _ _ _ _ hu => ⟨hu, trivial⟩
    rwa [Buffer.isAt, Buffer.current_of_peek same]
  · obtain ⟨_, _, _, rfl, -, -, -, -, -, grown⟩ := h
    exact grown trivial

theorem traitStatements_names (run : traitStatements.run b = .ok traits b') : b'.Names traits := by
  unfold traitStatements at run
  obtain ⟨here, b₁, hask, run⟩ := bind_eq_ok.mp run
  cases hask
  rw [run_ite] at run
  split at run
  · obtain ⟨c, b₁, closed, done⟩ := bind_eq_ok.mp run
    cases done
    rintro d ⟨⟩
    exact ⟨_, (scope_ok closed).1⟩
  · cases run
    exact .none

theorem Guards.withTraits {f : NodeId → Parser Unit} (h : ∀ d ∈ traits, (f d).Guards b) :
    (withTraits traits f).Guards b := by
  cases traits with
  | none => exact .pure _
  | some d => exact h d rfl

theorem detachedTraits_guards : detachedTraits.Guards b := by
  have traitsGuard : traitStatements.Writes False b Schema.traits := traitStatements_writes
  unfold detachedTraits
  refine .bind traitsGuard.guards fun traits b₁ run => .bind (Guards.withTraits fun d hd => ?_) fun _ _ _ => .pure _
  obtain ⟨label, inner⟩ := traitStatements_names run d hd
  exact .detach inner

/-- The traits are taken out of the tree again. -/
theorem detachedTraits_builds (builds : b.Builds ts v) (run : detachedTraits.run b = .ok traits b')
    (clean : b'.errors = b.errors) : ∃ T, b'.Builds ts (v.aside T) ∧ v.Owes traits T := by
  unfold detachedTraits at run
  obtain ⟨traits, b₁, found, run⟩ := bind_eq_ok.mp run
  obtain ⟨_, b₂, taken, done⟩ := bind_eq_ok.mp run
  cases done
  obtain ⟨clean₁, -⟩ := (Steady.ok found).clean (Steady.ok taken) clean
  obtain ⟨w, u, builds₁, -, same⟩ := traitStatements_yields builds found clean₁
  cases traits with
  | none =>
    cases taken
    obtain rfl : w = v := same
    exact ⟨.nil, builds₁, rfl⟩
  | some d =>
    obtain ⟨F, rfl⟩ := same
    obtain ⟨b₃, taken', shown⟩ := run_detach_last (T := .branch d (.plain .traitStatements) F .nil) builds₁.shown rfl
    obtain rfl : b₃ = b' := (Outcome.ok.inj (taken'.symm.trans taken)).2
    obtain ⟨inner, outer⟩ := List.forall_mem_cons.mp builds₁.tidy.open'
    obtain ⟨before, traits⟩ := Forest.conforms_append.mp inner
    have sorted := (View.sorted_grow ..).mp builds₁.shown.sorted
    refine ⟨_, ⟨shown, (Steady.ok taken).tokens.trans builds₁.tokens, ?_⟩, ⟨F, rfl⟩, sorted⟩
    exact ⟨List.forall_mem_cons.mpr ⟨before, outer⟩, Forest.conforms_append.mpr ⟨traits, builds₁.tidy.loose⟩⟩

/-- The shape takes its traits back. -/
theorem attach_shows (shown : b.Shows (v.aside T)) (owes : v.Owes traits T)
    (run : (withTraits traits attach).run b = .ok () b') : b'.Shows (v.grow T) := by
  cases traits with
  | none =>
    obtain rfl : T = .nil := owes
    cases run
    exact v.grow_nil.symm ▸ shown
  | some d =>
    obtain ⟨⟨F, rfl⟩, sorted⟩ := owes
    obtain ⟨t, edit, shown'⟩ := shown.append_loose rfl rfl sorted
    have attached := run_attach (b := b) (shown.innermost ▸ edit)
    obtain rfl := (Outcome.ok.inj (attached.symm.trans run)).2
    exact shown'

theorem attach_yields {kept : Prop} (owes : v.Owes traits T) :
    (withTraits traits attach).YieldsFrom kept ts b (v.aside T) v fun _ _ _ u => u ∈ Schema.traits.matches' := by
  intro builds a b' run clean
  obtain ⟨conf, loose⟩ := Forest.conforms_append.mp builds.tidy.loose
  have tidy : v.Tidy ts := ⟨builds.tidy.open', loose⟩
  have tokens := (Steady.ok run).tokens.trans builds.tokens
  exact ⟨_, _, ⟨attach_shows builds.shown owes run, tokens, tidy.grow conf⟩, .grow v T, owes.row⟩

theorem withTraits_ok {f : NodeId → Parser Unit} (run : (withTraits traits f).run b = .ok () b') :
    (traits = none ∧ b' = b) ∨ ∃ d, traits = some d ∧ (f d).run b = .ok () b' := by
  cases traits with
  | none =>
    cases run
    exact .inl ⟨rfl, rfl⟩
  | some d => exact .inr ⟨d, rfl, run⟩

/-- Traits that are misplaced are a new problem. -/
theorem misplaced_ok {problem : Problem} (run : (misplaced traits problem).run b = .ok () b') :
    b'.peek = b.peek ∧ (b'.errors = b.errors → traits = none ∧ b' = b) := by
  rcases withTraits_ok run with ⟨rfl, rfl⟩ | ⟨d, rfl, enclosed⟩
  · exact ⟨rfl, fun _ => ⟨rfl, rfl⟩⟩
  · obtain ⟨cursor, counted⟩ := encloseInError_ok enclosed
    exact ⟨(Steady.ok run).peek_of_same cursor, fun clean => absurd clean (Nat.ne_of_gt counted)⟩

theorem misplaced_guards {problem : Problem} : (misplaced traits problem).Guards b :=
  Guards.withTraits fun d _ => .encloseInError d problem

/-! ### Shapes -/

theorem shapeBodyNode_writes (here : b.current.kind = .identifier) :
    (within .shapeBody shapeBody).Writes False b (one .shapeBody) :=
  .within (by decide) fun b₁ _ same => shapeBody_writes (by rwa [Buffer.current_of_peek same])

theorem attach_peek_of_withTraits (run : (withTraits traits attach).run b = .ok () b') : b'.peek = b.peek := by
  rcases withTraits_ok run with ⟨-, rfl⟩ | ⟨d, -, attached⟩
  · rfl
  · exact attach_peek attached

theorem shapeStatement_guards (names : b.Names given) (here : b.current.kind = .identifier) :
    (shapeStatement given traits).Guards b := by
  unfold shapeStatement
  refine .within (by decide) fun b₁ leads same => .bind (.adoptDocs (names.leads leads)) fun _ b₂ adopted =>
    .bind (Guards.withTraits fun d _ => .attach d) fun _ b₃ attached => (shapeBodyNode_writes ?_).guards
  rwa [Buffer.current_of_peek (attach_peek_of_withTraits attached), Buffer.current_of_peek (adoptDocs_peek adopted),
    Buffer.current_of_peek same]

theorem shapeStatement_yields (held : v.Held given) (owes : v.Owes traits T) (here : b.current.kind = .identifier) :
    (shapeStatement given traits).YieldsFrom False ts b (v.aside T) v fun _ _ _ u => u = [.node .shapeStatement] := by
  unfold shapeStatement
  refine (YieldsFrom.within (P := fun _ => True) (by decide) fun b₁ leads same => ?_).mono fun _ _ _ _ _ h => h.1
  have receives : ((v.enter b.tree.size (.plain .shapeStatement)).aside T).Receives given := ⟨held.enter _ _, rfl⟩
  refine .bind_aside (adoptDocs_yields receives) fun _ b₂ w _ adopted docs => ?_
  have owed : w.Owes traits T := (owes.enter _ _).of_items docs.2
  refine (attach_yields owed).bind fun _ b₃ _ _ attached _ _ traits => ?_
  refine (shapeBodyNode_writes ?_).last.rows.mono fun _ _ _ _ _ body => ⟨?_, trivial⟩
  · rwa [Buffer.current_of_peek (attach_peek_of_withTraits attached), Buffer.current_of_peek (adoptDocs_peek adopted),
      Buffer.current_of_peek same]
  · exact Language.append_mem_mul docs.1 (Language.append_mem_mul traits body)

/-! ### Traits that are applied -/

theorem traitBlock_writes : traitBlock.Writes False b (bracketed .lbrace (sequence [Schema.traits, space]) .rbrace) := by
  have parts : traitBlock.Writes False b (sequence [tok .lbrace, space, Schema.traits, space, tok .rbrace]) := by
    unfold traitBlock
    exact .cons (.consume (by decide)) fun _ _ _ => .cons whitespace_writes fun _ _ _ => .cons traitStatements_writes
      fun _ _ _ => .cons whitespace_writes fun _ _ _ => .last (.consume (by decide))
  have nested := matches_sequence_append [Schema.traits, space] [tok .rbrace]
  have same := congrArg (fun r => (tok .lbrace).matches' * (space.matches' * r)) nested
  exact parts.of_subset fun u among => same.le among

/-- A keyword, a shape and what is applied to it. -/
theorem applied_writes {kind : TreeKind} (block : Bool) {r : Rows} (ne : kind ≠ .shapeId ∧ kind ≠ .error)
    (row : production kind = applied r)
    (writes : ∀ b, (if block then traitBlock else traitStatement).Writes False b r)
    (here : b.current.kind = .identifier) :
    (within kind do
      keyword
      someSpaces
      shapeId true
      someWhitespace
      if block then traitBlock else traitStatement).Writes False b (one kind) := by
  refine .within ne fun b₁ _ same => ?_
  rw [row]
  refine .cons (keyword_writes ?_) fun _ _ _ => .cons someSpaces_writes fun _ _ _ => .cons (shapeId_writes true)
    fun _ _ _ => .cons someWhitespace_writes fun _ b₂ _ => (writes b₂).last
  rwa [Buffer.current_of_peek same]

theorem applyStatement_writes (here : b.current.kind = .identifier) :
    applyStatement.Writes False b (one .applyStatement) := by
  unfold applyStatement
  refine .ask (.within (by decide) fun b₁ _ same => ?_)
  rw [← Buffer.current_of_peek same] at here
  cases appliesBlock b with
  | true => exact (applied_writes true (by decide) rfl (fun _ => traitBlock_writes) here).of_subset fun _ => Or.inr
  | false => exact (applied_writes false (by decide) rfl (fun _ => traitStatement_writes) here).of_subset fun _ => Or.inl

/-! ### Statements -/

theorem statedApply_writes (here : b.current.kind = .identifier) :
    (within .shapeOrApplyStatement applyStatement).Writes False b (one .shapeOrApplyStatement) :=
  .within (by decide) fun _ _ same =>
    (applyStatement_writes (by rwa [Buffer.current_of_peek same])).of_subset fun _ => Or.inr

theorem statedShape_yields (held : v.Held given) (owes : v.Owes traits T) (here : b.current.kind = .identifier) :
    (within .shapeOrApplyStatement (shapeStatement given traits)).YieldsFrom False ts b (v.aside T) v
      fun _ _ _ u => u = [.node .shapeOrApplyStatement] := by
  refine (YieldsFrom.within (P := fun _ => True) (by decide) fun b₁ _ same => ?_).mono fun _ _ _ _ _ h => h.1
  refine (shapeStatement_yields (held.enter _ _) (owes.enter _ _) ?_).mono fun _ _ _ _ _ hu => ⟨.inl hu, trivial⟩
  rwa [Buffer.current_of_peek same]

theorem endStatement_names (run : endStatement.run b = .ok docs b') : b'.Names docs := by
  unfold endStatement at run
  obtain ⟨r, b₁, caught, done⟩ := bind_eq_ok.mp run
  cases done
  obtain ⟨docs', rfl, ended⟩ | ⟨rfl, -⟩ := recovering_ok caught
  · exact endLine_writes.names ended
  · exact .none

theorem endStatement_guards : endStatement.Guards b := by
  unfold endStatement
  exact .bind (.recovering _ endLine_writes.guards) fun _ _ _ => .pure _

/-- Given documentation comments that are inner nodes, a statement guards the tree. -/
theorem shapeOrApplyStatement_guards (names : b.Names given) : (shapeOrApplyStatement given).Guards b := by
  unfold shapeOrApplyStatement
  refine .ask_bind (.ite (fun _ => whitespaceUpToDocs_writes.guards) fun _ => ?_)
  refine .bind detachedTraits_guards fun traits b₁ detached => .ask_bind (.ite (fun apply => ?apply) fun _ => .ask_bind
    (.ite (fun shape => ?shape) fun _ => .ite (fun _ => .bind misplaced_guards fun _ _ _ => .pure _) fun _ => ?error))
  case apply =>
    refine .bind misplaced_guards fun _ b₂ misplaced => .bind (statedApply_writes ?_).guards fun _ _ _ =>
      endStatement_guards
    rw [Buffer.current_of_peek (misplaced_ok misplaced).1]
    exact identifier_of_keyword apply
  case shape =>
    refine .bind (.within (by decide) fun b₂ leads same => ?_) fun _ _ _ => endStatement_guards
    refine shapeStatement_guards ((names.leads (Steady.ok detached)).leads leads) ?_
    rw [Buffer.current_of_peek same]
    exact of_decide_eq_true shape
  case error => exact .bind (.within (by decide) fun _ _ _ => .ask_bind (.fail _)) fun _ _ _ => .pure _

theorem shapeOrApplyStatement_names (run : (shapeOrApplyStatement given).run b = .ok docs b') : b'.Names docs := by
  unfold shapeOrApplyStatement at run
  obtain ⟨token, b₁, hask, run⟩ := bind_eq_ok.mp run
  cases hask
  rw [run_ite] at run
  split at run
  · exact whitespaceUpToDocs_writes.names run
  obtain ⟨traits, b₁, -, run⟩ := bind_eq_ok.mp run
  obtain ⟨apply, b₂, hask, run⟩ := bind_eq_ok.mp run
  cases hask
  rw [run_ite] at run
  split at run
  · obtain ⟨_, b₂, -, run⟩ := bind_eq_ok.mp run
    obtain ⟨_, b₃, -, run⟩ := bind_eq_ok.mp run
    exact endStatement_names run
  obtain ⟨shape, b₂, hask, run⟩ := bind_eq_ok.mp run
  cases hask
  rw [run_ite] at run
  split at run
  · obtain ⟨_, b₂, -, run⟩ := bind_eq_ok.mp run
    exact endStatement_names run
  rw [run_ite] at run
  split at run
  · obtain ⟨_, b₂, -, done⟩ := bind_eq_ok.mp run
    cases done
    exact .none
  · obtain ⟨_, b₂, -, done⟩ := bind_eq_ok.mp run
    cases done
    exact .none

section
variable {text : String} {v₀ : View}

/-- Behind a statement its line ends. -/
theorem ended_yields {statement : Parser Unit} [Steady statement] (alone : v.loose = .nil)
    (yields : statement.YieldsFrom False (tokens text).toArray b v₀ v
      fun _ _ _ u => u = [.node .shapeOrApplyStatement]) :
    (do
      statement
      endStatement : Parser Docs).YieldsFrom False (tokens text).toArray b v₀ v fun docs b' w u =>
        u ∈ (sequence [one .shapeOrApplyStatement, lineEnd]).matches' ∧ w.Held docs ∧
          b'.current.kind.isTrivia = false := by
  unfold endStatement
  refine yields.bind fun _ b₁ w u _ _ gains node => ?_
  have last : (w.inner.children.row (tokens text).toArray).getLast? = some (.node .shapeOrApplyStatement) := by
    rw [gains.row, node]
    simp
  refine (endLine_yields (gains.loose.trans alone) last rfl).recovering.bind fun _ _ _ _ _ _ _ h => .pure ?_
  obtain ⟨docs, rfl, hu, held, settled⟩ := h
  refine ⟨Language.append_mem_mul node ?_, held, settled⟩
  rw [List.append_nil]
  exact (matches_sequence_one lineEnd).ge hu

/-- Where no trivia come, a statement comes, and none come behind it. -/
theorem shapeOrApplyStatement_yields (alone : v.loose = .nil) (held : v.Held given)
    (settled : b.current.kind.isTrivia = false) :
    (shapeOrApplyStatement given).Yields False (tokens text).toArray b v fun docs b' w u =>
      u ∈ (sequence [one .shapeOrApplyStatement, lineEnd]).matches' ∧ w.Held docs ∧
        b'.current.kind.isTrivia = false := by
  unfold shapeOrApplyStatement
  refine .ask (.ite (fun trivia => absurd (settled.symm.trans trivia) Bool.false_ne_true) fun _ => ?_)
  refine .after fun traits b₁ builds detached clean => ?_
  obtain ⟨T, builds₁, owes⟩ := detachedTraits_builds builds detached clean
  refine ⟨_, builds₁, .ask (.ite (fun apply => ?apply) fun _ => .ask (.ite (fun shape => ?shape) fun _ => .ite
    (fun some => ?dangling) fun _ => ?error))⟩
  case apply =>
    refine .after fun _ b₂ builds₂ misplaced clean₂ => ?_
    obtain ⟨rfl, rfl⟩ := (misplaced_ok misplaced).2 clean₂
    obtain rfl : T = .nil := owes
    exact ⟨v, builds₂, ended_yields alone (statedApply_writes (identifier_of_keyword apply)).rows⟩
  case shape => exact ended_yields alone (statedShape_yields held owes (of_decide_eq_true shape))
  case dangling =>
    refine .after fun _ b₂ _ misplaced clean₂ => ?_
    obtain ⟨rfl, -⟩ := (misplaced_ok misplaced).2 clean₂
    cases some
  case error =>
    refine (YieldsFrom.within (P := fun _ => False) (by decide) fun _ _ _ => .ask .fail).bind fun _ _ _ _ _ _ _ h => ?_
    obtain ⟨-, _, never, -⟩ := h
    exact never.elim

/-- Where no trivia come first, all statements are written as rows of statements with the ends of their lines. -/
theorem shapeStatements_yields (alone : v.loose = .nil) (held : v.Held given)
    (settled : b.current.kind.isTrivia = false) :
    (shapeStatements given).Yields False (tokens text).toArray b v fun _ _ _ u => u = [.node .shapeStatements] := by
  unfold shapeStatements
  refine (YieldsFrom.within (P := fun _ => True) (by decide) fun b₁ _ same => ?_).mono fun _ _ _ _ _ h => h.1
  refine (YieldsFrom.foldWhile (J := fun docs b' w u =>
    u ∈ (production .shapeStatements).matches' ∧ w.Held docs ∧ b'.current.kind.isTrivia = false)
    (fun docs b₂ w u _ gains h _ => ?round)
    ⟨Language.nil_mem_kstar _, held.enter _ _, ?start⟩).bind fun _ _ _ _ _ _ _ h => .pure ⟨?ended, trivial⟩
  case round =>
    obtain ⟨hu, held₂, settled₂⟩ := h
    refine (shapeOrApplyStatement_yields (gains.loose.trans alone) held₂ settled₂).mono fun _ _ _ _ _ h' => ?_
    exact ⟨Writes.append_mem_star hu h'.1, h'.2⟩
  case start => rwa [Buffer.current_of_peek same]
  case ended =>
    rw [List.append_nil]
    exact h.1.1

end

theorem shapeStatements_guards (names : b.Names given) : (shapeStatements given).Guards b := by
  unfold shapeStatements
  refine .within (by decide) fun b₁ leads _ => .bind (.foldWhile (I := fun docs b' => b'.Names docs)
    (fun _ _ _ _ _ _ run => shapeOrApplyStatement_names run)
    (fun _ _ named _ => shapeOrApplyStatement_guards named) (names.leads leads)) fun _ _ _ => .pure _

end Grammar

end SmithyIdl
