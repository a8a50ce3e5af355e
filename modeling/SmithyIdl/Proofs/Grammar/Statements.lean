import SmithyIdl.Grammar.Statement
import SmithyIdl.Proofs.Buffer.Runs
import SmithyIdl.Proofs.Grammar.Shapes

/-! # Statements

The traits before a statement are taken out of the tree and put back into the statement, or into an error node.
They are lost only where the scope that would put them back is refused because too many nodes are open. -/

set_option synthInstance.maxSize 2000

namespace SmithyIdl.Grammar

open SmithyIdl.Parser

variable {b b' : Buffer} {v : View} {L : Forest} {docs : Docs} {traits : Option NodeId}

/-! ### Progress -/

instance traitBlock_grows : Grows traitBlock := by
  unfold traitBlock
  infer_instance

instance applyStatement_grows : Grows applyStatement := by
  unfold applyStatement
  infer_instance

instance applyStatement_eats : Eats applyStatement := by
  unfold applyStatement
  infer_instance

instance withTraits_steady (f : NodeId → Parser Unit) [∀ d, Steady (f d)] : Steady (withTraits traits f) := by
  cases traits <;> unfold withTraits <;> infer_instance

instance shapeStatement_steady : Steady (shapeStatement docs traits) := by
  unfold shapeStatement
  infer_instance

instance shapeStatement_eats : Eats (shapeStatement docs traits) := by
  unfold shapeStatement
  infer_instance

instance misplaced_steady (problem : Problem) : Steady (misplaced traits problem) := by
  unfold misplaced
  infer_instance

instance detachedTraits_steady : Steady detachedTraits := by
  unfold detachedTraits
  infer_instance

instance endStatement_grows : Grows endStatement := by
  unfold endStatement
  infer_instance

instance shapeOrApplyStatement_steady : Steady (shapeOrApplyStatement docs) := by
  unfold shapeOrApplyStatement
  infer_instance

instance shapeStatements_steady : Steady (shapeStatements docs) := by
  unfold shapeStatements
  infer_instance

theorem docComments_eatsFrom (ends : b.EndsWithEof) (here : b.isAt .docComment = true) :
    docComments.EatsFrom b := by
  have next := ends.hasNext_of_isAt here (by decide)
  have kind := of_decide_eq_true here
  unfold docComments
  refine .bind_right fun found b' hask _ => ?_
  cases hask
  refine .ite (fun _ => .bind_left (.scope ends next fun b₁ leads same => ?_)) fun no => absurd here no
  refine .shiftKinds (leads.endsWithEof ends) ((leads.hasNext_of_same same).trans next) ?_
  rw [leads.current_of_same same, kind]
  rfl

theorem whitespaceUpToDocs_eatsFrom (ends : b.EndsWithEof) (here : b.current.kind.isTrivia = true) :
    whitespaceUpToDocs.EatsFrom b := by
  dsimp only [whitespaceUpToDocs]
  refine .bind_right fun token b' hask _ => ?_
  cases hask
  refine .ite (fun white => ?_) fun no => ?_
  · have next : b.hasNext = true := ends.hasNext fun h => by rw [h] at white; cases white
    refine .bind_left (.bind_left (.scope ends next fun b₁ leads same => ?_))
    refine .shiftKinds (leads.endsWithEof ends) ((leads.hasNext_of_same same).trans next) ?_
    rwa [leads.current_of_same same]
  · rw [TokenKind.isTrivia, eq_false_of_ne_true no, Bool.false_or] at here
    exact docComments_eatsFrom ends here

theorem isAt_of_traitStatements {d : NodeId} (h : traitStatements.run b = .ok (some d) b') :
    b.isAt .atSign = true := by
  unfold traitStatements at h
  obtain ⟨found, b₁, hask, h⟩ := bind_eq_ok.mp h
  cases hask
  by_cases here : b.isAt .atSign = true
  · exact here
  · rw [run_ite, if_neg here] at h
    cases h

theorem cursor_lt_of_detachedTraits {d : NodeId} (ends : b.EndsWithEof)
    (h : detachedTraits.run b = .ok (some d) b') : b.cursor < b'.cursor := by
  unfold detachedTraits at h
  obtain ⟨traits, b₁, found, h⟩ := bind_eq_ok.mp h
  obtain ⟨_, b₂, moved, done⟩ := bind_eq_ok.mp h
  cases done
  exact Nat.lt_of_lt_of_le (traitStatements_eatsFrom ends (isAt_of_traitStatements found) found)
    (Steady.ok moved).cursor

/-- A statement is trivia, or traits with what follows them, or at least an error at the token in the way. -/
instance shapeOrApplyStatement_eats : Eats (shapeOrApplyStatement docs) where
  eats {b} ends next := by
    unfold shapeOrApplyStatement
    refine .bind_right fun token b' hask _ => ?_
    cases hask
    refine .ite (whitespaceUpToDocs_eatsFrom ends) fun _ => .bind_right fun traits b₁ run same => ?_
    have leads := Steady.ok run
    cases traits with
    | some d => exact absurd same (Nat.ne_of_gt (cursor_lt_of_detachedTraits ends run))
    | none =>
      simp only [Option.isSome_none, Bool.false_eq_true, if_false]
      exact Eats.eats (leads.endsWithEof ends) ((leads.hasNext_of_same same).trans next)

/-! ### Traits -/

theorem traitStatements_ensures (shown : b.Shows v) :
    traitStatements.Ensures b (fun traits b' => match traits with
      | none => b'.Shows v
      | some d => b.isAt .atSign = true ∧ ∃ T, T.roots = [d] ∧ b'.Shows (v.grow T)) fun _ => False := by
  unfold traitStatements
  refine .after (run_ask _ b) (.ite (fun here => ?_) fun _ => .pure shown)
  have : NeedsNext fun (_ : Unit) b => b.isAt .atSign := needsNext_isAt (by decide)
  refine (scope_grows shown).bind fun r b' h => .pure ⟨here, ?_⟩
  obtain ⟨F, h⟩ := h
  exact ⟨_, rfl, h⟩

/-- Traits that were read have tokens, and their items follow all others. -/
theorem detachedTraits_ensures (shown : b.Shows v) :
    detachedTraits.Ensures b (fun traits b' => ∃ w, b'.Shows w ∧ w.spine = v.spine ∧ w.Pending traits v.loose)
      fun _ => False := by
  unfold detachedTraits
  obtain ⟨traits, b₁, run, h⟩ := (traitStatements_ensures shown).exists_ok
  refine .after run ?_
  cases traits with
  | none => exact .pure ⟨v, h, rfl, rfl⟩
  | some d =>
    obtain ⟨here, T, one, shown₁⟩ := h
    obtain ⟨b₂, moved, shown₂⟩ := run_detach_last shown₁ one
    refine .after moved (.pure ⟨_, shown₂, rfl, T, rfl, one, fun empty => ?_, ?_⟩)
    · -- Without tokens the traits would stand at the cursor that they began with.
      have count := shown.tokens.length_eq
      have count₁ := shown₁.tokens.length_eq
      have lt := traitStatements_eatsFrom shown.ends here run
      simp only [View.tokens_grow, empty, View.grow_loose, List.append_nil, List.length_append,
        List.length_range] at count count₁
      omega
    · exact (View.sorted_grow ..).mp shown₁.sorted

theorem withTraits_ensures {f : NodeId → Parser Unit} {E : Buffer → Prop} (shown : b.Shows v)
    (pending : v.Pending traits L)
    (placed : ∀ d, v.Pending (some d) L →
      (f d).Ensures b (fun _ b' => ∃ w, b'.Shows w ∧ w.names = v.names ∧ w.loose = L) E) :
    (withTraits traits f).Ensures b (fun _ b' => ∃ w, b'.Shows w ∧ w.names = v.names ∧ w.loose = L) E := by
  cases traits with
  | none => exact .pure ⟨v, shown, rfl, pending⟩
  | some d => exact placed d pending

/-! ### Growth -/

instance hasNext_needsNext {σ : Type} : NeedsNext fun (_ : σ) b => b.hasNext := ⟨fun _ go => go⟩

theorem endStatement_ensures (shown : b.Shows v) :
    endStatement.Ensures b (fun docs b' => b'.ShowsDocs v docs) fun _ => False := by
  unfold endStatement
  have caught := recovering_ensures (p := endLine)
    (Q := fun docs _ w => w.names = v.names ∧ w.loose = v.loose ∧ w.Awaits docs) (E := fun _ => v.Like) .statement
    (endLine_hands.hands shown)
  refine caught.bind fun r b' h => .pure ?_
  obtain ⟨w, shown', hw⟩ := h
  cases r with
  | some docs => exact ⟨w, shown', hw⟩
  | none =>
    obtain ⟨_, u, F, -, -, ⟨names, loose⟩, rfl⟩ := hw
    exact ⟨_, shown', names, loose, .none⟩

end SmithyIdl.Grammar

namespace SmithyIdl.Buffer

variable {b b' : Buffer} {v w : View} {P P' : Prop} {L : Forest}

/-- The refusal of a node stands in the tree itself, not in one of those that stand alone. -/
def Reports (b : Buffer) (w : View) : Prop :=
  ∃ i mark, b.tree.tag? i = some (.inr (.error mark)) ∧ mark.problem = .tooDeep ∧ i ∉ w.loose.ids

theorem Reports.leads (h : b.Reports w) (leads : b.Leads b') (loose : v.loose = w.loose) : b'.Reports v := by
  obtain ⟨i, mark, found, refusal, apart⟩ := h
  exact ⟨i, mark, leads.tree.tag?_eq found, refusal, loose ▸ apart⟩

/-- A new node stands in no tree that stood alone before. -/
theorem Shows.reports {i : NodeId} {mark : Mark} (h : b.Shows v) (new : b.tree.size ≤ i)
    (found : b'.tree.tag? i = some (.inr (.error mark))) (refusal : mark.problem = .tooDeep)
    (loose : w.loose = v.loose) : b'.Reports w := by
  refine ⟨i, mark, found, refusal, fun among => ?_⟩
  exact Nat.lt_irrefl i (Nat.lt_of_lt_of_le (h.aside.exists_node (loose ▸ among)) new)

/-- The trees `L` stand alone if `P` holds, and other trees do only where a problem stands in the tree. -/
def Spares (b : Buffer) (w : View) (P : Prop) (L : Forest) : Prop :=
  (P → w.loose = L) ∧ (w.loose = L ∨ b.Reports w)

theorem Spares.of_eq (loose : w.loose = L) : b.Spares w P L := ⟨fun _ => loose, .inl loose⟩

theorem Spares.leads (h : b.Spares w P L) (leads : b.Leads b') (loose : v.loose = w.loose) : b'.Spares v P L := by
  obtain ⟨kept, spared⟩ := h
  refine ⟨fun hP => loose.trans (kept hP), ?_⟩
  rcases spared with same | reports
  · exact .inl (loose.trans same)
  · exact .inr (reports.leads leads loose)

theorem Spares.trans (h : b.Spares w P L) (leads : b.Leads b') (h' : b'.Spares v P' w.loose) (room : P → P') :
    b'.Spares v P L := by
  obtain ⟨kept, spared⟩ := h
  obtain ⟨kept', spared'⟩ := h'
  refine ⟨fun hP => (kept' (room hP)).trans (kept hP), ?_⟩
  rcases spared' with same | reports
  · rcases spared with before | reports
    · exact .inl (same.trans before)
    · exact .inr (reports.leads leads same)
  · exact .inr reports

/-- The same nodes are open, and the trees `L` alone as far as `P` and the reported problems say. -/
def ShowsLoose (b : Buffer) (v : View) (P : Prop) (L : Forest) : Prop :=
  ∃ w, b.Shows w ∧ w.names = v.names ∧ b.Spares w P L

theorem ShowsLoose.of_like (h : b.ShowsLike w) (names : w.names = v.names) (loose : w.loose = L) :
    b.ShowsLoose v P L := by
  obtain ⟨u, shown, hn, hl⟩ := h
  exact ⟨u, shown, hn.trans names, .of_eq (hl.trans loose)⟩

end SmithyIdl.Buffer

namespace SmithyIdl.Grammar

open SmithyIdl.Parser

variable {b b' : Buffer} {v : View} {L : Forest} {docs : Docs} {traits : Option NodeId}

/-- Where as many nodes are open as may be, a node is refused: only the report of this grows in it. -/
theorem within_refused {kind : TreeKind} {body : Parser Unit} {E : Buffer → Prop} (shown : b.Shows v)
    (deep : b.maxDepth ≤ v.names.length) : (within kind body).Ensures b (fun _ b' => b'.ShowsGrown v ∧
      ∃ i mark, b.tree.size ≤ i ∧ b'.tree.tag? i = some (.inr (.error mark)) ∧ mark.problem = .tooDeep) E := by
  obtain ⟨b₁, opened, shown₁⟩ := run_openNode shown kind
  have leads := Steady.ok opened
  have refused : (limited body).run b₁ = .error (b₁.syntaxError .tooDeep) b₁ := by
    refine limited_refused ?_
    rw [Buffer.isTooDeep, shown₁.length_openNodes, leads.maxDepth, View.enter_names, List.length_cons]
    exact decide_eq_true (Nat.lt_succ_of_le deep)
  obtain ⟨_, b₂, reported, F, shown₂⟩ := (Grows.report_ensures (E := fun _ => False) (b₁.syntaxError .tooDeep)
    .statement shown₁).exists_ok
  have caught : (recovering .statement (limited body)).run b₁ = .ok none b₂ := by
    unfold recovering
    rw [run_bind, run_attempt, refused]
    exact run_bind_of_ok reported
  obtain ⟨b₃, closed, shown₃⟩ := run_closeNode shown₂ (v.enter_names _ _)
  rw [View.enter_grow_leave] at shown₃
  obtain ⟨i, new, found⟩ := report_ok reported
  unfold within scope
  refine .after ((run_bind_of_ok opened).trans ((run_bind_of_ok caught).trans (run_bind_of_ok closed))) (.pure ?_)
  exact ⟨⟨_, shown₃⟩, i, _, Nat.le_trans leads.tree.size new, (Steady.ok closed).tree.tag?_eq found, rfl⟩

/-- A node is refused where as many nodes are open as may be; then its body is not run. -/
theorem within_ensures {kind : TreeKind} {body : Parser Unit} {P : Prop} (shown : b.Shows v)
    (refused : b.maxDepth ≤ v.names.length → P → v.loose = L)
    (inside : v.names.length < b.maxDepth → ∀ b₁, b₁.Shows (v.enter b.tree.size (.plain kind)) → b.Leads b₁ →
      body.Ensures b₁ (fun _ b' => b'.ShowsLoose (v.enter b.tree.size (.plain kind)) P L)
        fun b' => b'.ShowsLoose (v.enter b.tree.size (.plain kind)) P L) :
    (within kind body).Ensures b (fun _ b' => b'.ShowsLoose v P L) fun _ => False := by
  rcases Nat.lt_or_ge v.names.length b.maxDepth with room | deep
  · have closed := scope_ensures (p := body)
      (Q := fun _ b' w => w.names = (b.tree.size, .plain kind) :: v.names ∧ b'.Spares w P L)
      (E := fun b' w => w.names = (b.tree.size, .plain kind) :: v.names ∧ b'.Spares w P L) .statement shown
      And.left And.left fun b₁ shown₁ leads => by
        refine limited_ensures (fun too => ?_) fun _ => inside room b₁ shown₁ leads
        rw [Buffer.isTooDeep, shown₁.length_openNodes, leads.maxDepth, View.enter_names, List.length_cons] at too
        exact absurd (of_decide_eq_true too) (Nat.not_lt_of_le room)
    unfold within
    refine closed.bind fun r b' h => .pure ?_
    obtain ⟨-, b₁, w, closing, shown', names, hw⟩ := h
    refine ⟨w.leave, shown', names, Buffer.Spares.leads ?_ closing w.leave_loose⟩
    obtain ⟨node, _ | _⟩ := r
    · obtain ⟨b₀, u, F, report, -, ⟨-, spares⟩, rfl⟩ := hw
      exact spares.leads report rfl
    · exact hw.2
  · refine (within_refused shown deep).mono (fun _ b' _ h => ?_) fun _ h => h
    obtain ⟨⟨F, shown'⟩, i, mark, new, found, refusal⟩ := h
    exact ⟨_, shown', rfl, refused deep, .inr (shown.reports new found refusal rfl)⟩

theorem shapeStatement_ensures (shown : b.Shows v) (awaits : v.Awaits docs) (pending : v.Pending traits L) :
    (shapeStatement docs traits).Ensures b (fun _ b' => b'.ShowsLoose v (v.names.length < b.maxDepth) L)
      fun _ => False := by
  unfold shapeStatement
  refine within_ensures shown (fun deep fits => absurd fits (Nat.not_lt_of_le deep)) fun _ b₁ shown₁ _ => ?_
  refine (adoptDocs_ensures shown₁ (awaits.enter _ _) rfl).bind fun _ b₂ h₂ => ?_
  obtain ⟨w₂, shown₂, names₂, loose₂, items₂⟩ := h₂
  have items : w₂.whole.items = v.whole.items := items₂.trans (v.items_enter ..)
  refine (withTraits_ensures shown₂ (pending.of_same loose₂ items) fun d => attach_ensures shown₂).bind
    fun _ b₃ h₃ => ?_
  obtain ⟨w₃, shown₃, names₃, loose₃⟩ := h₃
  have body := Reshapes.reshapes (p := within .shapeBody shapeBody) shown₃
  exact body.mono (fun _ _ _ h₄ => .of_like h₄ (names₃.trans names₂) loose₃) fun _ h₄ =>
    .of_like h₄ (names₃.trans names₂) loose₃

theorem misplaced_ensures {problem : Problem} {E : Buffer → Prop} (encloses : problem.encloses = true)
    (shown : b.Shows v) (pending : v.Pending traits L) :
    (misplaced traits problem).Ensures b (fun _ b' => ∃ w, b'.Shows w ∧ w.names = v.names ∧ w.loose = L) E :=
  withTraits_ensures shown pending fun _ pending' => (encloseInError_ensures encloses shown pending').mono
    (fun _ _ _ ⟨_, _, _, _, shown'⟩ => ⟨_, shown', rfl, rfl⟩) fun _ hE => hE

/-- A statement hands on the documentation comments behind it. The traits before it are lost only where a node
    of the statement is refused, which is reported. -/
def StatementKeeps (b : Buffer) (v : View) (fits : Prop) (docs : Docs) : Prop :=
  ∃ w, b.Shows w ∧ w.names = v.names ∧ b.Spares w fits v.loose ∧ w.Awaits docs

theorem StatementKeeps.of_docs {w : View} {fits : Prop} (h : b.ShowsDocs w docs) (names : w.names = v.names)
    (spares : b.Spares w fits v.loose) : StatementKeeps b v fits docs := by
  obtain ⟨u, shown, hn, hl, awaits⟩ := h
  exact ⟨u, shown, hn.trans names, spares.leads (.refl b) hl, awaits⟩

theorem StatementKeeps.showsLoose {fits P : Prop} (h : StatementKeeps b v fits docs) (room : P → fits) :
    b.ShowsLoose v P v.loose := by
  obtain ⟨u, shown, names, ⟨kept, spared⟩, -⟩ := h
  exact ⟨u, shown, names, fun hP => kept (room hP), spared⟩

/-- The end of a statement hands on what follows it. -/
theorem endStatement_keeps {w : View} {fits : Prop} {E : Buffer → Prop} (shown : b.Shows w) (names : w.names = v.names)
    (spares : b.Spares w fits v.loose) :
    endStatement.Ensures b (fun docs' b' => StatementKeeps b' v fits docs') E := by
  obtain ⟨docs', b', run, h⟩ := (endStatement_ensures shown).exists_ok
  exact .of_ok run (.of_docs h names (spares.leads (Steady.ok run) rfl))

/-- Behind the traits that were taken out, a shape takes them back unless a node of its statement is refused. -/
theorem statedShape_ensures (shown : b.Shows v) (awaits : v.Awaits docs) (pending : v.Pending traits L) :
    (within .shapeOrApplyStatement (shapeStatement docs traits)).Ensures b
      (fun _ b' => b'.ShowsLoose v (v.names.length + 1 < b.maxDepth) L) fun _ => False := by
  refine within_ensures shown (fun deep fits => by omega) fun _ b₁ shown₁ leads => ?_
  have inside := shapeStatement_ensures shown₁ (awaits.enter _ _)
    (pending.of_same rfl (v.items_enter ..))
  rw [leads.maxDepth, View.enter_names, List.length_cons] at inside
  exact inside.mono (fun _ _ _ h => h) fun _ h => h.elim

theorem shapeOrApplyStatement_ensures (shown : b.Shows v) (awaits : v.Awaits docs) :
    (shapeOrApplyStatement docs).Ensures b
      (fun docs' b' => StatementKeeps b' v (v.names.length + 1 < b.maxDepth) docs')
      fun b' => StatementKeeps b' v (v.names.length + 1 < b.maxDepth) none := by
  unfold shapeOrApplyStatement
  refine .after (run_ask _ b) (.ite (fun _ => ?trivia) fun _ => ?traits)
  case trivia =>
    exact (whitespaceUpToDocs_hands.hands shown).mono (fun _ _ _ h => .of_docs h rfl (.of_eq rfl)) fun _ h =>
      .of_docs h.docs_none rfl (.of_eq rfl)
  case traits =>
    obtain ⟨traits, b₁, run₁, w, shown₁, spine, pending⟩ := (detachedTraits_ensures shown).exists_ok
    have names : w.names = v.names := congrArg (List.map OpenNode.name) spine
    have awaits₁ : w.Awaits docs := fun d hd => spine ▸ awaits d hd
    refine .after run₁ (.after (run_ask _ b₁) (.ite (fun _ => ?apply) fun _ => ?other))
    case apply =>
      refine (misplaced_ensures rfl shown₁ pending).bind fun _ b₂ h₂ => ?_
      obtain ⟨w₂, shown₂, names₂, loose₂⟩ := h₂
      have applied := Reshapes.reshapes (p := within .shapeOrApplyStatement applyStatement) shown₂
      have kept {b' : Buffer} (h : b'.ShowsLike w₂) :
          StatementKeeps b' v (v.names.length + 1 < b.maxDepth) none :=
        .of_docs h.docs_none (names₂.trans names) (.of_eq loose₂)
      refine (applied.mono (fun _ _ _ h => h) fun _ h => kept h).bind fun _ b₃ h₃ => ?_
      obtain ⟨w₃, shown₃, names₃, loose₃⟩ := h₃
      exact endStatement_keeps shown₃ (names₃.trans (names₂.trans names)) (.of_eq (loose₃.trans loose₂))
    case other =>
      refine .after (run_ask _ b₁) (.ite (fun _ => ?shape) fun _ => .ite (fun _ => ?dangling) fun none => ?error)
      case shape =>
        have stated := statedShape_ensures shown₁ awaits₁ pending
        rw [(Steady.ok run₁).maxDepth, names] at stated
        refine (stated.mono (fun _ _ _ h => h) fun _ h => h.elim).bind fun _ b₂ h₂ => ?_
        obtain ⟨w₂, shown₂, names₂, spares₂⟩ := h₂
        exact endStatement_keeps shown₂ (names₂.trans names) spares₂
      case dangling =>
        refine (misplaced_ensures rfl shown₁ pending).bind fun _ b₂ h₂ => ?_
        obtain ⟨w₂, shown₂, names₂, loose₂⟩ := h₂
        exact .pure ⟨w₂, shown₂, names₂.trans names, .of_eq loose₂, .none⟩
      case error =>
        obtain rfl : traits = Option.none := by cases traits with
          | none => rfl
          | some d => exact absurd rfl none
        have reported := Reshapes.reshapes (p := within .shapeOrApplyStatement do
          fail (.noStatement (← current))) shown₁
        have kept {b' : Buffer} (h : b'.ShowsLike w) :
            StatementKeeps b' v (v.names.length + 1 < b.maxDepth) Option.none :=
          .of_docs h.docs_none names (.of_eq pending)
        exact (reported.mono (fun _ _ _ h => h) fun _ h => kept h).bind fun _ _ h => .pure (kept h)

/-- The limit that refuses a statement or the shape in it, but not the section, is the one that loses traits. -/
theorem shapeStatements_ensures (shown : b.Shows v) (awaits : v.Awaits docs) :
    (shapeStatements docs).Ensures b
      (fun _ b' => b'.ShowsLoose v (v.names.length < b.maxDepth → v.names.length + 2 < b.maxDepth) v.loose)
      fun _ => False := by
  unfold shapeStatements
  refine within_ensures shown (fun _ _ => rfl) fun fits b₁ shown₁ leads => ?_
  refine ((foldWhile_shown
    (I := fun docs b' => StatementKeeps b' (v.enter b.tree.size (.plain .shapeStatements))
      (v.names.length + 2 < b.maxDepth) docs)
    (E := fun b' => ∃ docs, StatementKeeps b' (v.enter b.tree.size (.plain .shapeStatements))
      (v.names.length + 2 < b.maxDepth) docs)
    (fun h => ?shows) (fun docs b₂ leads₂ h₂ => ?round) ⟨_, shown₁, rfl, .of_eq rfl, awaits.enter _ _⟩).mono
    (fun _ _ _ h => h) fun _ h => ?failed).bind fun _ _ h => .pure ?ended
  case shows =>
    obtain ⟨w, h, -⟩ := h
    exact ⟨w, h⟩
  case round =>
    obtain ⟨w, shown₂, names, spares, awaits₂⟩ := h₂
    have room : v.names.length + 2 < b.maxDepth → w.names.length + 1 < b₂.maxDepth := by
      rw [names, View.enter_names, List.length_cons, leads₂.maxDepth, leads.maxDepth]
      exact id
    have goesOn {docs' : Docs} {b₃ : Buffer} (leads₃ : b₂.Leads b₃)
        (h₃ : StatementKeeps b₃ w (w.names.length + 1 < b₂.maxDepth) docs') :
        StatementKeeps b₃ (v.enter b.tree.size (.plain .shapeStatements)) (v.names.length + 2 < b.maxDepth) docs' := by
      obtain ⟨u, shown₃, names₃, spares₃, awaits₃⟩ := h₃
      exact ⟨u, shown₃, names₃.trans names, spares.trans leads₃ spares₃ room, awaits₃⟩
    exact (shapeOrApplyStatement_ensures shown₂ awaits₂).leads_either.mono (fun _ _ _ h₃ => goesOn h₃.1 h₃.2)
      fun _ h₃ => ⟨none, goesOn h₃.1 h₃.2⟩
  case failed =>
    obtain ⟨docs', h⟩ := h
    exact h.showsLoose fun hP => hP fits
  case ended => exact h.showsLoose fun hP => hP fits

end SmithyIdl.Grammar
