import SmithyIdl.Proofs.Discipline.Shapes
import SmithyIdl.Proofs.Grammar.Model

/-! # Lawful statements

The traits before a statement are taken out of the tree, and come back right before the body of a shape, or alone in an
error node. -/

set_option synthInstance.maxSize 2000

namespace SmithyIdl.Grammar

open SmithyIdl.Parser

variable {b : Buffer} {v : View} {L T : Forest} {docs : Docs} {traits : Option NodeId}

/-! ### Apply statements -/

theorem traitBlock_fills : traitBlock.Fills .applyStatementBlock := by
  unfold traitBlock
  exact .behind fun _ => .behind fun _ => .before (traitStatements_fills (by decide))

instance applyStatement_obeys : Obeys applyStatement := by
  unfold applyStatement
  refine Obeys.seq fun block => ?_
  cases block with
  | true =>
    have : Obeys (within .applyStatementBlock do
        keyword
        someSpaces
        shapeId true
        someWhitespace
        traitBlock) :=
      Fills.within rfl rfl (.behind fun _ => .behind fun _ => .behind fun _ => .behind fun _ => traitBlock_fills)
    simp only [if_true]
    infer_instance
  | false =>
    simp only [Bool.false_eq_true, if_false]
    infer_instance

instance endStatement_obeys : Obeys endStatement := by
  unfold endStatement
  infer_instance

/-! ### Traits -/

/-- Traits that were taken out of the tree, and belong behind all of it. -/
structure TakenOut (b : Buffer) (v : View) (traits : Option NodeId) (T L : Forest) : Prop where
  lawful : b.Lawful v
  loose : v.loose = T ++ L
  run : T.TraitRun b.tree.tokens traits
  sorted : (v.whole ++ T).Sorted

theorem detachedTraits_takenOut (h : b.Lawful v) :
    detachedTraits.Ensures b (fun traits b' => ∃ T, TakenOut b' { v with loose := T ++ v.loose } traits T v.loose)
      fun _ => False := by
  unfold detachedTraits
  refine Ensures.bind (((traitStatements_puts h).and (traitStatements_ensures h.shown)).leads.mono (fun _ _ _ both => both)
    fun _ never => never.2.elim) fun traits b₁ ⟨leads, gained, exact'⟩ => ?_
  cases traits with
  | none =>
    obtain ⟨lawful, -⟩ := gained.lawful (G := .nil) h leads (by rwa [View.grow_nil])
    rw [View.grow_nil] at lawful
    exact .pure ⟨.nil, lawful, rfl, rfl, by simpa using lawful.shown.sorted⟩
  | some d =>
    obtain ⟨-, T, one, shown⟩ := exact'
    obtain ⟨lawful, F, same, run⟩ := gained.lawful h leads shown
    have solid : T.solid = [.traitStatements] := by
      obtain ⟨J, first, rfl, -⟩ := run
      exact same.symm.trans (Forest.solid_branch (by simp))
    have added := lawful.added (.grow v T)
    obtain ⟨b₂, moved, shown₂⟩ := run_detach_last shown one
    have leads₂ := Steady.ok moved
    refine .after moved (.pure ⟨T, ⟨shown₂, ?_, ?_⟩, rfl, ?_, (View.sorted_grow ..).mp shown.sorted⟩)
    · exact (leads.trans leads₂).tokens ▸ h.open'
    · exact leads₂.tokens ▸ Forest.lawful_append.mpr ⟨added, lawful.loose⟩
    · exact leads₂.tokens ▸ .of_lawful one solid added

/-- Traits are attached, if there are any. -/
theorem TakenOut.attach {E : Buffer → Prop} (h : TakenOut b v traits T L) :
    (withTraits traits attach).Ensures b (fun _ b' => b'.Lawful { v.grow T with loose := L }) E := by
  obtain ⟨lawful, loose, run, sorted⟩ := h
  cases traits with
  | none =>
    obtain rfl : T = .nil := run
    obtain ⟨inner, outer, _⟩ := v
    subst loose
    rw [View.grow_nil]
    exact .pure lawful
  | some d =>
    obtain ⟨J, first, rfl, -⟩ := run
    obtain ⟨t', run, shown⟩ := lawful.shown.append_loose loose rfl sorted
    have attached := run_attach (lawful.shown.innermost.symm ▸ run)
    obtain ⟨added, aside⟩ := Forest.lawful_append.mp (loose ▸ lawful.loose)
    exact .of_ok attached (lawful.of_becomes (Steady.ok attached) shown ((View.Becomes.grow v _).aside L) added aside)

/-- Traits that belong to nothing are put into an error, if there are any. -/
theorem TakenOut.misplaced {problem : Problem} {E : Buffer → Forest → Prop} (encloses : problem.encloses = true)
    (h : TakenOut b v traits T L) : (misplaced traits problem).Puts b v (fun _ _ => Forest.Ordinary) E := by
  obtain ⟨lawful, loose, run, sorted⟩ := h
  cases traits with
  | none => exact .pure lawful Forest.ordinary_nil
  | some d =>
    obtain ⟨J, first, rfl, leads, sign⟩ := run
    obtain ⟨i, rest, tokens, found⟩ := leads.tokens
    have all : (Forest.branch d (.plain .traitStatements) J .nil).tokens = i :: rest := by simp [tokens]
    refine (encloseInError_located encloses lawful.shown loose rfl (by simp [all]) sorted).mono (fun _ b₁ ran h₁ => ?_)
      fun _ hE => hE
    obtain ⟨mark, i', rest', first', tokens', found', rfl, starts, shown⟩ := h₁
    obtain ⟨rfl, -⟩ := List.cons.inj (all.symm.trans tokens')
    obtain rfl := Option.some.inj (found.symm.trans found')
    have node := Forest.LawfulNode.of_enclosed (d := d) encloses leads sign starts
    obtain ⟨added, aside⟩ := Forest.lawful_append.mp (loose ▸ lawful.loose)
    have becomes := (View.Becomes.grow v (.branch b.tree.size (.error mark)
      (.branch d (.plain .traitStatements) J .nil) .nil)).aside L
    exact ⟨_, _, lawful.of_becomes (Steady.ok ran) shown becomes ⟨node, added, trivial⟩ aside,
      becomes, Forest.ordinary_branch rfl⟩

/-! ### Shape statements -/

/-- A statement takes the documentation comments and the traits that were read before it. -/
theorem shapeStatement_puts (h : TakenOut b v traits T L) (awaits : v.Awaits docs) :
    (shapeStatement docs traits).Puts b v (fun _ _ => Forest.Ordinary) fun _ _ => False := by
  unfold shapeStatement within
  refine .map ((Puts.scope .statement h.lawful (E := fun _ F => F = .nil)
    (Q := fun _ _ F => F.LawfulNode b.tree.tokens (.plain .shapeStatement)) (fun b₁ leads _ lawful₁ => ⟨rfl, ?_⟩)
    fun r b' F kept => ?_).imp fun _ _ _ ⟨_, _, same, _⟩ => same ▸ Forest.ordinary_branch rfl)
  · refine (adoptDocs_lawful lawful₁ (awaits.enter _ _) rfl).leads.bind fun _ b₂ ⟨leads₂, docs₂⟩ => ?_
    obtain ⟨w, D, lawful₂, becomes, white, loose, items⟩ := docs₂
    have out : TakenOut b₂ w traits T L := ⟨lawful₂, loose.trans h.loose, (leads.trans leads₂).tokens ▸ h.run,
      h.sorted.of_items T (items.trans (v.items_enter ..))⟩
    refine out.attach.bind fun _ b₃ lawful₃ => ?_
    have becomes₃ := (becomes.trans_grow T).aside L
    have body := Obeys.scope_node (p := shapeBody) .shapeBody .statement lawful₃
    refine Ensures.bind (Ensures.mono body (fun _ _ _ h₄ => h₄) fun _ ⟨_, _, _, _, never⟩ => never.elim) fun _ b₄ h₄ =>
      .pure (.trans becomes₃ (h₄.mono fun B _ ⟨X, same⟩ F' thin => ?_))
    subst same
    exact (thin.append (.refl _)).lawfulNode (.of_shape white h.run)
  · cases r with
    | some _ => exact kept
    | none =>
      obtain ⟨b₀, F', R, rfl, rfl, report⟩ := kept
      exact .of_parts report.ordinary (by simp) Forest.endsBroken_none

theorem TakenOut.enter (h : TakenOut b v traits T L) {b' : Buffer} (leads : b.Leads b') {id : NodeId} {kind : TreeKind}
    (lawful : b'.Lawful (v.enter id (.plain kind))) : TakenOut b' (v.enter id (.plain kind)) traits T L :=
  ⟨lawful, h.loose, leads.tokens ▸ h.run, h.sorted.of_items T (v.items_enter ..)⟩

theorem statedShape_puts (h : TakenOut b v traits T L) (awaits : v.Awaits docs) {E : Buffer → Forest → Prop} :
    (within .shapeOrApplyStatement (shapeStatement docs traits)).Puts b v (fun _ _ => Forest.Ordinary) E := by
  unfold within
  refine .map ((Fills.scope_of rfl .statement h.lawful fun b₁ leads lawful => ?_).imp
    fun _ _ _ ⟨_, same⟩ => same ▸ Forest.ordinary_branch rfl)
  exact (shapeStatement_puts (h.enter leads lawful) (awaits.enter _ _)).imp fun _ _ _ ordinary => .of_ordinary ordinary

theorem shapeOrApplyStatement_puts (h : b.Lawful v) (awaits : v.Awaits docs) :
    (shapeOrApplyStatement docs).Puts b v (fun _ _ => Forest.Ordinary) fun _ => Forest.Ordinary := by
  unfold shapeOrApplyStatement
  refine .ask (.ite (fun _ => Obeys.obeys h) fun _ => ?_)
  refine ((detachedTraits_takenOut h).mono (fun _ _ _ h₁ => h₁) fun _ never => never.elim).bind
    fun traits b₁ ⟨T, out⟩ => ?_
  refine Puts.aside (Q := fun _ _ => Forest.Ordinary) (E := fun _ => Forest.Ordinary) (L := T ++ v.loose) (.ask
    (.ite (fun _ => ?apply) fun _ => .ask (.ite (fun _ => ?shape) fun _ => .ite (fun _ => ?dangling) fun _ => ?error)))
  case apply => exact .before_obeys (out.misplaced rfl)
  case shape => exact .before_obeys (statedShape_puts out (awaits.of_spine rfl))
  case dangling => exact .before_obeys (out.misplaced rfl)
  case error =>
    have : Obeys (within .shapeOrApplyStatement do fail (.noStatement (← current))) := inferInstance
    exact Obeys.obeys out.lawful

/-- Each statement takes the documentation comments that the one before it left. -/
theorem shapeStatements_puts (h : b.Lawful v) (awaits : v.Awaits docs) {E : Buffer → Forest → Prop} :
    (shapeStatements docs).Puts b v (fun _ _ => Forest.Ordinary) E := by
  unfold shapeStatements within
  refine .map ((Fills.scope_of rfl .statement h fun b₁ _ lawful => .map ?_).imp
    fun _ _ _ ⟨_, same⟩ => same ▸ Forest.ordinary_branch rfl)
  refine (Puts.foldWhile_handing (fun {b v docs} lawful awaits => ?_) lawful (awaits.enter _ _)).mono
    (fun _ _ _ _ _ ordinary => .of_ordinary ordinary) fun _ _ _ ordinary => .of_ordinary ordinary
  refine ((shapeOrApplyStatement_puts lawful awaits).and (shapeOrApplyStatement_ensures lawful.shown awaits)).mono
    (fun _ _ _ ⟨⟨w, F, lawful', becomes, ordinary⟩, ⟨_, shown, names, _, behind⟩⟩ => ?_) fun _ both => both.1
  exact ⟨w, F, lawful', becomes, ordinary,
    behind.of_spine (shown.spine_unique lawful'.shown (becomes.names.trans names.symm))⟩

/-! ### Control and metadata -/

instance setting_obeys (sign : TokenKind) : Obeys (setting sign) := by
  unfold setting
  infer_instance

instance controlStatement_obeys : Obeys controlStatement := by
  unfold controlStatement
  infer_instance

instance controlSection_obeys : Obeys controlSection := by
  unfold controlSection
  have : NeedsNext fun (_ : Unit) b => b.isAt .dollar := needsNext_isAt (by decide)
  infer_instance

instance metadataStatement_obeys : Obeys metadataStatement := by
  unfold metadataStatement
  infer_instance

instance metadataSection_obeys : Obeys metadataSection := by
  unfold metadataSection
  have : NeedsNext fun (_ : Unit) b => b.isAtKeyword "metadata" := needsNext_isAtKeyword "metadata"
  infer_instance

/-! ### Whole texts -/

instance declaration_obeys (kind : TreeKind) [TreeKind.Computed kind.isFree] [TreeKind.Computed kind.isUnruled]
    (declared : Parser Unit) [Obeys declared] : Obeys (declaration kind declared) := by
  unfold declaration
  infer_instance

instance namespaceStatement_obeys : Obeys namespaceStatement := by
  unfold namespaceStatement
  infer_instance

instance useStatement_obeys : Obeys useStatement := by
  unfold useStatement
  infer_instance

instance useSection_obeys (docs : Docs) : Obeys (useSection docs) := by
  unfold useSection
  have : NeedsNext fun (_ : Docs) b => b.isAtKeyword "use" := needsNext_isAtKeyword "use"
  infer_instance

instance namespaceOrError_obeys : Obeys namespaceOrError := by
  unfold namespaceOrError
  infer_instance

instance leftOver_obeys : Obeys leftOver := by
  unfold leftOver
  infer_instance

instance shapeSection_obeys : Obeys shapeSection where
  obeys {b v} h := by
    unfold shapeSection within
    refine .look (run_hasNext b) (.ite (fun _ => ?_) fun _ => .pure h Forest.ordinary_nil)
    refine .map ((Fills.scope_of rfl .statement h fun b₁ _ lawful => ?_).imp
      fun _ _ _ ⟨_, same⟩ => same ▸ Forest.ordinary_branch rfl)
    have names : Passes id fun _ => namespaceOrError := fun _ _ _ shown _ => namespaceOrError_hands.hands shown
    refine (Puts.bind_handing (Puts.awaiting lawful .none names (Obeys.obeys lawful)) fun docs b₂ w₂ lawful₂ awaits₂ => ?_).mono
      (fun _ _ _ _ _ ordinary => .of_ordinary ordinary) fun _ _ _ ordinary => .of_ordinary ordinary
    exact .bind_handing (Puts.awaiting lawful₂ awaits₂ useSection_passes (Obeys.obeys lawful₂)) fun _ _ _ lawful₃ awaits₃ =>
      shapeStatements_puts lawful₃ awaits₃

instance model_obeys : Obeys model := by
  unfold model
  infer_instance

end SmithyIdl.Grammar
