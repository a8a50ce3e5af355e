import SmithyIdl.Grammar.Model
import SmithyIdl.Proofs.Grammar.Statements
import SmithyIdl.Proofs.Token.Stream

/-! # Runs of the grammar

A whole file is parsed without a fault and without a failure, up to the end token. Traits are lost only under
the limits that refuse a statement but not the section of all statements. -/

set_option synthInstance.maxSize 2000

namespace SmithyIdl.Grammar

open SmithyIdl.Parser

variable {b b' : Buffer} {v : View} {docs : Docs}

/-! ### Control and metadata -/

instance setting_grows (sign : TokenKind) : Grows (setting sign) := by
  unfold setting
  infer_instance

instance controlStatement_grows : Grows controlStatement := by
  unfold controlStatement
  infer_instance

instance controlStatement_eats : Eats controlStatement := by
  unfold controlStatement
  infer_instance

instance metadataStatement_grows : Grows metadataStatement := by
  unfold metadataStatement
  infer_instance

instance metadataStatement_eats : Eats metadataStatement := by
  unfold metadataStatement
  infer_instance

theorem within_grows {kind : TreeKind} {body : Parser Unit} [Grows body] {E : Buffer → Prop} (shown : b.Shows v) :
    (within kind body).Ensures b (fun _ b' => b'.ShowsGrown v) E := by
  unfold within
  refine ((scope_grows shown).mono (fun _ _ _ h => h) fun _ h => h.elim).bind fun r b' h => .pure ?_
  obtain ⟨F, h⟩ := h
  exact ⟨_, h⟩

section
variable {E : Buffer → Prop} (shown : b.Shows v)
include shown

theorem whitespace_ensures : whitespace.Ensures b (fun _ b' => b'.ShowsGrown v) E := by
  unfold whitespace
  exact .after (run_ask _ b) (.ite (fun _ => within_grows shown) fun _ => .pure shown.grown)

theorem controlSection_ensures : controlSection.Ensures b (fun _ b' => b'.ShowsGrown v) E := by
  have : NeedsNext fun (_ : Unit) b => b.isAt .dollar := needsNext_isAt (by decide)
  exact within_grows shown

theorem metadataSection_ensures : metadataSection.Ensures b (fun _ b' => b'.ShowsGrown v) E := by
  have : NeedsNext fun (_ : Unit) b => b.isAtKeyword "metadata" := needsNext_isAtKeyword "metadata"
  exact within_grows shown

end

instance controlSection_steady : Steady controlSection := by
  unfold controlSection
  infer_instance

instance metadataSection_steady : Steady metadataSection := by
  unfold metadataSection
  infer_instance

/-! ### Shape sections -/

instance declaration_steady (kind : TreeKind) (declared : Parser Unit) [Steady declared] :
    Steady (declaration kind declared) := by
  unfold declaration
  infer_instance

instance declaration_grows (kind : TreeKind) (declared : Parser Unit) [Grows declared] :
    Grows (declaration kind declared) := by
  unfold declaration
  infer_instance

instance declaration_eats (kind : TreeKind) (declared : Parser Unit) [Steady declared] :
    Eats (declaration kind declared) := by
  unfold declaration
  infer_instance

instance declaration_hands (kind : TreeKind) (declared : Parser Unit) [Grows declared] :
    Hands id (declaration kind declared) := by
  unfold declaration
  infer_instance

instance namespaceStatement_hands : Hands id namespaceStatement := by
  unfold namespaceStatement
  infer_instance

instance namespaceStatement_steady : Steady namespaceStatement := by
  unfold namespaceStatement
  infer_instance

instance namespaceStatement_grows : Grows namespaceStatement := by
  unfold namespaceStatement
  infer_instance

instance useStatement_steady : Steady useStatement := by
  unfold useStatement
  infer_instance

instance useStatement_grows : Grows useStatement := by
  unfold useStatement
  infer_instance

instance useStatement_eats : Eats useStatement := by
  unfold useStatement
  infer_instance

instance useStatement_hands : Hands id useStatement := by
  unfold useStatement
  infer_instance

instance namespaceOrError_steady : Steady namespaceOrError := by
  unfold namespaceOrError
  infer_instance

instance namespaceOrError_grows : Grows namespaceOrError := by
  unfold namespaceOrError
  infer_instance

instance namespaceOrError_hands : Hands id namespaceOrError := by
  unfold namespaceOrError
  infer_instance

instance useSection_steady (docs : Docs) : Steady (useSection docs) := by
  unfold useSection
  infer_instance

instance useSection_grows (docs : Docs) : Grows (useSection docs) := by
  have : NeedsNext fun (_ : Docs) b => b.isAtKeyword "use" := needsNext_isAtKeyword "use"
  unfold useSection
  infer_instance

theorem useSection_passes : Passes id useSection := fun _ _ _ shown awaits => by
  unfold useSection
  have : NeedsNext fun (_ : Docs) b => b.isAtKeyword "use" := needsNext_isAtKeyword "use"
  have uses : Passes id fun _ => useStatement := fun _ _ _ shown' _ => useStatement_hands.hands shown'
  have inside : Passes id (foldWhile (fun _ b => b.isAtKeyword "use") fun _ => useStatement) :=
    foldWhile_passes uses
  exact (scope_passes .useSection .statement inside.adopts shown awaits).bind fun _ _ h => .pure h

instance shapeSection_steady : Steady shapeSection := by
  unfold shapeSection
  infer_instance

theorem shapeSection_ensures (shown : b.Shows v) :
    shapeSection.Ensures b
      (fun _ b' => b'.ShowsLoose v (v.names.length + 1 < b.maxDepth → v.names.length + 3 < b.maxDepth) v.loose)
      fun _ => False := by
  unfold shapeSection
  refine .after (run_hasNext b) (.ite (fun _ => ?_) fun _ => .pure ⟨v, shown, rfl, .of_eq rfl⟩)
  refine within_ensures shown (fun _ _ => rfl) fun fits b₁ shown₁ leads => ?_
  refine ((namespaceOrError_hands.hands shown₁).leads.mono (fun _ _ _ h => h)
    fun _ h => .of_like h rfl rfl).bind fun docs b₂ h₂ => ?_
  obtain ⟨leads₂, w₂, shown₂, names₂, loose₂, awaits₂⟩ := h₂
  refine ((useSection_passes shown₂ awaits₂).leads.mono (fun _ _ _ h => h)
    fun _ h => .of_like h names₂ loose₂).bind fun docs b₃ h₃ => ?_
  obtain ⟨leads₃, w₃, shown₃, names₃, loose₃, awaits₃⟩ := h₃
  have maxDepth := ((leads.trans leads₂).trans leads₃).maxDepth
  have length : w₃.names.length = v.names.length + 1 := by
    rw [names₃, names₂, View.enter_names, List.length_cons]
  refine (shapeStatements_ensures shown₃ awaits₃).mono (fun _ b₄ _ h₄ => ?_) fun _ h => h.elim
  rwa [length, maxDepth, loose₃, loose₂, Buffer.ShowsLoose, names₃, names₂] at h₄

/-! ### The end of the text -/

instance leftOver_steady : Steady leftOver := by
  unfold leftOver
  infer_instance

instance model_steady : Steady model := by
  unfold model
  infer_instance

theorem hasNext_of_report {e : SyntaxError} (h : (report e .endOfText).run b = .ok () b') : b'.hasNext = false := by
  unfold report at h
  obtain ⟨node, b₁, -, h⟩ := bind_eq_ok.mp h
  obtain ⟨next, b₂, hask, h⟩ := bind_eq_ok.mp h
  cases hask
  by_cases next : b₁.hasNext = true
  · rw [run_ite, if_pos next] at h
    obtain ⟨_, b₃, -, h⟩ := bind_eq_ok.mp h
    obtain ⟨_, b₄, -, h⟩ := bind_eq_ok.mp h
    obtain ⟨_, b₅, taken, h⟩ := bind_eq_ok.mp h
    cases h
    have ended : (b₅.hasNext && true) = false :=
      (foldWhile_ok (I := fun _ _ => True) (fun _ _ _ _ _ _ _ => trivial) trivial taken).2
    rwa [Bool.and_true] at ended
  · rw [run_ite, if_neg next] at h
    cases h
    exact eq_false_of_ne_true next

theorem leftOver_ensures {E : Buffer → Prop} (shown : b.Shows v) :
    leftOver.Ensures b (fun _ b' => b'.ShowsGrown v ∧ b'.hasNext = false) E := by
  unfold leftOver
  refine .after (run_hasNext b) (.ite (fun _ => ?_) fun no => .pure ⟨shown.grown, eq_false_of_ne_true no⟩)
  refine .after (run_ask _ b) (.after (run_ask _ b) ?_)
  exact (Grows.report_ensures _ _ shown).mono (fun _ _ run h => ⟨h, hasNext_of_report run⟩) fun _ h => h

/-- Without a new problem the text had ended. -/
theorem leftOver_ok (run : leftOver.run b = .ok () b') (clean : b'.errors = b.errors) : b' = b ∧ b.hasNext = false := by
  unfold leftOver at run
  obtain ⟨next, b₁, hask, run⟩ := bind_eq_ok.mp run
  cases hask
  rw [run_ite] at run
  split at run
  · obtain ⟨token, b₁, hask, run⟩ := bind_eq_ok.mp run
    cases hask
    obtain ⟨e, b₁, hask, reported⟩ := bind_eq_ok.mp run
    cases hask
    exact absurd clean (Nat.ne_of_gt (errors_lt_of_report reported))
  · next no =>
    cases run
    exact ⟨rfl, eq_false_of_ne_true no⟩

theorem model_ensures (shown : b.Shows v) :
    model.Ensures b
      (fun _ b' => b'.ShowsLoose v (v.names.length + 1 < b.maxDepth → v.names.length + 3 < b.maxDepth) v.loose ∧
        b'.hasNext = false) fun _ => False := by
  unfold model
  refine (whitespace_ensures shown).leads.bind fun _ b₁ h₁ => ?_
  obtain ⟨leads₁, F₁, shown₁⟩ := h₁
  refine (controlSection_ensures shown₁).leads.bind fun _ b₂ h₂ => ?_
  obtain ⟨leads₂, F₂, shown₂⟩ := h₂
  refine (metadataSection_ensures shown₂).leads.bind fun _ b₃ h₃ => ?_
  obtain ⟨leads₃, F₃, shown₃⟩ := h₃
  refine (shapeSection_ensures shown₃).bind fun _ b₄ h₄ => ?_
  obtain ⟨w, shown₄, names, spares⟩ := h₄
  refine (leftOver_ensures shown₄).mono (fun _ b₅ run h₅ => ?_) fun _ h => h
  obtain ⟨⟨F₅, shown₅⟩, ended⟩ := h₅
  rw [((leads₁.trans leads₂).trans leads₃).maxDepth] at spares
  exact ⟨⟨_, shown₅, names, spares.leads (Steady.ok run) rfl⟩, ended⟩

/-! ### Whole texts -/

theorem endsWithEof_of_tokens {text : String} (h : b.tree.tokens = (tokens text).toArray) : b.EndsWithEof := by
  obtain ⟨init, last, all, kind, -⟩ := (tokens_cuts text).exists_last
  exact ⟨last, by simp [Buffer.eof, h, all], kind⟩

theorem ofText_shows (filename text : String) (maxDepth : Nat) :
    (Buffer.ofText filename text maxDepth).Shows ⟨⟨SyntaxTree.root, .plain .idl, .nil⟩, [], .nil⟩ where
  openNodes := rfl
  placed := ⟨⟨none, rfl, nofun⟩, trivial, trivial⟩
  aside := trivial
  ids := .refl _
  tokens := .refl _
  sorted := .nil
  ends := endsWithEof_of_tokens rfl
  cursor := Nat.zero_le _

/-- The state at the end of a text: only the root is open, and all trees but those of `L` are below it. -/
structure Finished (b : Buffer) (text : String) (F L : Forest) : Prop where
  tokens : b.tree.tokens = (tokens text).toArray
  shown : b.Shows ⟨⟨SyntaxTree.root, .plain .idl, F⟩, [], L⟩
  cursor : b.cursor = b.eof

/-- The grammar reads every text up to its end. Unless 3 or 4 nodes may be open, no tree is left outside; where one
    is, the refusal of a node stands below the root. -/
theorem model_refuses (filename text : String) (maxDepth : Nat) :
    ∃ b F L, model.run (.ofText filename text maxDepth) = .ok () b ∧ Finished b text F L ∧
      (maxDepth ≠ 3 → maxDepth ≠ 4 → L = .nil) ∧
      (L = .nil ∨ ∃ i mark, b.tree.tag? i = some (.inr (.error mark)) ∧ mark.problem = .tooDeep ∧ i ∉ L.ids) := by
  obtain ⟨_, b, run, leads, h⟩ := (model_ensures (ofText_shows filename text maxDepth)).leads.exists_ok
  obtain ⟨⟨⟨⟨id, label, F⟩, outer, L⟩, shown, names, loose, spared⟩, ended⟩ := h
  obtain ⟨top, around⟩ := List.cons.inj names
  obtain rfl := List.map_eq_nil_iff.mp around
  cases top
  have past : b.eof ≤ b.cursor := by rwa [Buffer.hasNext, decide_eq_false_iff_not, Nat.not_lt] at ended
  refine ⟨b, F, L, run, ⟨leads.tokens, shown, Nat.le_antisymm shown.cursor past⟩, fun three four => loose ?_, spared⟩
  intro fits
  change 1 + 1 < maxDepth at fits
  change 1 + 3 < maxDepth
  omega

/-- The grammar reads every text up to its end. Unless 3 or 4 nodes may be open, no tree is left outside; where one
    is, some problem stands below the root. -/
theorem model_run (filename text : String) (maxDepth : Nat) :
    ∃ b F L, model.run (.ofText filename text maxDepth) = .ok () b ∧ Finished b text F L ∧
      (maxDepth ≠ 3 → maxDepth ≠ 4 → L = .nil) ∧
      (L = .nil ∨ ∃ i mark, b.tree.tag? i = some (.inr (.error mark)) ∧ i ∉ L.ids) := by
  obtain ⟨b, F, L, run, finished, below, spared⟩ := model_refuses filename text maxDepth
  exact ⟨b, F, L, run, finished, below, spared.imp_right fun ⟨i, mark, found, _, apart⟩ => ⟨i, mark, found, apart⟩⟩

/-! ### Repetitions -/

/-- A repetition of the grammar: when it goes on, and its round. Most ask for a token first and repeat a rule that eats; a
    round of the mixins asks for nothing, and eats because it has to begin with an identifier. -/
inductive Repetition : {σ : Type} → (σ → Buffer → Bool) → (σ → Parser σ) → Prop where
  | control : Repetition (fun (_ : Unit) b => b.isAt .dollar) fun _ => controlStatement
  | metadata : Repetition (fun (_ : Unit) b => b.isAtKeyword "metadata") fun _ => metadataStatement
  | uses : Repetition (fun (_ : Docs) b => b.isAtKeyword "use") fun _ => useStatement
  | statements : Repetition (fun (_ : Docs) b => b.hasNext) shapeOrApplyStatement
  | enumMembers : Repetition (fun (_ : Docs) b => beforeBrace b) (memberIn .enumMember enumMember)
  | structureMembers :
      Repetition (fun (_ : Docs) b => beforeBrace b) (memberIn .structureMember (blockMember .inStructure))
  | unionMembers : Repetition (fun (_ : Docs) b => beforeBrace b) (memberIn .unionMember (blockMember .inUnion))
  | properties : Repetition (fun (_ : List String) b => beforeBrace b) operationProperty
  | errors : Repetition (fun (_ : Unit) b => b.hasNext && !b.isAt .rbracket) fun _ => operationError
  | mixins : Repetition (fun closed _ => !closed) fun _ => mixin
  | traits : Repetition (fun (_ : Unit) b => b.isAt .atSign) fun _ => nextTrait
  | traitEntries : Repetition (beforePart .rparen) fun _ => soundly traitEntry
  | elements (depth : Nat) : Repetition (beforePart .rbracket) fun _ => soundly (nodeValueWithin depth)
  | entries (depth : Nat) : Repetition (beforePart .rbrace) fun _ => soundly (objectEntry (nodeValueWithin depth))
  | parts : Repetition (fun (_ : Unit) b => b.isAt .dot) fun _ => namespacePart
  /-- The tokens of a run of white space, or those that a recovery skips. -/
  | tokens (p : Token → Bool) : Repetition (fun (_ : Unit) b => b.hasNext && p b.current) fun _ => shift

/-- Every completed round of a repetition takes a token. -/
theorem Repetition.advances {σ : Type} {more : σ → Buffer → Bool} {round : σ → Parser σ}
    (h : Repetition more round) : Advances more round := by
  have atDollar : NeedsNext fun (_ : Unit) b => b.isAt .dollar := needsNext_isAt (by decide)
  have atSign : NeedsNext fun (_ : Unit) b => b.isAt .atSign := needsNext_isAt (by decide)
  have atDot : NeedsNext fun (_ : Unit) b => b.isAt .dot := needsNext_isAt (by decide)
  have atMetadata : NeedsNext fun (_ : Unit) b => b.isAtKeyword "metadata" := needsNext_isAtKeyword "metadata"
  have atUse : NeedsNext fun (_ : Docs) b => b.isAtKeyword "use" := needsNext_isAtKeyword "use"
  cases h with
  | mixins => exact mixin_advances
  | tokens p =>
    have : NeedsNext fun (_ : Unit) b => b.hasNext && p b.current := needsNext_and fun _ b => p b.current
    infer_instance
  | _ => infer_instance

end SmithyIdl.Grammar
