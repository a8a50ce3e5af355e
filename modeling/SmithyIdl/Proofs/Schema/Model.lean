import SmithyIdl.Proofs.Grammar.Model
import SmithyIdl.Proofs.Schema.Statements

/-! # Rows of files

A file without a problem is a row of sections, each of which is a row of its statements. -/

set_option synthInstance.maxSize 2000

namespace SmithyIdl.Grammar

open SmithyIdl.Parser SmithyIdl.Schema

variable {b b' : Buffer} {v : View} {text : String} {kind : TreeKind} {declared : Parser Unit} {s : Symbol}
  {given docs : Docs}

/-! ### Control and metadata -/

theorem setting_writes {sign : TokenKind} (sound : sign ≠ .error) :
    (setting sign).Writes False b (Schema.setting sign) := by
  unfold setting
  exact .cons objectKey_writes fun _ _ _ => .cons spaces_writes fun _ _ _ => .cons (.consume sound) fun _ _ _ =>
    .cons spaces_writes fun _ _ _ => .cons nodeValue_writes fun _ _ _ => .last (.map endLine_writes.writes)

theorem controlStatement_writes (here : b.isAt .dollar = true) :
    controlStatement.Writes False b (one .controlStatement) := by
  unfold controlStatement
  refine .within (by decide) fun _ _ same => .cons (.consumeAny_at ?_ (by decide)) fun _ _ _ =>
    (setting_writes (by decide)).last
  rw [Buffer.current_of_peek same]
  exact of_decide_eq_true here

theorem controlSection_writes : controlSection.Writes False b (one .controlSection) := by
  unfold controlSection
  exact .within (by decide) fun _ _ _ => .repeatWhile fun _ _ here => controlStatement_writes here

theorem metadataStatement_writes (here : b.isAtKeyword "metadata" = true) :
    metadataStatement.Writes False b (one .metadataStatement) := by
  unfold metadataStatement
  refine .within (by decide) fun _ _ same => .cons (keyword_writes ?_) fun _ _ _ => .cons someSpaces_writes
    fun _ _ _ => (setting_writes (by decide)).last
  rw [Buffer.current_of_peek same]
  exact identifier_of_keyword here

theorem metadataSection_writes : metadataSection.Writes False b (one .metadataSection) := by
  unfold metadataSection
  exact .within (by decide) fun _ _ _ => .repeatWhile fun _ _ here => metadataStatement_writes here

/-! ### Declarations -/

theorem declaration_writes {r : Rows} [Steady declared] (ne : kind ≠ .shapeId ∧ kind ≠ .error)
    (row : production kind = Schema.declared r) (writes : ∀ b, declared.Writes False b r)
    (here : b.current.kind = .identifier) :
    (declaration kind declared).WritesDocs anywhere View.Held id b (one kind) := by
  have line (b₁ : Buffer) (_ : b.Leads b₁) (same : b₁.peek = b.peek) : (do
      keyword
      someSpaces
      declared
      endLine : Parser Docs).WritesDocs anywhere View.Held id b₁ (production kind) := by
    rw [row]
    refine .cons (keyword_writes ?_) fun _ _ _ => .cons someSpaces_writes fun _ _ _ => .cons (writes _) fun _ _ _ =>
      endLine_writes.last
    rwa [Buffer.current_of_peek same]
  unfold declaration
  exact .map (.scope ne (fun _ => trivial) (fun held _ _ => View.AwaitsIn.leave_held held) line)

/-- Behind a declaration its line ends. -/
theorem declaration_yields [Steady declared] (alone : v.loose = .nil) (ne : kind ≠ .shapeId)
    (row : production kind = Schema.declared (.char s)) (inLine : Schema.isInLine s = true)
    (writes : ∀ b, declared.Writes False b (.char s)) (here : b.current.kind = .identifier) :
    (declaration kind declared).Yields False (tokens text).toArray b v fun docs b' w u =>
      u = [.node kind] ∧ w.Held docs ∧ b'.current.kind.isTrivia = false := by
  unfold declaration
  refine (YieldsFrom.scope (Q := fun docs b' w => w.Held docs ∧ b'.current.kind.isTrivia = false)
    fun b₁ _ same => ?inside).bind fun _ _ _ _ _ _ _ h => .pure ?closed
  case inside =>
    rw [← Buffer.current_of_peek same] at here
    rw [row]
    refine (keyword_writes here).rows.bind fun _ _ w₁ _ _ _ gains₁ first => someSpaces_writes.rows.bind
      fun _ b₂ w₂ _ _ _ gains₂ second => (writes b₂).rows.bind fun _ b₃ w₃ u₃ _ _ gains₃ third => ?_
    have last : (w₃.inner.children.row (tokens text).toArray).getLast? = some s := by
      obtain rfl : u₃ = [s] := third
      rw [gains₃.row]
      simp
    have alone₃ : w₃.loose = .nil := gains₃.loose.trans (gains₂.loose.trans (gains₁.loose.trans alone))
    refine (endLine_yields alone₃ last inLine).mono fun _ _ _ _ _ h => ⟨?_, h.2⟩
    have ended := (matches_sequence_one lineEnd).ge h.1
    exact Language.append_mem_mul first (Language.append_mem_mul second (Language.append_mem_mul third ended))
  case closed =>
    obtain ⟨docs, b₁, x, rfl, ⟨held, settled⟩, same, rfl, -, rfl, -⟩ := h
    refine ⟨?_, held.leave_held, ?_⟩
    · rw [List.append_nil, Symbol.ofNode_of_ne ne]
    · rwa [Buffer.current_of_peek same]

/-! ### Sections of shapes -/

theorem namespaceStatement_writes (here : b.isAtKeyword "namespace" = true) :
    namespaceStatement.WritesDocs anywhere View.Held id b (one .namespaceStatement) :=
  declaration_writes (by decide) rfl (fun _ => namespaceId_writes) (identifier_of_keyword here)

theorem useStatement_writes (here : b.isAtKeyword "use" = true) :
    useStatement.WritesDocs anywhere View.Held id b (one .useStatement) :=
  declaration_writes (by decide) rfl (fun _ => absoluteShapeId_writes) (identifier_of_keyword here)

theorem useSection_writes (names : b.Names given) :
    (useSection given).WritesDocs (·.Held given) View.Held id b (one .useSection) := by
  unfold useSection
  exact .map (.scope (by decide) (fun held => held.enter _ _) (fun held _ _ => View.AwaitsIn.leave_held held)
    fun b₁ leads _ => .foldWhile (names.leads leads) fun b₂ d _ here =>
      (useStatement_writes here).mono (fun _ => trivial) id)

theorem useSection_yields (alone : v.loose = .nil) (held : v.Held given) (settled : b.current.kind.isTrivia = false) :
    (useSection given).Yields False (tokens text).toArray b v fun docs b' w u =>
      u = [.node .useSection] ∧ w.Held docs ∧ b'.current.kind.isTrivia = false := by
  unfold useSection
  refine (YieldsFrom.scope (Q := fun docs b' w => w.Held docs ∧ b'.current.kind.isTrivia = false)
    fun b₁ _ same => ?inside).bind fun _ _ _ _ _ _ _ h => .pure ?closed
  case inside =>
    refine (YieldsFrom.foldWhile (J := fun docs b' w u =>
      u ∈ (production .useSection).matches' ∧ w.Held docs ∧ b'.current.kind.isTrivia = false)
      (fun docs b₂ w u _ gains h here => ?_)
      ⟨Language.nil_mem_kstar _, held.enter _ _, ?_⟩).mono fun _ _ _ _ _ h => h.1
    · refine (declaration_yields (gains.loose.trans alone) (by decide) rfl rfl (fun _ => absoluteShapeId_writes)
        (identifier_of_keyword here)).mono fun _ _ _ _ _ h' => ⟨Writes.append_mem_star h.1 h'.1, h'.2⟩
    · rwa [Buffer.current_of_peek same]
  case closed =>
    obtain ⟨docs, b₁, x, rfl, ⟨held, settled⟩, same, rfl, -, rfl, -⟩ := h
    exact ⟨rfl, held.leave_held, by rwa [Buffer.current_of_peek same]⟩

theorem reportMissing_ok {problem : Problem} (run : (reportMissing problem).run b = .ok () b') :
    b.errors < b'.errors := by
  unfold reportMissing at run
  obtain ⟨e, b₁, hask, run⟩ := bind_eq_ok.mp run
  cases hask
  obtain ⟨d, b₂, added, done⟩ := bind_eq_ok.mp run
  cases done
  exact Nat.lt_of_succ_le (Nat.le_of_eq (addError_ok added).2.2.2.symm)

theorem namespaceOrError_guards : namespaceOrError.Guards b := by
  unfold namespaceOrError
  refine .ask_bind (.ite (fun here => (namespaceStatement_writes here).guards) fun _ => ?_)
  exact .ask_bind (.bind (.reportMissing _) fun _ _ _ => .pure _)

theorem namespaceOrError_names (run : namespaceOrError.run b = .ok docs b') : b'.Names docs := by
  unfold namespaceOrError at run
  obtain ⟨here, b₁, hask, run⟩ := bind_eq_ok.mp run
  cases hask
  rw [run_ite] at run
  split at run
  · next here => exact (namespaceStatement_writes here).names run
  · obtain ⟨token, b₁, hask, run⟩ := bind_eq_ok.mp run
    cases hask
    obtain ⟨_, b₂, -, done⟩ := bind_eq_ok.mp run
    cases done
    exact .none

/-- Without a problem the namespace is there. -/
theorem namespaceOrError_yields (alone : v.loose = .nil) :
    namespaceOrError.Yields False (tokens text).toArray b v fun docs b' w u =>
      u = [.node .namespaceStatement] ∧ w.Held docs ∧ b'.current.kind.isTrivia = false := by
  unfold namespaceOrError
  refine .ask (.ite (fun here => ?_) fun _ => .ask (.after fun _ _ _ reported clean => ?_))
  · exact declaration_yields alone (by decide) rfl rfl (fun _ => namespaceId_writes) (identifier_of_keyword here)
  · exact absurd clean (Nat.ne_of_gt (reportMissing_ok reported))

theorem shapeSection_guards : shapeSection.Guards b := by
  unfold shapeSection
  refine .ask_bind (.ite (fun _ => .within (by decide) fun _ _ _ => ?_) fun _ => .pure _)
  refine .bind namespaceOrError_guards fun docs b₁ run => ?_
  have uses := useSection_writes (namespaceOrError_names run)
  exact .bind uses.guards fun docs' b₂ run' => shapeStatements_guards (uses.names run')

theorem shapeSection_yields (alone : v.loose = .nil) :
    shapeSection.Yields False (tokens text).toArray b v fun _ _ _ u =>
      u ∈ (Schema.optional (one .shapeSection)).matches' := by
  unfold shapeSection
  refine .ask (.ite (fun _ => ?_) fun _ => .pure (.inl rfl))
  refine (YieldsFrom.within (P := fun _ => True) (by decide) fun b₁ _ _ => ?_).mono fun _ _ _ _ _ h => .inr h.1
  have opened : (v.enter b.tree.size (.plain .shapeSection)).loose = .nil := alone
  refine (namespaceOrError_yields opened).bind fun docs b₂ w₂ _ _ _ gains₂ h₂ => ?_
  have alone₂ : w₂.loose = .nil := gains₂.loose.trans alone
  refine (useSection_yields alone₂ h₂.2.1 h₂.2.2).bind fun docs b₃ w₃ _ _ _ gains₃ h₃ => ?_
  refine (shapeStatements_yields (gains₃.loose.trans alone₂) h₃.2.1 h₃.2.2).mono fun _ _ _ _ _ h₄ => ⟨?_, trivial⟩
  have statements := (matches_sequence_one (one .shapeStatements)).ge h₄
  exact Language.append_mem_mul h₂.1 (Language.append_mem_mul h₃.1 statements)

/-! ### Files -/

theorem leftOver_guards : leftOver.Guards b := by
  unfold leftOver
  exact .ask_bind (.ite (fun _ => .ask_bind (.ask_bind (.report _ _))) fun _ => .pure _)

/-- Without a problem no token is left over. -/
theorem leftOver_yields {ts : Array Token} : leftOver.Yields False ts b v fun _ _ _ u => u = [] := by
  intro builds _ b' run clean
  obtain ⟨rfl, -⟩ := leftOver_ok run clean
  exact ⟨v, [], builds, .refl v, rfl⟩

theorem model_guards : model.Guards b := by
  have space : whitespace.Writes False b Schema.space := whitespace_writes
  unfold model
  exact .bind space.guards fun _ _ _ => .bind controlSection_writes.guards fun _ _ _ =>
    .bind metadataSection_writes.guards fun _ _ _ => .bind shapeSection_guards fun _ _ _ => leftOver_guards

theorem model_yields (alone : v.loose = .nil) :
    model.Yields False (tokens text).toArray b v fun _ _ _ u => u ∈ (production .idl).matches' := by
  unfold model
  refine whitespace_writes.rows.bind fun _ _ w₁ _ _ _ gains₁ h₁ => controlSection_writes.rows.bind
    fun _ _ w₂ _ _ _ gains₂ h₂ => metadataSection_writes.rows.bind fun _ _ w₃ _ _ _ gains₃ h₃ => ?_
  have alone₃ : w₃.loose = .nil := gains₃.loose.trans (gains₂.loose.trans (gains₁.loose.trans alone))
  refine (shapeSection_yields alone₃).bind fun _ _ _ _ _ _ _ h₄ => leftOver_yields.mono fun _ _ _ _ _ h₅ => ?_
  have section' := (matches_sequence_one _).ge h₄
  rw [h₅, List.append_nil]
  exact Language.append_mem_mul h₁ (Language.append_mem_mul h₂ (Language.append_mem_mul h₃ section'))

end SmithyIdl.Grammar
