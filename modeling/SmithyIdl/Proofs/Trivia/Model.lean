import SmithyIdl.Proofs.Schema.Model
import SmithyIdl.Proofs.Trivia.Statements

/-! # Trivia in files

The documentation comments before the first statement are those behind the namespace, or behind the last use
statement. -/

set_option synthInstance.maxSize 2000

namespace SmithyIdl

open SmithyIdl.Parser

theorem AreNameParts.endsPart {w : List Token} (h : AreNameParts w) (t : Token) (start : t.kind = .identifier) :
    EndsPart (t :: w) := by
  induction h generalizing t with
  | nil => exact .single (by rw [start]; rfl)
  | cons _ identifier _ ih => exact (ih _ identifier).behind [t, _]

namespace Grammar

variable {b b' : Buffer} {v v' : View} {ts : Array Token} {given docs : Docs}

/-! ### Names -/

instance namespaceId_orders : Orders namespaceId := by
  unfold namespaceId
  have : NeedsNext fun (_ : Unit) b => b.isAt .dot := needsNext_isAt (by decide)
  infer_instance

instance absoluteShapeId_orders : Orders absoluteShapeId := by
  unfold absoluteShapeId
  infer_instance

theorem namespaceId_spellsPart : SpellsPart b namespaceId := by
  intro _ b' run clean
  obtain ⟨_, split, parts, names, rfl⟩ := namespaceId_spells run clean
  unfold namespaceId at run
  obtain ⟨_, b₁, found, -⟩ := bind_eq_ok.mp run
  exact ⟨_, split, names.endsPart _ (expect_ok found).2⟩

theorem absoluteShapeId_spellsPart : SpellsPart b absoluteShapeId := by
  unfold absoluteShapeId
  refine .look_bind fun _ _ => .ask_bind ?_
  split
  · exact shapeId_spellsPart
  · exact .ask_bind (.fail _)

/-! ### Declarations -/

/-- Orderly trees were added, and documentation comments wait at their end. -/
def Waiting (ts : Array Token) (b' : Buffer) (v v' : View) (docs : Docs) : Prop :=
  ∃ F F', b'.Waits ts (v.grow F) (v'.grow F') docs ∧ F.Orderly ts ∧ F'.Orderly ts

theorem declaration_waiting {kind : TreeKind} {declared : Parser Unit} [Orders declared] (lower : kind.isLower = true)
    (part : ∀ b, SpellsPart b declared) (h : b.Gathers ts v) (builds : b.Builds ts v)
    (yields : (declaration kind declared).Yields False ts b v fun docs b' w u =>
      u = [.node kind] ∧ w.Held docs ∧ b'.current.kind.isTrivia = false)
    (run : (declaration kind declared).run b = .ok docs b') (clean : b'.errors = b.errors) :
    Waiting ts b' v v docs := by
  obtain ⟨text, rfl⟩ := h.lexed
  obtain ⟨w, u, builds', gains, -, held, settled⟩ := yields builds run clean
  unfold declaration at run
  obtain ⟨r, b₁, closed, done⟩ := bind_eq_ok.mp run
  cases done
  obtain ⟨docs, b₁, b₂, rfl, h₁, -, -, inner, clean, cursor, -, close⟩ := scope_gathers h closed clean
  obtain ⟨_, b₃, K, -, -, h₃, orderlyK, inner, clean⟩ := Orders.bind_clean h₁ inner clean
  obtain ⟨_, b₄, S, -, -, h₄, orderlyS, inner, clean⟩ := Orders.bind_clean h₃ inner clean
  obtain ⟨_, b₅, D, taken, clean₅, h₅, orderlyD, ended, clean⟩ := Orders.bind_clean h₄ inner clean
  obtain ⟨j, before, last⟩ := (part b₄).exists_last taken clean₅ h₅
  obtain ⟨other, noBrace⟩ := TokenKind.isLast_iff.mp last
  obtain ⟨E, E', k, due, late, -⟩ :=
    endLine_due h₅ other noBrace (before ▸ Nat.lt_succ_self j) (before ▸ .refl) ended clean
  have left := due.leave (close due.gathers (View.enter_names ..)) cursor
  simp only [View.grow_grow, View.enter_grow_leave] at left
  obtain rfl := builds'.shown.unique left.gathers.shown gains.names.symm gains.loose.symm
  rw [← cursor] at late
  exact ⟨_, _, ⟨builds', settled, held, j, k, left, noBrace, late⟩, Forest.orderly_lower lower,
    Forest.orderly_lower lower⟩

theorem namespaceOrError_waiting (h : b.Gathers ts v) (builds : b.Builds ts v)
    (run : namespaceOrError.run b = .ok docs b') (clean : b'.errors = b.errors) : Waiting ts b' v v docs := by
  obtain ⟨text, rfl⟩ := h.lexed
  unfold namespaceOrError at run
  obtain ⟨here, b₁, hask, run⟩ := bind_eq_ok.mp run
  cases hask
  rw [run_ite] at run
  split at run
  · next here =>
    exact declaration_waiting rfl (fun _ => namespaceId_spellsPart) h builds (declaration_yields h.alone (by decide) rfl
      rfl (fun _ => namespaceId_writes) (identifier_of_keyword here)) run clean
  · obtain ⟨token, b₁, hask, run⟩ := bind_eq_ok.mp run
    cases hask
    obtain ⟨_, b₂, reported, done⟩ := bind_eq_ok.mp run
    cases done
    exact absurd clean (Nat.ne_of_gt (reportMissing_ok reported))

theorem useStatement_waiting (here : b.isAtKeyword "use" = true) (h : b.Gathers ts v) (builds : b.Builds ts v)
    (run : useStatement.run b = .ok docs b') (clean : b'.errors = b.errors) : Waiting ts b' v v docs := by
  obtain ⟨text, rfl⟩ := h.lexed
  exact declaration_waiting rfl (fun _ => absoluteShapeId_spellsPart) h builds (declaration_yields h.alone (by decide)
    rfl rfl (fun _ => absoluteShapeId_writes) (identifier_of_keyword here)) run clean

/-! ### Sections -/

/-- What waits before the use statements still waits behind them if there are none. -/
theorem useSection_waiting (waits : b.Waits ts v v' given) (run : (useSection given).run b = .ok docs b')
    (clean : b'.errors = b.errors) : ∃ x, (x = v ∨ x = v') ∧ Waiting ts b' v x docs := by
  obtain ⟨text, rfl⟩ := waits.gathers.lexed
  obtain ⟨w, u, builds', gains, -, held, settled⟩ :=
    useSection_yields waits.gathers.alone waits.held waits.settled waits.builds run clean
  unfold useSection at run
  obtain ⟨r, b₁, closed, done⟩ := bind_eq_ok.mp run
  cases done
  obtain ⟨docs, b₁, b₂, rfl, gathers, leads, same, inner, clean, cursor, -, close⟩ :=
    scope_gathers waits.gathers closed clean
  have start : Waiting (tokens text).toArray b₁ (v.enter b.tree.size (.plain .useSection))
      (v'.enter b.tree.size (.plain .useSection)) given :=
    ⟨.nil, .nil, by simpa using waits.enter gathers leads same, trivial, trivial⟩
  let I : Docs → Buffer → Prop := fun docs b₃ => ∃ x, (x = v ∨ x = v') ∧ Waiting (tokens text).toArray b₃
    (v.enter b.tree.size (.plain .useSection)) (x.enter b.tree.size (.plain .useSection)) docs
  have rounds : ∀ given b₃ docs b₄, b₁.Leads b₃ → I given b₃ → b₃.isAtKeyword "use" = true →
      useStatement.run b₃ = .ok docs b₄ → b₄.errors = b₃.errors → I docs b₄ := by
    intro given b₃ docs b₄ _ ⟨x, base, U, U', waits', orderly, orderly'⟩ here stated clean₄
    obtain ⟨N, N', waits'', orderlyN, orderlyN'⟩ := useStatement_waiting here waits'.gathers waits'.builds stated clean₄
    rw [View.grow_grow, View.grow_grow] at waits''
    exact ⟨v, .inl rfl, _, _, waits'', Forest.orderly_append.mpr ⟨orderly, orderlyN⟩,
      Forest.orderly_append.mpr ⟨orderly, orderlyN'⟩⟩
  have first : I given b₁ := ⟨v', .inr rfl, start⟩
  obtain ⟨⟨x, base, U, U', waits', orderly, orderly'⟩, -⟩ := foldWhile_clean rounds first inner clean
  obtain ⟨j, k, due, other, late⟩ := waits'.due
  have left := due.leave (close due.gathers (View.enter_names ..)) cursor
  rw [View.enter_grow_leave, View.enter_grow_leave] at left
  obtain rfl := builds'.shown.unique left.gathers.shown gains.names.symm gains.loose.symm
  rw [← cursor] at late
  exact ⟨x, base, _, _, ⟨builds', settled, held, j, k, left, other, late⟩, Forest.orderly_lower rfl,
    Forest.orderly_lower rfl⟩

theorem shapeSection_orders (h : b.Gathers ts v) (builds : b.Builds ts v) (run : shapeSection.run b = .ok () b')
    (clean : b'.errors = b.errors) : ∃ F, b'.Gathers ts (v.grow F) ∧ F.Orderly ts := by
  unfold shapeSection at run
  obtain ⟨next, b₁, hask, run⟩ := bind_eq_ok.mp run
  cases hask
  rw [run_ite] at run
  split at run
  · obtain ⟨b₁, b₂, gathers, leads, -, inner, clean, -, -, close⟩ := within_gathers h run clean
    obtain ⟨given, b₃, named, inner⟩ := bind_eq_ok.mp inner
    obtain ⟨docs, b₄, used, stated⟩ := bind_eq_ok.mp inner
    obtain ⟨clean₃, clean⟩ := (Steady.ok named).clean (Steady.ok inner) clean
    obtain ⟨clean₄, clean₅⟩ := (Steady.ok used).clean (Steady.ok stated) clean
    have builds₁ : b₁.Builds ts (v.enter b.tree.size (.plain .shapeSection)) :=
      ⟨gathers.shown, gathers.tokens, builds.tidy.enter _ _⟩
    obtain ⟨N, N', waits, orderlyN, orderlyN'⟩ := namespaceOrError_waiting gathers builds₁ named clean₃
    obtain ⟨x, base, U, U', waits', orderlyU, orderlyU'⟩ := useSection_waiting waits used clean₄
    obtain ⟨y, S, base', gathers', orderlyS⟩ := shapeStatements_orders waits' stated clean₅
    obtain ⟨A, rfl, orderlyA⟩ : ∃ A, y = (v.enter b.tree.size (.plain .shapeSection)).grow A ∧ A.Orderly ts := by
      rcases base' with rfl | rfl
      · exact ⟨N ++ U, View.grow_grow .., Forest.orderly_append.mpr ⟨orderlyN, orderlyU⟩⟩
      · rcases base with rfl | rfl
        · exact ⟨N ++ U', View.grow_grow .., Forest.orderly_append.mpr ⟨orderlyN, orderlyU'⟩⟩
        · exact ⟨N' ++ U', View.grow_grow .., Forest.orderly_append.mpr ⟨orderlyN', orderlyU'⟩⟩
    rw [View.grow_grow] at gathers'
    have closed := close gathers' (View.enter_names ..)
    rw [View.enter_grow_leave] at closed
    exact ⟨_, closed, fun _ => ⟨trivial, Forest.orderly_append.mpr ⟨orderlyA, orderlyS⟩⟩, trivial⟩
  · cases run
    exact ⟨.nil, v.grow_nil.symm ▸ h, trivial⟩

/-! ### Files -/

instance controlSection_orders : Orders controlSection := by
  have : NeedsNext fun (_ : Unit) b => b.isAt .dollar := needsNext_isAt (by decide)
  unfold controlSection
  infer_instance

instance metadataSection_orders : Orders metadataSection := by
  have : NeedsNext fun (_ : Unit) b => b.isAtKeyword "metadata" := needsNext_isAtKeyword "metadata"
  unfold metadataSection
  infer_instance

/-- A file without a problem keeps its trivia orderly. -/
theorem model_orders (h : b.Gathers ts v) (builds : b.Builds ts v) (run : model.run b = .ok () b')
    (clean : b'.errors = b.errors) : ∃ F, b'.Gathers ts (v.grow F) ∧ F.Orderly ts := by
  unfold model at run
  obtain ⟨_, b₁, white, run⟩ := bind_eq_ok.mp run
  obtain ⟨clean₁, clean⟩ := (Steady.ok white).clean (Steady.ok run) clean
  obtain ⟨W, h₁, builds₁, orderlyW, -⟩ := Orders.builds whitespace_writes h builds white clean₁
  obtain ⟨_, b₂, controlled, run⟩ := bind_eq_ok.mp run
  obtain ⟨clean₂, clean⟩ := (Steady.ok controlled).clean (Steady.ok run) clean
  obtain ⟨C, h₂, builds₂, orderlyC, -⟩ := Orders.builds controlSection_writes h₁ builds₁ controlled clean₂
  obtain ⟨_, b₃, told, run⟩ := bind_eq_ok.mp run
  obtain ⟨clean₃, clean⟩ := (Steady.ok told).clean (Steady.ok run) clean
  obtain ⟨M, h₃, builds₃, orderlyM, -⟩ := Orders.builds metadataSection_writes h₂ builds₂ told clean₃
  obtain ⟨_, b₄, shaped, left⟩ := bind_eq_ok.mp run
  obtain ⟨clean₄, clean₅⟩ := (Steady.ok shaped).clean (Steady.ok left) clean
  obtain ⟨S, h₄, orderlyS⟩ := shapeSection_orders h₃ builds₃ shaped clean₄
  obtain ⟨rfl, -⟩ := leftOver_ok left clean₅
  rw [View.grow_grow, View.grow_grow, View.grow_grow] at h₄
  refine ⟨_, h₄, Forest.orderly_append.mpr ⟨orderlyW, Forest.orderly_append.mpr ⟨orderlyC, ?_⟩⟩⟩
  exact Forest.orderly_append.mpr ⟨orderlyM, orderlyS⟩

end Grammar

end SmithyIdl
