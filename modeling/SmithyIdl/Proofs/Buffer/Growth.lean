import SmithyIdl.Proofs.Buffer.Building
import SmithyIdl.Proofs.Buffer.Eats

/-! # Parsers that let the tree grow

A parser that meets no fault and adds children to the innermost open node, and does nothing else to the tree,
lets it grow (`Grows`). One that may also move what is below the open nodes still leaves the same nodes open and
the same trees alone (`Reshapes`). -/

namespace SmithyIdl

/-- The same nodes are open and the same trees stand alone. -/
def View.Like (v w : View) : Prop := w.names = v.names ∧ w.loose = v.loose

/-- The innermost open node has further children, and nothing else is changed. -/
def View.GrownFrom (v w : View) : Prop := ∃ F, w = v.grow F

/-- The innermost open node has further children. -/
def Buffer.ShowsGrown (b : Buffer) (v : View) : Prop := ∃ F, b.Shows (v.grow F)

/-- The same nodes are open and the same trees stand alone. -/
def Buffer.ShowsLike (b : Buffer) (v : View) : Prop := ∃ w, b.Shows w ∧ w.names = v.names ∧ w.loose = v.loose

namespace Buffer

variable {b : Buffer} {v w : View}

theorem Shows.grown (h : b.Shows v) : b.ShowsGrown v := ⟨.nil, v.grow_nil.symm ▸ h⟩

theorem ShowsGrown.trans {F : Forest} (h : b.ShowsGrown (v.grow F)) : b.ShowsGrown v := by
  obtain ⟨G, h⟩ := h
  exact ⟨F ++ G, v.grow_grow F G ▸ h⟩

theorem ShowsGrown.like (h : b.ShowsGrown v) : b.ShowsLike v := by
  obtain ⟨F, h⟩ := h
  exact ⟨_, h, rfl, rfl⟩

theorem Shows.like (h : b.Shows v) : b.ShowsLike v := ⟨v, h, rfl, rfl⟩

theorem ShowsLike.trans (h : b.ShowsLike w) (names : w.names = v.names) (loose : w.loose = v.loose) :
    b.ShowsLike v := by
  obtain ⟨u, h, hn, hl⟩ := h
  exact ⟨u, h, hn.trans names, hl.trans loose⟩

/-- A round that took a token leaves fewer. -/
theorem Leads.remaining_lt {b' : Buffer} (h : b.Leads b') (shows' : b'.Shows w) (lt : b.cursor < b'.cursor) :
    b'.remaining < b.remaining := by
  have bound := shows'.cursor
  rw [h.eof] at bound
  rw [remaining, remaining, h.eof]
  omega

end Buffer

namespace Parser

variable {α β σ : Type} {p q : Parser α} {f : α → Parser β}

/-- What every round keeps, as long as it says what the buffer shows, a repetition keeps. -/
theorem foldWhile_shown {more : σ → Buffer → Bool} {round : σ → Parser σ} [∀ s, Steady (round s)]
    [Advances more round] {I : σ → Buffer → Prop} {E : Buffer → Prop} {b : Buffer} {s : σ}
    (shows : ∀ {s b'}, I s b' → ∃ w, b'.Shows w)
    (keep : ∀ s b', b.Leads b' → I s b' → (round s).Ensures b' I E) (start : I s b) :
    (foldWhile more round s).Ensures b I E := by
  refine (foldWhile_ensures (I := fun s b' => b.Leads b' ∧ I s b') (fun s b₁ h₁ go => ?_) ⟨.refl b, start⟩).mono
    (fun _ _ _ h => h.1.2) fun _ h => h
  obtain ⟨leads, h₁⟩ := h₁
  obtain ⟨w, shown⟩ := shows h₁
  refine (keep s b₁ leads h₁).mono (fun s' b₂ run h₂ => ?_) fun _ h => h
  obtain ⟨u, shown'⟩ := shows h₂
  have leads' := Steady.ok run
  exact ⟨⟨leads.trans leads', h₂⟩, leads'.remaining_lt shown' (Advances.advances shown.ends go run)⟩

/-- A parser that meets no fault and leaves the same nodes open and the same trees alone. -/
class Reshapes (p : Parser α) : Prop extends Steady p where
  reshapes : ∀ {b : Buffer} {v : View}, b.Shows v →
    p.Ensures b (fun _ b' => b'.ShowsLike v) fun b' => b'.ShowsLike v

/-- A parser that meets no fault and adds children to the innermost open node, and does nothing else to the tree. -/
class Grows (p : Parser α) : Prop extends Reshapes p where
  grows : ∀ {b : Buffer} {v : View}, b.Shows v →
    p.Ensures b (fun _ b' => b'.ShowsGrown v) fun b' => b'.ShowsGrown v

theorem Grows.of [Steady p] (grows : ∀ {b : Buffer} {v : View}, b.Shows v →
    p.Ensures b (fun _ b' => b'.ShowsGrown v) fun b' => b'.ShowsGrown v) : Grows p where
  grows := grows
  reshapes h := (grows h).mono (fun _ _ _ h' => h'.like) fun _ h' => h'.like

theorem Grows.of_run [Steady p] (run : ∀ {b : Buffer} {v : View}, b.Shows v →
    ∃ a b', p.run b = .ok a b' ∧ b'.ShowsGrown v) : Grows p :=
  .of fun h => by
    obtain ⟨a, b', run, grown⟩ := run h
    exact .of_ok run grown

namespace Reshapes

instance bind [Reshapes p] [∀ a, Reshapes (f a)] : Reshapes (p >>= f) where
  reshapes h := (reshapes h).bind fun a b' h' => by
    obtain ⟨w, h', names, loose⟩ := h'
    exact (reshapes h').mono (fun _ _ _ hw => hw.trans names loose) fun _ hw => hw.trans names loose

instance ite {c : Prop} [Decidable c] [Reshapes p] [Reshapes q] : Reshapes (if c then p else q) where
  reshapes h := .ite (fun _ => reshapes h) fun _ => reshapes h

instance foldWhile {more : σ → Buffer → Bool} {round : σ → Parser σ} [∀ s, Reshapes (round s)]
    [Advances more round] (s : σ) : Reshapes (Parser.foldWhile more round s) where
  reshapes {b v} h := by
    refine foldWhile_shown (I := fun _ b' => b'.ShowsLike v) (fun h' => ?_) (fun s b₁ _ h₁ => ?_) h.like
    · obtain ⟨w, h', -⟩ := h'
      exact ⟨w, h'⟩
    · obtain ⟨w, h₁, names, loose⟩ := h₁
      exact (reshapes h₁).mono (fun _ _ _ h₂ => h₂.trans names loose) fun _ h₂ => h₂.trans names loose

end Reshapes

namespace Grows

instance pure (a : α) : Grows (Pure.pure a : Parser α) := .of fun h => .pure h.grown

instance ask (g : Buffer → α) : Grows (Parser.ask g) := .of fun h => .ask h.grown

instance fail (problem : Problem) : Grows (Parser.fail problem : Parser α) := .of fun h => .fail h.grown

instance bind [Grows p] [∀ a, Grows (f a)] : Grows (p >>= f) :=
  .of fun h => (grows h).bind fun a b' h' => by
    obtain ⟨F, h'⟩ := h'
    exact (grows h').mono (fun _ _ _ hG => hG.trans) fun _ hG => hG.trans

theorem seq [Grows p] (h : ∀ a, Grows (f a)) : Grows (p >>= f) := inferInstance

instance ite {c : Prop} [Decidable c] [Grows p] [Grows q] : Grows (if c then p else q) :=
  .of fun h => .ite (fun _ => grows h) fun _ => grows h

instance foldWhile {more : σ → Buffer → Bool} {round : σ → Parser σ} [∀ s, Grows (round s)]
    [Advances more round] (s : σ) : Grows (Parser.foldWhile more round s) :=
  .of fun {b v} h => by
    refine foldWhile_shown (I := fun _ b' => b'.ShowsGrown v) (fun h' => ?_) (fun s b₁ _ h₁ => ?_) h.grown
    · obtain ⟨F, h'⟩ := h'
      exact ⟨_, h'⟩
    · obtain ⟨F, h₁⟩ := h₁
      exact (grows h₁).mono (fun _ _ _ h₂ => h₂.trans) fun _ h₂ => h₂.trans

instance repeatWhile {more : Buffer → Bool} {round : Parser Unit} [Grows round]
    [Advances (fun _ b => more b) fun _ : Unit => round] : Grows (Parser.repeatWhile more round) := by
  unfold Parser.repeatWhile
  infer_instance

/-! ### Tokens -/

instance current : Grows Parser.current := .ask _

instance isAt (kind : TokenKind) : Grows (Parser.isAt kind) := .ask _

instance isAtKeyword (name : String) : Grows (Parser.isAtKeyword name) := .ask _

instance errorCount : Grows Parser.errorCount := .ask _

theorem shift_ensures {b : Buffer} {v : View} {E : Buffer → Prop} (h : b.Shows v) (next : b.hasNext = true) :
    Parser.shift.Ensures b (fun _ b' => b'.ShowsGrown v) E := by
  obtain ⟨b', run, shown⟩ := run_shift h next
  exact .of_ok run ⟨_, shown⟩

instance next : Grows Parser.next := by
  unfold Parser.next
  refine .of fun {b v} h => .after (run_hasNext b) (.ite (fun next => ?_) fun _ => .fail h.grown)
  exact .after (run_ask _ b) ((shift_ensures h next).bind fun _ _ h' => .pure h')

/-- Taking tokens of a class does not fail. -/
theorem shiftWhile_ensures {b : Buffer} {v : View} {E : Buffer → Prop} (kinds : Token → Bool) (h : b.Shows v) :
    (Parser.shiftWhile kinds).Ensures b (fun _ b' => b'.ShowsGrown v) E := by
  refine (foldWhile_ensures (I := fun _ b' => b'.ShowsGrown v) (fun _ b₁ h₁ go => ?_) h.grown).mono
    (fun _ _ _ h' => h'.1) fun _ h' => h'
  obtain ⟨F, h₁⟩ := h₁
  have next := (Bool.and_eq_true_iff.mp go).1
  refine (shift_ensures h₁ next).mono (fun _ b₂ run h₂ => ?_) fun _ h₂ => h₂
  obtain ⟨G, shown⟩ := id h₂
  exact ⟨h₂.trans, (Steady.ok run).remaining_lt shown (Eats.eats h₁.ends next run)⟩

instance shiftWhile (kinds : Token → Bool) : Grows (Parser.shiftWhile kinds) := .of (shiftWhile_ensures kinds)

instance shiftKinds (kinds : TokenKind → Bool) : Grows (Parser.shiftKinds kinds) := by
  unfold Parser.shiftKinds
  infer_instance

instance expectAny (kinds : TokenSet) : Grows (Parser.expectAny kinds) := by
  unfold Parser.expectAny
  have (cause : Option LexError) (token : Token) : Grows (match cause with
      | some cause => Parser.fail (.lexical cause)
      | none => Parser.fail (.expected kinds token) : Parser TokenKind) := by cases cause <;> infer_instance
  infer_instance

instance expect (kind : TokenKind) : Grows (Parser.expect kind) := by
  unfold Parser.expect
  infer_instance

instance consume (kind : TokenKind) : Grows (Parser.consume kind) := by
  unfold Parser.consume
  infer_instance

instance consumeAny : Grows Parser.consumeAny := by
  unfold Parser.consumeAny
  infer_instance

/-! ### Errors -/

instance addError (mark : Mark) : Grows (Parser.addError mark) :=
  .of_run fun h => by
    obtain ⟨b', run, shown⟩ := run_addError h mark
    exact ⟨_, b', run, _, shown⟩

theorem recover_ensures {b : Buffer} {v : View} {E : Buffer → Prop} (recovery : Recovery) (h : b.Shows v) :
    (Parser.recover recovery).Ensures b (fun _ b' => b'.ShowsGrown v) E := by
  cases recovery with
  | statement => exact shiftWhile_ensures (!startsStatement ·) h
  | endOfText => exact shiftWhile_ensures (fun _ => true) h
  | none => exact .pure h.grown

/-- The error node takes the token in the way and what the recovery takes. -/
theorem report_ensures {b : Buffer} {v : View} {E : Buffer → Prop} (e : SyntaxError) (recovery : Recovery)
    (h : b.Shows v) : (Parser.report e recovery).Ensures b (fun _ b' => b'.ShowsGrown v) E := by
  unfold Parser.report
  obtain ⟨b₁, run₁, shown₁⟩ := run_addError h (markOf e)
  refine .after run₁ (.after (run_hasNext b₁) (.ite (fun next => ?_) fun _ => .pure ⟨_, shown₁⟩))
  obtain ⟨b₂, run₂, shown₂, same⟩ := run_push shown₁
  refine .after run₂ ((shift_ensures shown₂ (same.trans next)).bind fun _ b₃ shown₃ => ?_)
  obtain ⟨F, shown₃⟩ := shown₃
  refine (recover_ensures recovery shown₃).bind fun _ b₄ shown₄ => ?_
  obtain ⟨G, shown₄⟩ := shown₄.trans
  obtain ⟨b₅, run₅, shown₅⟩ := run_pop shown₄ (v.enter_names _ _)
  rw [View.enter_grow_leave] at shown₅
  exact .of_ok run₅ ⟨_, shown₅⟩

instance reportMissing (problem : Problem) : Grows (Parser.reportMissing problem) := by
  unfold Parser.reportMissing
  infer_instance

end Grows

/-! ### Scopes -/

section
variable {b : Buffer} {v : View} {Q : α → Buffer → Prop} {E : Buffer → Prop}

theorem limited_ensures (refused : b.isTooDeep = true → E b) (inside : b.isTooDeep = false → p.Ensures b Q E) :
    (limited p).Ensures b Q E :=
  .after (run_ask _ b) (.ite (fun deep => .fail (refused deep)) fun fits => inside (eq_false_of_ne_true fits))

/-- The value of a parser, or nothing where it failed and the report was added. -/
def Reported (Q : α → Buffer → View → Prop) (E : Buffer → View → Prop) : Option α → Buffer → View → Prop
  | some a, b, w => Q a b w
  | none, b, w => ∃ b₀ u F, b₀.Leads b ∧ b₀.errors < b.errors ∧ E b₀ u ∧ w = u.grow F

/-- What a failure leaves too holds in any case, if a report does not undo it. -/
theorem Reported.elim {R : View → Prop} {r : Option α} {w : View} (h : Reported (fun _ _ => R) (fun _ => R) r b w)
    (grow : ∀ {u F}, R u → R (u.grow F)) : R w := by
  cases r with
  | some a => exact h
  | none =>
    obtain ⟨_, u, F, -, -, hu, rfl⟩ := h
    exact grow hu

theorem errors_lt_of_report {e : SyntaxError} {recovery : Recovery} {b' : Buffer}
    (h : (report e recovery).run b = .ok () b') : b.errors < b'.errors := by
  unfold report addError at h
  obtain ⟨node, b₁, added, rest⟩ := bind_eq_ok.mp h
  obtain ⟨_, b₂, counted, added⟩ := bind_eq_ok.mp added
  cases counted
  obtain ⟨_, b₃, made, added⟩ := bind_eq_ok.mp added
  cases made
  exact Nat.lt_of_lt_of_le (Nat.lt_of_succ_le (Steady.ok added).errors) (Steady.ok rest).errors

variable {Q : α → Buffer → View → Prop} {E : Buffer → View → Prop}

/-- A failure is caught, and its report grows at the innermost node. -/
theorem recovering_ensures (recovery : Recovery)
    (h : p.Ensures b (fun a b' => ∃ w, b'.Shows w ∧ Q a b' w) fun b' => ∃ w, b'.Shows w ∧ E b' w) :
    (recovering recovery p).Ensures b (fun r b' => ∃ w, b'.Shows w ∧ Reported Q E r b' w) fun _ => False := by
  unfold recovering
  refine h.attempt.bind fun r b₁ h₁ => ?_
  cases r with
  | ok a => exact .pure h₁
  | error e =>
    obtain ⟨w, shown, hE⟩ := h₁
    obtain ⟨_, b₂, run, F, shown⟩ := (Grows.report_ensures e recovery shown).exists_ok
    exact .after run (.pure ⟨_, shown, b₁, w, F, Steady.ok run, errors_lt_of_report run, hE, rfl⟩)

/-- A node is opened, and closed again when what runs inside it is over. -/
theorem scope_ensures {kind : TreeKind} (recovery : Recovery) (h : b.Shows v)
    (names : ∀ {a b' w}, Q a b' w → w.names = (b.tree.size, .plain kind) :: v.names)
    (names' : ∀ {b' w}, E b' w → w.names = (b.tree.size, .plain kind) :: v.names)
    (inside : ∀ b₁, b₁.Shows (v.enter b.tree.size (.plain kind)) → b.Leads b₁ →
      (limited p).Ensures b₁ (fun a b' => ∃ w, b'.Shows w ∧ Q a b' w) fun b' => ∃ w, b'.Shows w ∧ E b' w) :
    (scope kind p recovery).Ensures b
      (fun r b' => r.node = b.tree.size ∧ ∃ b₁ w, b₁.Leads b' ∧ b'.Shows w.leave ∧ w.leave.names = v.names ∧
        Reported Q E r.value b₁ w) fun _ => False := by
  unfold scope
  obtain ⟨b₁, run₁, shown₁⟩ := run_openNode h kind
  refine .after run₁ ((recovering_ensures recovery (inside b₁ shown₁ (Steady.ok run₁))).bind fun r b₂ h₂ => ?_)
  obtain ⟨w, shown₂, hw⟩ := h₂
  have open' : w.names = (b.tree.size, .plain kind) :: v.names := by
    cases r with
    | some a => exact names hw
    | none =>
      obtain ⟨_, u, F, -, -, hE, rfl⟩ := hw
      exact names' (w := u) hE
  obtain ⟨b₃, run₃, shown₃⟩ := run_closeNode shown₂ open'
  exact .after run₃ (.pure ⟨rfl, b₂, w, Steady.ok run₃, shown₃, View.leave_names open', hw⟩)

instance Reshapes.limited [Reshapes p] : Reshapes (Parser.limited p) where
  reshapes h := limited_ensures (fun _ => h.like) fun _ => reshapes h

instance Grows.limited [Grows p] : Grows (Parser.limited p) := by
  unfold Parser.limited
  infer_instance

instance Grows.recovering [Grows p] (recovery : Recovery) : Grows (Parser.recovering recovery p) :=
  .of fun {b v} h => by
    have caught : (Parser.recovering recovery p).Ensures b
        (fun r b' => ∃ w, b'.Shows w ∧ Reported (fun _ _ => v.GrownFrom) (fun _ => v.GrownFrom) r b' w)
        fun _ => False :=
      recovering_ensures recovery ((grows h).mono (fun _ _ _ h' => ⟨_, h'.choose_spec, _, rfl⟩)
        fun _ h' => ⟨_, h'.choose_spec, _, rfl⟩)
    refine caught.mono (fun r b' _ h' => ?_) fun _ h' => h'.elim
    obtain ⟨w, shown, hw⟩ := h'
    obtain ⟨F, rfl⟩ := hw.elim fun ⟨F, hF⟩ => ⟨_, hF ▸ v.grow_grow F _⟩
    exact ⟨F, shown⟩

instance Reshapes.scope [Reshapes p] (kind : TreeKind) (recovery : Recovery) :
    Reshapes (Parser.scope kind p recovery) where
  reshapes {b v} h := by
    have closed := scope_ensures (p := p) (Q := fun _ _ => (v.enter b.tree.size (.plain kind)).Like)
      (E := fun _ => (v.enter b.tree.size (.plain kind)).Like) recovery h And.left And.left
      fun b₁ shown _ => Reshapes.reshapes shown
    refine closed.mono (fun r b' _ h' => ?_) fun _ h' => h'.elim
    obtain ⟨-, _, w, -, shown, names, hw⟩ := h'
    obtain ⟨-, loose⟩ := hw.elim fun hu => hu
    exact ⟨w.leave, shown, names, w.leave_loose.trans loose⟩

/-- A node whose body only grows is one new child. -/
theorem scope_grows [Grows p] {kind : TreeKind} {recovery : Recovery} (h : b.Shows v) :
    (scope kind p recovery).Ensures b
      (fun r b' => ∃ F, b'.Shows (v.grow (.branch r.node (.plain kind) F .nil))) fun _ => False := by
  have closed := scope_ensures (p := p) (Q := fun _ _ => (v.enter b.tree.size (.plain kind)).GrownFrom)
    (E := fun _ => (v.enter b.tree.size (.plain kind)).GrownFrom) recovery h
    (fun ⟨_, hF⟩ => hF ▸ rfl) (fun ⟨_, hF⟩ => hF ▸ rfl) fun b₁ shown _ =>
      (Grows.grows shown).mono (fun _ _ _ h' => ⟨_, h'.choose_spec, _, rfl⟩) fun _ h' =>
        ⟨_, h'.choose_spec, _, rfl⟩
  refine closed.mono (fun r b' _ h' => ?_) fun _ h' => h'
  obtain ⟨node, _, w, -, shown, -, hw⟩ := h'
  obtain ⟨F, rfl⟩ := hw.elim fun ⟨F, hF⟩ => ⟨_, hF ▸ View.grow_grow ..⟩
  exact ⟨F, node ▸ View.enter_grow_leave .. ▸ shown⟩

instance Grows.scope [Grows p] (kind : TreeKind) (recovery : Recovery) :
    Grows (Parser.scope kind p recovery) :=
  .of fun h => (scope_grows h).mono (fun _ _ _ h' => ⟨_, h'.choose_spec⟩) fun _ h' => h'.elim

end

instance Reshapes.within (kind : TreeKind) (body : Parser Unit) [Reshapes body] :
    Reshapes (Parser.within kind body) := by
  unfold Parser.within
  infer_instance

instance Grows.within (kind : TreeKind) (body : Parser Unit) [Grows body] : Grows (Parser.within kind body) := by
  unfold Parser.within
  infer_instance

end Parser

end SmithyIdl
