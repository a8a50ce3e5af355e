import SmithyIdl.Proofs.Discipline.Puts

/-! # Parsers without ruled nodes

Most parsers put no ruled nodes below the innermost open one, and close lawful nodes only. Instances say so of every
step and of every way to put steps together, so for a rule of the grammar it is found by its form. -/

namespace SmithyIdl

namespace Parser

variable {α β σ : Type} {p q : Parser α} {f : α → Parser β}

/-- A parser that puts ordinary trees into lawful ones, whether it succeeds or fails. -/
class Obeys (p : Parser α) : Prop extends Steady p where
  obeys : ∀ {b : Buffer} {v : View}, b.Lawful v → p.Puts b v (fun _ _ => Forest.Ordinary) fun _ => Forest.Ordinary

theorem Puts.before_obeys [∀ a, Obeys (f a)] {b : Buffer} {v : View}
    (h : p.Puts b v (fun _ _ => Forest.Ordinary) fun _ => Forest.Ordinary) :
    (p >>= f).Puts b v (fun _ _ => Forest.Ordinary) fun _ => Forest.Ordinary :=
  h.bind (fun _ _ _ _ _ lawful _ before => (Obeys.obeys lawful).mono
    (fun _ _ _ _ _ behind _ thin => Forest.ordinary_append.mpr ⟨thin.ordinary before, behind⟩)
    fun _ _ _ behind _ thin => Forest.ordinary_append.mpr ⟨thin.ordinary before, behind⟩) fun _ _ before => before

namespace Obeys

instance pure (a : α) : Obeys (Pure.pure a : Parser α) := ⟨fun h => .pure h Forest.ordinary_nil⟩

instance ask (g : Buffer → α) : Obeys (Parser.ask g) := ⟨fun h => .of_ok (run_ask g _) (.refl h Forest.ordinary_nil)⟩

instance fail (problem : Problem) : Obeys (Parser.fail problem : Parser α) := ⟨fun h => .fail h Forest.ordinary_nil⟩

instance bind [Obeys p] [∀ a, Obeys (f a)] : Obeys (p >>= f) := ⟨fun h => .before_obeys (obeys h)⟩

theorem seq [Obeys p] (h : ∀ a, Obeys (f a)) : Obeys (p >>= f) := inferInstance

instance ite {c : Prop} [Decidable c] [Obeys p] [Obeys q] : Obeys (if c then p else q) :=
  ⟨fun h => .ite (fun _ => obeys h) fun _ => obeys h⟩

instance foldWhile {more : σ → Buffer → Bool} {round : σ → Parser σ} [∀ s, Obeys (round s)] [Advances more round]
    (s : σ) : Obeys (Parser.foldWhile more round s) := by
  refine ⟨fun {b v} h => ?_⟩
  refine foldWhile_shown (I := fun _ b' => b'.Gained v Forest.Ordinary) (fun h' => h'.shown) (fun s b₁ _ h₁ => ?_)
    (.refl h Forest.ordinary_nil)
  obtain ⟨w, F, lawful, becomes, ordinary⟩ := h₁
  exact Ensures.mono (obeys lawful) (fun _ _ _ h₂ => h₂.ordinary becomes ordinary) fun _ h₂ => h₂.ordinary becomes ordinary

instance repeatWhile {more : Buffer → Bool} {round : Parser Unit} [Obeys round]
    [Advances (fun _ b => more b) fun _ : Unit => round] : Obeys (Parser.repeatWhile more round) := by
  unfold Parser.repeatWhile
  infer_instance

/-! ### Tokens -/

instance current : Obeys Parser.current := .ask _

instance hasNext : Obeys Parser.hasNext := .ask _

instance isAt (kind : TokenKind) : Obeys (Parser.isAt kind) := .ask _

instance isAtKeyword (name : String) : Obeys (Parser.isAtKeyword name) := .ask _

instance errorCount : Obeys Parser.errorCount := .ask _

instance next : Obeys Parser.next := by
  unfold Parser.next
  refine ⟨fun {b v} h => .look (run_hasNext b) (.ite (fun next => .ask ?_) fun _ => .fail h Forest.ordinary_nil)⟩
  obtain ⟨b', run, lawful⟩ := run_shift_lawful h next
  exact .after run (.pure (.grow lawful (Forest.ordinary_leaf.mpr Forest.ordinary_nil)))

instance shiftWhile (kinds : Token → Bool) : Obeys (Parser.shiftWhile kinds) :=
  ⟨fun h => Ensures.mono (shiftWhile_lawful (E := fun _ => False) kinds h)
    (fun _ _ _ ⟨_, lawful, ordinary⟩ => .grow lawful ordinary) fun _ never => never.elim⟩

instance shiftKinds (kinds : TokenKind → Bool) : Obeys (Parser.shiftKinds kinds) := by
  unfold Parser.shiftKinds
  infer_instance

instance expectAny (kinds : TokenSet) : Obeys (Parser.expectAny kinds) := by
  unfold Parser.expectAny
  have (cause : Option LexError) (token : Token) : Obeys (match cause with
      | some cause => Parser.fail (.lexical cause)
      | none => Parser.fail (.expected kinds token) : Parser TokenKind) := by cases cause <;> infer_instance
  infer_instance

instance expect (kind : TokenKind) : Obeys (Parser.expect kind) := by
  unfold Parser.expect
  infer_instance

instance consume (kind : TokenKind) : Obeys (Parser.consume kind) := by
  unfold Parser.consume
  infer_instance

instance consumeAny : Obeys Parser.consumeAny := by
  unfold Parser.consumeAny
  infer_instance

/-! ### Errors -/

instance reportMissing (problem : Problem) : Obeys (Parser.reportMissing problem) := by
  unfold Parser.reportMissing
  refine ⟨fun {b v} h => .ask ?_⟩
  obtain ⟨b', run, shown⟩ := run_addError h.shown (markOf (b.syntaxError problem))
  have lawful := h.grow (Steady.ok run) shown ⟨.of_ordinary rfl Forest.ordinary_nil, trivial, trivial⟩
  exact .after run (.pure (.grow lawful (Forest.ordinary_branch rfl)))

instance report (e : SyntaxError) (recovery : Recovery) : Obeys (Parser.report e recovery) :=
  ⟨fun h => Ensures.mono (report_lawful (E := fun _ => False) e recovery h)
    (fun _ _ _ ⟨_, lawful, report⟩ => .grow lawful report.ordinary) fun _ never => never.elim⟩

/-! ### Scopes -/

instance recovering [Obeys p] (recovery : Recovery) : Obeys (Parser.recovering recovery p) :=
  ⟨fun h => ((obeys h).recovering recovery).imp fun _ _ _ kept => kept.ordinary⟩

/-- A node of which nothing is said. -/
theorem scope_node [Obeys p] (kind : TreeKind) [free : TreeKind.Computed kind.isFree] (recovery : Recovery)
    {b : Buffer} {v : View} (h : b.Lawful v) :
    (Parser.scope kind p recovery).Puts b v (fun c _ G => ∃ F, G = .branch c.node (.plain kind) F .nil)
      fun _ _ => False :=
  (Puts.scope recovery h (fun _ _ _ lawful => ⟨Forest.ordinary_nil, obeys lawful⟩)
    fun _ _ _ kept => .of_ordinary free.holds kept.ordinary).imp fun _ _ _ ⟨F, _, same, _⟩ => ⟨F, same⟩

instance scope [Obeys p] (kind : TreeKind) [TreeKind.Computed kind.isFree] [other : TreeKind.Computed kind.isUnruled]
    (recovery : Recovery) : Obeys (Parser.scope kind p recovery) :=
  ⟨fun h => (scope_node kind recovery h).imp fun _ _ _ ⟨_, same⟩ => same ▸ Forest.ordinary_branch
    other.holds⟩

/-- A node that is not ruled, as far as it may be closed. -/
theorem of_scope {kind : TreeKind} {body : Parser Unit} [Steady body] (free : kind.isUnruled = true)
    (node : ∀ {b : Buffer} {v : View}, b.Lawful v →
      (Parser.scope kind body).Puts b v (fun c _ G => ∃ F, G = .branch c.node (.plain kind) F .nil) fun _ _ => False) :
    Obeys (Parser.within kind body) := by
  unfold Parser.within
  exact ⟨fun h => .map ((node h).imp fun _ _ _ ⟨_, same⟩ => same ▸ Forest.ordinary_branch free)⟩

instance within (kind : TreeKind) [TreeKind.Computed kind.isFree] [TreeKind.Computed kind.isUnruled] (body : Parser Unit)
    [Obeys body] : Obeys (Parser.within kind body) := by
  unfold Parser.within
  infer_instance

end Obeys

/-- What follows a look at the tokens begins where that did. -/
theorem Puts.looks [Looks p] [Obeys p] {b : Buffer} {v : View} {R : β → Buffer → Forest → Prop}
    {E : Buffer → Forest → Prop} (h : b.Lawful v) (next : ∀ a, p.run b = .ok a b → (f a).Puts b v R E)
    (err : E b .nil) : (p >>= f).Puts b v R E := by
  have obeys := Obeys.obeys (p := p) h
  rw [Puts, Ensures] at obeys
  cases run : p.run b with
  | ok a b' =>
    obtain rfl := Looks.ok run
    exact .after run (next a run)
  | error e b' =>
    obtain rfl : b' = b := Looks.same (p := p) (by rw [run]; rfl)
    rw [Puts, Ensures, run_bind, run]
    exact .refl h err
  | fault why =>
    rw [run] at obeys
    exact obeys.elim

/-! ### Nodes with ruled ones in them -/

/-- What is put may stand in a node of a kind. -/
def Fills (p : Parser α) (kind : TreeKind) : Prop := ∀ ⦃b : Buffer⦄ ⦃v : View⦄, b.Lawful v →
  p.Puts b v (fun _ _ F => F.Fits kind) fun _ F => F.Fits kind

namespace Fills

variable {kind : TreeKind}

theorem of_obeys [Obeys p] : p.Fills kind := fun _ _ h =>
  (Obeys.obeys h).mono (fun _ _ _ _ _ ordinary => .of_ordinary ordinary) fun _ _ _ ordinary => .of_ordinary ordinary

theorem behind [Obeys p] (h : ∀ a, (f a).Fills kind) : (p >>= f).Fills kind := fun _ _ lawful =>
  (Obeys.obeys lawful).bind (fun a _ _ _ _ lawful' _ before => (h a lawful').mono
    (fun _ _ _ _ _ fits _ thin => fits.ordinary_append (thin.ordinary before))
    fun _ _ _ fits _ thin => fits.ordinary_append (thin.ordinary before)) fun _ _ before => .of_ordinary before

theorem before [∀ a, Obeys (f a)] (h : p.Fills kind) : (p >>= f).Fills kind := fun _ _ lawful =>
  (h lawful).bind (fun _ _ _ _ _ lawful' _ fits => (Obeys.obeys lawful').mono
    (fun _ _ _ _ _ behind _ thin => (fits.thins thin).append_ordinary behind)
    fun _ _ _ behind _ thin => (fits.thins thin).append_ordinary behind) fun _ _ fits => fits

theorem ite {c : Prop} [Decidable c] (pos : p.Fills kind) (neg : q.Fills kind) : (if c then p else q).Fills kind :=
  fun _ _ lawful => .ite (fun _ => pos lawful) fun _ => neg lawful

/-- The report of a failure is not ruled. -/
theorem fits_of_kept {r : Option α} {b' : Buffer} {F : Forest}
    (h : Kept (fun _ _ F => F.Fits kind) (fun _ F => F.Fits kind) r b' F) : F.Fits kind := by
  cases r with
  | some a => exact h
  | none =>
    obtain ⟨b₀, F', R, rfl, fits, report⟩ := h
    exact fits.append_ordinary report.ordinary

theorem scope_of [Steady p] (free : kind.isFree = true) (recovery : Recovery) {b : Buffer} {v : View} (lawful : b.Lawful v)
    (inside : ∀ b₁, b.Leads b₁ → b₁.Lawful (v.enter b.tree.size (.plain kind)) →
      p.Puts b₁ (v.enter b.tree.size (.plain kind)) (fun _ _ F => F.Fits kind) fun _ F => F.Fits kind) :
    (Parser.scope kind p recovery).Puts b v (fun c _ G => ∃ F, G = .branch c.node (.plain kind) F .nil)
      fun _ _ => False :=
  (Puts.scope recovery lawful (fun b₁ leads _ lawful' => ⟨.nil, inside b₁ leads lawful'⟩) fun _ _ _ kept =>
    (fits_of_kept kept).lawfulNode free).imp fun _ _ _ ⟨F, _, same, _⟩ => ⟨F, same⟩

theorem scope_node [Steady p] (free : kind.isFree = true) (recovery : Recovery) (h : p.Fills kind) {b : Buffer}
    {v : View} (lawful : b.Lawful v) :
    (Parser.scope kind p recovery).Puts b v (fun c _ G => ∃ F, G = .branch c.node (.plain kind) F .nil)
      fun _ _ => False := scope_of free recovery lawful fun _ _ lawful' => h lawful'

theorem within {body : Parser Unit} [Steady body] (free : kind.isFree = true) (unruled : kind.isUnruled = true)
    (h : body.Fills kind) : Obeys (within kind body) := .of_scope unruled fun lawful => scope_node free .statement h lawful

end Fills

theorem PutsKinds.looks [Looks p] [Obeys p] {b : Buffer} {v : View} {R : β → List TreeKind → Prop}
    {E : List TreeKind → Prop} (h : b.Lawful v) (next : ∀ a, p.run b = .ok a b → (f a).PutsKinds b v R E)
    (err : E []) : (p >>= f).PutsKinds b v R E := Puts.looks h next err

end Parser

/-! ### First tokens -/

/-- A token that is to come. -/
structure Buffer.Awaits (b : Buffer) (ts : Array Token) (first : Token) : Prop where
  tokens : b.tree.tokens = ts
  next : b.hasNext = true
  current : b.current = first

theorem Buffer.Awaits.of_peek {b b' : Buffer} {ts : Array Token} {first : Token} (h : b.Awaits ts first)
    (leads : b.Leads b') (cursor : b'.cursor = b.cursor) : b'.Awaits ts first where
  tokens := leads.tokens.trans h.tokens
  next := (leads.hasNext_of_same cursor).trans h.next
  current := (leads.current_of_same cursor).trans h.current

namespace Parser

variable {α β : Type} {p : Parser α} {f : α → Parser β} {b : Buffer} {v : View} {ts : Array Token} {first : Token}

/-- The token stands first in what is put, unless the parser fails on it. -/
def Begins (p : Parser α) (ts : Array Token) (first : Token) (b : Buffer) (v : View) : Prop :=
  p.Puts b v (fun _ _ F => F.Ordinary ∧ F.Leads ts first)
    fun b' F => F.Ordinary ∧ (F.Leads ts first ∨ F = .nil ∧ b'.Awaits ts first)

namespace Begins

theorem bind [∀ a, Obeys (f a)] (h : p.Begins ts first b v) : (p >>= f).Begins ts first b v :=
  Puts.bind h (fun _ _ _ _ _ lawful _ before => (Obeys.obeys lawful).mono
    (fun _ _ _ _ _ behind _ thin =>
      ⟨Forest.ordinary_append.mpr ⟨thin.ordinary before.1, behind⟩, (thin.leads before.2).append _⟩)
    fun _ _ _ behind _ thin =>
      ⟨Forest.ordinary_append.mpr ⟨thin.ordinary before.1, behind⟩, .inl ((thin.leads before.2).append _)⟩)
    fun _ _ failed => failed

theorem looks [Looks p] [Obeys p] (h : b.Lawful v) (awaits : b.Awaits ts first) (next : ∀ a, (f a).Begins ts first b v) :
    (p >>= f).Begins ts first b v :=
  Puts.looks h (fun a _ => next a) ⟨Forest.ordinary_nil, .inr ⟨rfl, awaits⟩⟩

theorem consumeAny (h : b.Lawful v) (awaits : b.Awaits ts first) : Parser.consumeAny.Begins ts first b v := by
  unfold Parser.consumeAny Parser.next
  obtain ⟨b', run, lawful⟩ := run_shift_lawful h awaits.next
  refine Ensures.bind (.after (run_hasNext b) (.ite (fun _ => .after (run_ask _ b) (.after run (.pure ?_))) fun atEnd =>
    absurd awaits.next atEnd)) fun _ _ h' => .pure h'
  refine .grow lawful ⟨Forest.ordinary_leaf.mpr Forest.ordinary_nil, ?_⟩
  have here := getElem?_cursor h.shown
  rwa [awaits.tokens, awaits.current] at here

/-- The report of a failure begins with the token that was in the way. -/
theorem leads_of_kept {r : Option α} {b' : Buffer} {F : Forest}
    (h : Kept (fun _ _ F => F.Ordinary ∧ F.Leads ts first)
      (fun b' F => F.Ordinary ∧ (F.Leads ts first ∨ F = .nil ∧ b'.Awaits ts first)) r b' F) :
    F.Ordinary ∧ F.Leads ts first := by
  cases r with
  | some a => exact h
  | none =>
    obtain ⟨b₀, F', R, rfl, ⟨ordinary, before⟩, report⟩ := h
    refine ⟨Forest.ordinary_append.mpr ⟨ordinary, report.ordinary⟩, ?_⟩
    rcases before with leads | ⟨rfl, awaits⟩
    · exact leads.append R
    · obtain ⟨i, mark, J, rfl, -, leads⟩ := report
      exact ⟨by simp, awaits.tokens ▸ awaits.current ▸ leads awaits.next⟩

/-- A node begins as what runs inside it. -/
theorem scope [Steady p] {kind : TreeKind} {recovery : Recovery} (h : b.Lawful v) (awaits : b.Awaits ts first)
    (inside : ∀ b₁ w, b₁.Awaits ts first → b₁.Lawful w → p.Begins ts first b₁ w)
    (node : ∀ F : Forest, F.Ordinary → F.Leads ts first → F.LawfulNode ts (.plain kind)) :
    (Parser.scope kind p recovery).Puts b v
      (fun c _ G => ∃ F, G = .branch c.node (.plain kind) F .nil ∧ F.Leads ts first) fun _ _ => False :=
  (Puts.scope recovery h (fun b₁ leads same lawful =>
      have awaits₁ : b₁.Awaits ts first := awaits.of_peek leads same
      ⟨⟨Forest.ordinary_nil, .inr ⟨rfl, awaits₁⟩⟩, inside b₁ _ awaits₁ lawful⟩)
    fun _ _ F kept => awaits.tokens ▸ node F (leads_of_kept kept).1 (leads_of_kept kept).2).imp
      fun _ _ _ ⟨F, _, same, _, kept⟩ => ⟨F, same, (leads_of_kept kept).2⟩

/-- A repetition with a first round begins as this one. -/
theorem foldWhile {σ : Type} {more : σ → Buffer → Bool} {round : σ → Parser σ} [∀ s, Obeys (round s)]
    [Advances more round] {s : σ} (h : b.Lawful v) (go : more s b = true)
    (begins : (round s).Begins ts first b v) : (Parser.foldWhile more round s).Begins ts first b v := by
  -- Before the first round nothing is there, and behind it what it began with.
  refine (foldWhile_shown (I := fun s' b' => s' = s ∧ b' = b ∨ b'.Gained v fun F => F.Ordinary ∧ F.Leads ts first)
    (fun h' => ?_) (fun s' b₁ _ h₁ => ?_) (.inl ⟨rfl, rfl⟩)).mono (fun s' b₁ run h₁ => ?_) fun _ h' => h'
  · rcases h' with ⟨rfl, rfl⟩ | gained
    · exact ⟨v, h.shown⟩
    · exact gained.shown
  · rcases h₁ with ⟨rfl, rfl⟩ | ⟨w, F, lawful, becomes, before⟩
    · exact Ensures.mono begins (fun _ _ _ h₂ => .inr h₂) fun _ h₂ => h₂
    · refine Ensures.mono (Obeys.obeys lawful) (fun _ _ _ h₂ => .inr (.trans becomes (h₂.mono fun G _ behind F' thin => ?_)))
        fun _ h₂ => .trans becomes (h₂.mono fun G _ behind F' thin => ?_)
      · exact ⟨Forest.ordinary_append.mpr ⟨thin.ordinary before.1, behind⟩, (thin.leads before.2).append _⟩
      · exact ⟨Forest.ordinary_append.mpr ⟨thin.ordinary before.1, behind⟩, .inl ((thin.leads before.2).append _)⟩
  · rcases h₁ with ⟨rfl, rfl⟩ | gained
    · have ended := (foldWhile_ok (I := fun _ _ => True) (fun _ _ _ _ _ _ _ => trivial) trivial run).2
      rw [go] at ended
      cases ended
    · exact gained

end Begins

end Parser

end SmithyIdl
