import SmithyIdl.Proofs.Buffer.Edits
import SmithyIdl.Proofs.Buffer.Thinned
import SmithyIdl.Proofs.Discipline.Law

/-! # Parsers that put lawful trees

What a parser puts below the innermost open node, also where it fails, is said in `Parser.Puts`. All nodes that it
closes are lawful. Most rules put no ruled nodes (`Obeys`), which is found by their form. -/

namespace SmithyIdl

/-- The buffer shows a view whose closed nodes are all lawful. -/
structure Buffer.Lawful (b : Buffer) (v : View) : Prop where
  shown : b.Shows v
  open' : ∀ n ∈ v.spine, n.children.Lawful b.tree.tokens
  loose : v.loose.Lawful b.tree.tokens

/-- Lawful trees of which `Q` holds were added below the innermost node. -/
def Buffer.Gained (b : Buffer) (v : View) (Q : Forest → Prop) : Prop :=
  ∃ w F, b.Lawful w ∧ v.Becomes F w ∧ Q F

namespace Buffer

variable {b b' : Buffer} {v w : View} {F G L : Forest} {Q Q' : Forest → Prop}

namespace Lawful

theorem of_becomes (h : b.Lawful v) (leads : b.Leads b') (shown : b'.Shows w) (becomes : v.Becomes F w)
    (added : F.Lawful b.tree.tokens) (aside : w.loose.Lawful b.tree.tokens) : b'.Lawful w := by
  refine ⟨shown, ?_, leads.tokens ▸ aside⟩
  rw [leads.tokens]
  exact becomes.forall_children Forest.lawful_append Forest.Thins.lawful h.open' added

theorem grow (h : b.Lawful v) (leads : b.Leads b') (shown : b'.Shows (v.grow F)) (added : F.Lawful b.tree.tokens) :
    b'.Lawful (v.grow F) := h.of_becomes leads shown (.grow v F) added h.loose

theorem enter (h : b.Lawful v) (leads : b.Leads b') {id : NodeId} {label : Label}
    (shown : b'.Shows (v.enter id label)) : b'.Lawful (v.enter id label) := by
  refine ⟨shown, ?_, leads.tokens ▸ h.loose⟩
  rw [leads.tokens]
  exact List.forall_mem_cons.mpr ⟨trivial, h.open'⟩

theorem inner (h : b.Lawful v) : v.inner.children.Lawful b.tree.tokens := h.open' _ List.mem_cons_self

/-- What was added is lawful. -/
theorem added (h : b.Lawful w) (becomes : v.Becomes F w) : F.Lawful b.tree.tokens := by
  obtain ⟨⟨n, -, inner⟩, -⟩ := becomes
  have all := h.inner
  rw [inner] at all
  exact (Forest.lawful_append.mp all).2

theorem leave (h : b.Lawful w) (leads : b.Leads b') {id : NodeId} {label : Label} (shown : b'.Shows w.leave)
    (becomes : (v.enter id label).Becomes F w) (node : F.LawfulNode b.tree.tokens label) : b'.Lawful w.leave := by
  have names := becomes.names
  have children := becomes.children_eq rfl
  refine ⟨shown, ?_, leads.tokens ▸ w.leave_loose ▸ h.loose⟩
  rw [leads.tokens]
  obtain ⟨⟨i, l, C⟩, around, L⟩ := w
  obtain rfl : C = F := children
  obtain ⟨name, below⟩ := List.cons.inj names
  cases name
  cases around with
  | nil => cases below
  | cons g outer =>
    obtain ⟨first, rest⟩ := List.forall_mem_cons.mp h.open'
    obtain ⟨next, rest⟩ := List.forall_mem_cons.mp rest
    refine List.forall_mem_cons.mpr ⟨?_, rest⟩
    exact Forest.lawful_append.mpr ⟨next, node, first, trivial⟩

end Lawful

namespace Gained

theorem mono (h : b.Gained v Q) (imp : ∀ F, F.Lawful b.tree.tokens → Q F → Q' F) : b.Gained v Q' := by
  obtain ⟨w, F, lawful, becomes, hF⟩ := h
  exact ⟨w, F, lawful, becomes, imp F (lawful.added becomes) hF⟩

theorem refl (h : b.Lawful v) (hQ : Q .nil) : b.Gained v Q := ⟨v, .nil, h, .refl v, hQ⟩

theorem grow (h : b.Lawful (v.grow F)) (hQ : Q F) : b.Gained v Q := ⟨_, F, h, .grow v F, hQ⟩

/-- What was added first may lose whitespace later. -/
theorem trans (becomes : v.Becomes F w) (h : b.Gained w fun G => ∀ F', F'.Thins F → Q (F' ++ G)) : b.Gained v Q := by
  obtain ⟨u, G, lawful, becomes', hG⟩ := h
  obtain ⟨F', thin, whole⟩ := becomes.trans becomes'
  exact ⟨u, F' ++ G, lawful, whole, hG F' thin⟩

theorem ordinary (becomes : v.Becomes F w) (ordinary : F.Ordinary) (h : b.Gained w Forest.Ordinary) :
    b.Gained v Forest.Ordinary :=
  trans becomes (h.mono fun _ _ hG _ thin => Forest.ordinary_append.mpr ⟨thin.ordinary ordinary, hG⟩)

theorem shown (h : b.Gained v Q) : ∃ w, b.Shows w := by
  obtain ⟨w, _, lawful, -⟩ := h
  exact ⟨w, lawful.shown⟩

end Gained

end Buffer

/-- An error node with tokens in it, the first of which is the one that was to come. -/
def Forest.Report (b : Buffer) (R : Forest) : Prop :=
  ∃ i mark J, R = .branch i (.error mark) J .nil ∧ J.Ordinary ∧
    (b.hasNext = true → J.Leads b.tree.tokens b.current)

theorem Forest.Report.ordinary {b : Buffer} {R : Forest} (h : R.Report b) : R.Ordinary := by
  obtain ⟨i, mark, J, rfl, -⟩ := h
  exact ordinary_branch rfl

theorem Forest.Report.solid {b : Buffer} {R : Forest} (h : R.Report b) : R.solid = [.error] := by
  obtain ⟨i, mark, J, rfl, -⟩ := h
  exact solid_branch (by simp)

namespace Parser

variable {α β σ : Type} {p q : Parser α} {f : α → Parser β} {b : Buffer} {v : View}

/-- What is ensured in two ways. -/
theorem Ensures.and {Q Q' : α → Buffer → Prop} {E E' : Buffer → Prop} (h : p.Ensures b Q E) (h' : p.Ensures b Q' E') :
    p.Ensures b (fun a b' => Q a b' ∧ Q' a b') fun b' => E b' ∧ E' b' := by
  rw [Ensures] at h h' ⊢
  cases run : p.run b with
  | ok a b' =>
    rw [run] at h h'
    exact ⟨h, h'⟩
  | error e b' =>
    rw [run] at h h'
    exact ⟨h, h'⟩
  | fault why =>
    rw [run] at h
    exact h

/-! ### Putting -/

/-- Where `p` succeeds, `Q` holds of what it added below the innermost node, and `E` where it fails. -/
def Puts (p : Parser α) (b : Buffer) (v : View) (Q : α → Buffer → Forest → Prop) (E : Buffer → Forest → Prop) : Prop :=
  p.Ensures b (fun a b' => b'.Gained v (Q a b')) fun b' => b'.Gained v (E b')

/-- The value of a parser with what it added, or what it added up to its failure with the report behind it. -/
def Kept (Q : α → Buffer → Forest → Prop) (E : Buffer → Forest → Prop) : Option α → Buffer → Forest → Prop
  | some a, b, F => Q a b F
  | none, _, F => ∃ b₀ F' R, F = F' ++ R ∧ E b₀ F' ∧ R.Report b₀

theorem Kept.ordinary {r : Option α} {b' : Buffer} {F : Forest}
    (h : Kept (fun _ _ => Forest.Ordinary) (fun _ => Forest.Ordinary) r b' F) : F.Ordinary := by
  cases r with
  | some a => exact h
  | none =>
    obtain ⟨b₀, F', R, rfl, before, report⟩ := h
    exact Forest.ordinary_append.mpr ⟨before, report.ordinary⟩

namespace Puts

variable {Q Q' : α → Buffer → Forest → Prop} {E E' : Buffer → Forest → Prop} {R : β → Buffer → Forest → Prop}

theorem mono (h : p.Puts b v Q E)
    (ok : ∀ a b' F, p.run b = .ok a b' → F.Lawful b'.tree.tokens → Q a b' F → Q' a b' F)
    (err : ∀ b' F, F.Lawful b'.tree.tokens → E b' F → E' b' F) : p.Puts b v Q' E' :=
  Ensures.mono h (fun a b' run h => h.mono fun F => ok a b' F run) fun b' h => h.mono (err b')

/-- A parser that does not fail. -/
theorem imp (h : p.Puts b v Q fun _ _ => False) (ok : ∀ a b' F, Q a b' F → Q' a b' F) : p.Puts b v Q' E' :=
  h.mono (fun a b' F _ _ => ok a b' F) fun _ _ _ never => never.elim

theorem pure {a : α} (h : b.Lawful v) (hQ : Q a b .nil) : (Pure.pure a : Parser α).Puts b v Q E :=
  Ensures.pure (Buffer.Gained.refl h hQ)

theorem fail {problem : Problem} (h : b.Lawful v) (hE : E b .nil) : (Parser.fail problem : Parser α).Puts b v Q E :=
  Ensures.fail (Buffer.Gained.refl h hE)

theorem ite {c : Prop} [Decidable c] (pos : c → p.Puts b v Q E) (neg : ¬ c → q.Puts b v Q E) :
    (if c then p else q).Puts b v Q E := Ensures.ite pos neg

/-- What follows adds to what is there, which may lose whitespace by that. -/
theorem bind (h : p.Puts b v Q E) (next : ∀ a b' w F, p.run b = .ok a b' → b'.Lawful w → v.Becomes F w → Q a b' F →
      (f a).Puts b' w (fun c b'' G => ∀ F', F'.Thins F → R c b'' (F' ++ G))
        fun b'' G => ∀ F', F'.Thins F → E' b'' (F' ++ G))
    (err : ∀ b' F, E b' F → E' b' F) : (p >>= f).Puts b v R E' := by
  rw [Puts, Ensures, run_bind]
  rw [Puts, Ensures] at h
  cases run : p.run b with
  | ok a b₁ =>
    rw [run] at h
    obtain ⟨w, F, lawful, becomes, hQ⟩ := h
    exact Ensures.mono (next a b₁ w F run lawful becomes hQ) (fun _ _ _ h' => .trans becomes h') fun _ h' => .trans becomes h'
  | error cause b₁ =>
    rw [run] at h
    exact h.mono fun F _ => err b₁ F
  | fault why =>
    rw [run] at h
    exact h

/-- A step that only looks. -/
theorem look {a : α} (run : p.run b = .ok a b) (h : (f a).Puts b v R E') : (p >>= f).Puts b v R E' := .after run h

theorem ask {γ : Type} {g : Buffer → γ} {f : γ → Parser β} (h : (f (g b)).Puts b v R E') :
    (Parser.ask g >>= f).Puts b v R E' := .after (run_ask g b) h

theorem map {g : α → β} (h : p.Puts b v (fun a => R (g a)) E) : (p >>= fun a => Pure.pure (g a)).Puts b v R E :=
  Ensures.bind h fun _ _ h' => .pure h'

/-- Trees that stand alone are not counted. -/
theorem aside {L : Forest} (h : p.Puts b { v with loose := L } Q E) : p.Puts b v Q E :=
  have gained {b' : Buffer} {Q : Forest → Prop} (h : b'.Gained { v with loose := L } Q) : b'.Gained v Q := by
    obtain ⟨w, F, lawful, becomes, hF⟩ := h
    exact ⟨w, F, lawful, ⟨becomes.inner, becomes.outer⟩, hF⟩
  Ensures.mono h (fun _ _ _ => gained) fun _ => gained

theorem limited (refused : b.isTooDeep = true → b.Lawful v ∧ E b .nil) (inside : p.Puts b v Q E) :
    (Parser.limited p).Puts b v Q E :=
  limited_ensures (fun deep => .refl (refused deep).1 (refused deep).2) fun _ => inside

end Puts

/-- What is put, by the kinds of the trees other than whitespace. -/
def PutsKinds (p : Parser α) (b : Buffer) (v : View) (Q : α → List TreeKind → Prop) (E : List TreeKind → Prop) : Prop :=
  p.Puts b v (fun a _ F => Q a F.solid) fun _ F => E F.solid

namespace PutsKinds

variable {Q Q' : α → List TreeKind → Prop} {E E' : List TreeKind → Prop} {R : β → List TreeKind → Prop}

theorem mono (h : p.PutsKinds b v Q E) (ok : ∀ a kinds, Q a kinds → Q' a kinds) (err : ∀ kinds, E kinds → E' kinds) :
    p.PutsKinds b v Q' E' := Puts.mono h (fun a _ F _ _ => ok a F.solid) fun _ F _ => err F.solid

theorem imp (h : p.PutsKinds b v Q fun _ => False) (ok : ∀ a kinds, Q a kinds → Q' a kinds) : p.PutsKinds b v Q' E' :=
  Puts.imp h fun a _ F => ok a F.solid

theorem bind (h : p.PutsKinds b v Q E) (next : ∀ a b' w kinds, p.run b = .ok a b' → b'.Lawful w → Q a kinds →
      (f a).PutsKinds b' w (fun c kinds' => R c (kinds ++ kinds')) fun kinds' => E' (kinds ++ kinds'))
    (err : ∀ kinds, E kinds → E' kinds) : (p >>= f).PutsKinds b v R E' :=
  Puts.bind h (fun a b' w F run lawful _ hQ => Puts.mono (next a b' w F.solid run lawful hQ)
    (fun _ _ _ _ _ hR F' thin => by rwa [Forest.solid_append, thin.solid_eq])
    fun _ _ _ hE F' thin => by rwa [Forest.solid_append, thin.solid_eq]) fun _ F => err F.solid

theorem pure {a : α} (h : b.Lawful v) (hQ : Q a []) : (Pure.pure a : Parser α).PutsKinds b v Q E := Puts.pure h hQ

theorem fail {problem : Problem} (h : b.Lawful v) (hE : E []) : (Parser.fail problem : Parser α).PutsKinds b v Q E :=
  Puts.fail h hE

theorem ite {c : Prop} [Decidable c] (pos : c → p.PutsKinds b v Q E) (neg : ¬ c → q.PutsKinds b v Q E) :
    (if c then p else q).PutsKinds b v Q E := Puts.ite pos neg

theorem ask {γ : Type} {g : Buffer → γ} {f : γ → Parser β} (h : (f (g b)).PutsKinds b v R E) :
    (Parser.ask g >>= f).PutsKinds b v R E := .after (run_ask g b) h

theorem map {g : α → β} (h : p.PutsKinds b v (fun a => R (g a)) E) : (p >>= fun a => Pure.pure (g a)).PutsKinds b v R E :=
  Puts.map h

end PutsKinds

/-! ### Tokens and reports -/

theorem run_shift_lawful (h : b.Lawful v) (next : b.hasNext = true) :
    ∃ b', shift.run b = .ok () b' ∧ b'.Lawful (v.grow (.leaf b.tree.size b.cursor .nil)) := by
  obtain ⟨b', run, shown⟩ := run_shift h.shown next
  exact ⟨b', run, h.grow (Steady.ok run) shown trivial⟩

/-- Tokens of a class are taken as they are. -/
theorem shiftWhile_lawful {E : Buffer → Prop} (kinds : Token → Bool) (h : b.Lawful v) :
    (shiftWhile kinds).Ensures b (fun _ b' => ∃ F, b'.Lawful (v.grow F) ∧ F.Ordinary) E := by
  refine (foldWhile_ensures (I := fun _ b' => ∃ F, b'.Lawful (v.grow F) ∧ F.Ordinary) (fun _ b₁ h₁ go => ?_)
    ⟨.nil, v.grow_nil.symm ▸ h, Forest.ordinary_nil⟩).mono (fun _ _ _ h' => h'.1) fun _ h' => h'
  obtain ⟨F, h₁, ordinary⟩ := h₁
  have next := (Bool.and_eq_true_iff.mp go).1
  obtain ⟨b₂, run, h₂⟩ := run_shift_lawful h₁ next
  rw [View.grow_grow] at h₂
  exact .of_ok run ⟨⟨_, h₂, Forest.ordinary_append.mpr ⟨ordinary, Forest.ordinary_leaf.mpr Forest.ordinary_nil⟩⟩,
    (Steady.ok run).remaining_lt h₂.shown (Eats.eats h₁.shown.ends next run)⟩

theorem recover_lawful {E : Buffer → Prop} (recovery : Recovery) (h : b.Lawful v) :
    (recover recovery).Ensures b (fun _ b' => ∃ F, b'.Lawful (v.grow F) ∧ F.Ordinary) E := by
  cases recovery with
  | statement => exact shiftWhile_lawful (!startsStatement ·) h
  | endOfText => exact shiftWhile_lawful (fun _ => true) h
  | none => exact .pure ⟨.nil, v.grow_nil.symm ▸ h, Forest.ordinary_nil⟩

/-- The token to come, if there is one. -/
theorem getElem?_cursor (h : b.Shows v) : b.tree.tokens[b.cursor]? = some b.current := by
  obtain ⟨last, found, -⟩ := h.ends
  have made : b.cursor < b.tree.tokens.size := Nat.lt_of_le_of_lt h.cursor (Array.getElem?_eq_some_iff.mp found).1
  rw [Buffer.current, Buffer.peek, Nat.add_zero, Nat.min_eq_left h.cursor, Array.getElem?_eq_getElem made]
  rfl

/-- The error node takes the token in the way and what the recovery takes. -/
theorem report_lawful {E : Buffer → Prop} (e : SyntaxError) (recovery : Recovery) (h : b.Lawful v) :
    (report e recovery).Ensures b (fun _ b' => ∃ R, b'.Lawful (v.grow R) ∧ R.Report b) E := by
  unfold report
  obtain ⟨b₁, run₁, shown₁⟩ := run_addError h.shown (markOf e)
  have leads₁ := Steady.ok run₁
  have empty : Forest.LawfulNode b.tree.tokens (.error (markOf e)) .nil := .of_ordinary rfl Forest.ordinary_nil
  obtain ⟨-, -, same, -⟩ := addError_ok run₁
  have ahead : b₁.hasNext = b.hasNext := by rw [Buffer.hasNext, Buffer.hasNext, leads₁.eof, same]
  refine .after run₁ (.after (run_hasNext b₁) (.ite (fun next => ?_) fun atEnd => ?_))
  · have pushed : (push b.tree.size).run b₁ = .ok () { b₁ with openNodes := b.tree.size :: b₁.openNodes } := rfl
    have lawful₂ := h.enter (leads₁.trans (Steady.ok pushed)) shown₁.opened
    obtain ⟨b₃, run₃, lawful₃⟩ := run_shift_lawful lawful₂ next
    refine .after pushed (.after run₃ ((recover_lawful recovery lawful₃).bind fun _ b₄ h₄ => ?_))
    obtain ⟨F, lawful₄, ordinary⟩ := h₄
    rw [View.grow_grow] at lawful₄
    have all : (Forest.leaf b₁.tree.size b₁.cursor .nil ++ F).Ordinary :=
      Forest.ordinary_append.mpr ⟨Forest.ordinary_leaf.mpr Forest.ordinary_nil, ordinary⟩
    obtain ⟨b₅, run₅, shown₅⟩ := run_pop lawful₄.shown (v.enter_names _ _)
    have lawful₅ := lawful₄.leave (Steady.ok run₅) shown₅ (.grow _ _) (.of_ordinary rfl all)
    rw [View.enter_grow_leave] at lawful₅
    refine .of_ok run₅ ⟨_, lawful₅, _, _, _, rfl, all, fun _ => ?_⟩
    exact same.symm ▸ getElem?_cursor h.shown
  · exact .pure ⟨_, h.grow leads₁ shown₁ ⟨empty, trivial, trivial⟩, _, _, _, rfl, Forest.ordinary_nil,
      fun next => absurd (ahead.trans next) atEnd⟩

/-! ### Scopes -/

namespace Puts

variable {Q : α → Buffer → Forest → Prop} {E : Buffer → Forest → Prop}

theorem recovering (recovery : Recovery) (h : p.Puts b v Q E) :
    (Parser.recovering recovery p).Puts b v (Kept Q E) fun _ _ => False := by
  unfold Parser.recovering
  refine ((Ensures.attempt h).mono (fun _ _ _ h₁ => h₁) fun _ never => never.elim).bind fun r b₁ h₁ => ?_
  cases r with
  | ok a => exact Ensures.pure h₁
  | error e =>
    obtain ⟨w, F, lawful, becomes, hE⟩ := h₁
    refine (report_lawful e recovery lawful).bind fun _ b₂ h₂ => .pure ?_
    obtain ⟨R, lawful', report⟩ := h₂
    exact ⟨_, F ++ R, lawful', becomes.trans_grow R, b₁, F, R, rfl, hE, report⟩

/-- A node is opened, and closed again when what runs inside it is over. It is a new last child. -/
theorem scope [Steady p] {kind : TreeKind} (recovery : Recovery) (h : b.Lawful v)
    (inside : ∀ b₁, b.Leads b₁ → b₁.cursor = b.cursor → b₁.Lawful (v.enter b.tree.size (.plain kind)) →
      E b₁ .nil ∧ p.Puts b₁ (v.enter b.tree.size (.plain kind)) Q E)
    (node : ∀ r b' F, Kept Q E r b' F → F.LawfulNode b.tree.tokens (.plain kind)) :
    (Parser.scope kind p recovery).Puts b v
      (fun c b' G => ∃ F b₁, G = .branch c.node (.plain kind) F .nil ∧ b₁.Leads b' ∧ Kept Q E c.value b₁ F)
      fun _ _ => False := by
  unfold Parser.scope
  obtain ⟨b₁, run₁, shown₁⟩ := run_openNode h.shown kind
  have leads₁ := Steady.ok run₁
  have lawful₁ := h.enter leads₁ shown₁
  obtain ⟨-, -, same, -⟩ := openNode_ok run₁
  obtain ⟨refused, body⟩ := inside b₁ leads₁ same lawful₁
  have caught := (Puts.limited (fun _ => ⟨lawful₁, refused⟩) body).recovering recovery
  refine .after run₁ (Ensures.bind (Ensures.mono caught (fun _ _ run h => And.intro run h) fun _ h => ?_) fun r b₂ h₂ => ?_)
  · obtain ⟨_, _, -, -, never⟩ := h
    exact never.elim
  obtain ⟨run₂, w, F, lawful₂, becomes, kept⟩ := h₂
  obtain ⟨b₃, run₃, shown₃⟩ := run_closeNode lawful₂.shown (becomes.names.trans (v.enter_names _ _))
  have tokens : b₂.tree.tokens = b.tree.tokens := (leads₁.trans (Steady.ok run₂)).tokens
  have lawful₃ := lawful₂.leave (Steady.ok run₃) shown₃ becomes (tokens ▸ node r b₂ F kept)
  exact .after run₃ (.pure ⟨_, _, lawful₃, becomes.leave, F, b₂, rfl, Steady.ok run₃, kept⟩)

end Puts

end Parser

/-! ### Documentation comments -/

/-- Documentation comments are whitespace. -/
theorem DocsOut.solid_eq {place : Option Label → Prop} {d : NodeId} {D : Forest} {spine spine' : List OpenNode}
    (h : DocsOut place d D spine spine') : D.solid = [] := by
  induction h with
  | here => rfl
  | deeper _ _ _ ih => exact ih

theorem DocsOut.lawful {place : Option Label → Prop} {d : NodeId} {D : Forest} {spine spine' : List OpenNode}
    {ts : Array Token} (h : DocsOut place d D spine spine') (all : ∀ n ∈ spine, n.children.Lawful ts) : D.Lawful ts := by
  induction h with
  | here children =>
    have whole := (List.forall_mem_cons.mp all).1
    rw [children] at whole
    exact .of_plug (Forest.lawful_append.mp (Forest.lawful_append.mp whole).1).2
  | deeper _ _ _ ih => exact ih (List.forall_mem_cons.mp all).2

namespace Parser

variable {α : Type} {b : Buffer} {v : View}

theorem adoptDocs_lawful {docs : Option NodeId} {E : Buffer → Prop} (h : b.Lawful v) (awaits : v.Awaits docs)
    (empty : v.inner.children = .nil) : (adoptDocs docs).Ensures b (fun _ b' => ∃ w D, b'.Lawful w ∧ v.Becomes D w ∧
      D.solid = [] ∧ w.loose = v.loose ∧ w.whole.items = v.whole.items) E := by
  cases docs with
  | none => exact .pure ⟨v, .nil, h, .refl v, rfl, rfl, rfl⟩
  | some d =>
    obtain ⟨D, spine, out⟩ := awaits d rfl
    obtain ⟨outer, b', rfl, run, shown, -, items⟩ := run_adoptDocs h.shown out empty
    have becomes : v.Becomes D (View.grow ⟨v.inner, outer, v.loose⟩ D) := .adopt out v.loose
    exact .of_ok run ⟨_, D, h.of_becomes (Steady.ok run) shown becomes (out.lawful h.open') h.loose, becomes, out.solid_eq,
      rfl, items⟩

theorem adoptDocs_puts {docs : Option NodeId} {E : List TreeKind → Prop} (h : b.Lawful v) (awaits : v.Awaits docs)
    (empty : v.inner.children = .nil) : (adoptDocs docs).PutsKinds b v (fun _ kinds => kinds = []) E :=
  (adoptDocs_lawful h awaits empty).mono (fun _ _ _ ⟨w, D, lawful, becomes, white, _⟩ => ⟨w, D, lawful, becomes, white⟩)
    fun _ hE => hE

/-- What is put, with the documentation comments that are handed on. -/
theorem Puts.awaiting {docs : α → Option NodeId} {p : Option NodeId → Parser α} {given : Option NodeId}
    {Q : α → Buffer → Forest → Prop} {E : Buffer → Forest → Prop} (h : b.Lawful v) (awaits : v.Awaits given)
    (passes : Passes docs p) (puts : (p given).Puts b v Q E) :
    (p given).Ensures b (fun a b' => ∃ w F, b'.Lawful w ∧ v.Becomes F w ∧ Q a b' F ∧ w.Awaits (docs a))
      fun b' => b'.Gained v (E b') :=
  (puts.and (passes h.shown awaits)).mono (fun _ _ _ ⟨⟨w, F, lawful, becomes, hQ⟩, ⟨_, shown, names, _, behind⟩⟩ =>
    ⟨w, F, lawful, becomes, hQ, behind.of_spine (shown.spine_unique lawful.shown (becomes.names.trans names.symm))⟩)
    fun _ both => both.1

/-- What follows takes the documentation comments that are handed on. -/
theorem Puts.bind_handing {β : Type} {p : Parser α} {f : α → Parser β} {docs : α → Option NodeId}
    (h : p.Ensures b (fun a b' => ∃ w F, b'.Lawful w ∧ v.Becomes F w ∧ F.Ordinary ∧ w.Awaits (docs a))
      fun b' => b'.Gained v Forest.Ordinary)
    (next : ∀ a b' w, b'.Lawful w → w.Awaits (docs a) →
      (f a).Puts b' w (fun _ _ => Forest.Ordinary) fun _ => Forest.Ordinary) :
    (p >>= f).Puts b v (fun _ _ => Forest.Ordinary) fun _ => Forest.Ordinary :=
  Ensures.bind h fun a b' ⟨w, _, lawful, becomes, before, awaits⟩ => Ensures.mono (next a b' w lawful awaits)
    (fun _ _ _ h' => h'.ordinary becomes before) fun _ h' => h'.ordinary becomes before

/-- Rounds that hand documentation comments on to each other. -/
theorem Puts.foldWhile_handing {more : Option NodeId → Buffer → Bool} {round : Option NodeId → Parser (Option NodeId)}
    [∀ given, Steady (round given)] [Advances more round]
    (puts : ∀ {b v given}, b.Lawful v → v.Awaits given → (round given).Ensures b
      (fun docs b' => ∃ w F, b'.Lawful w ∧ v.Becomes F w ∧ F.Ordinary ∧ w.Awaits docs) fun b' => b'.Gained v Forest.Ordinary)
    {docs : Option NodeId} (h : b.Lawful v) (awaits : v.Awaits docs) :
    (foldWhile more round docs).Puts b v (fun _ _ => Forest.Ordinary) fun _ => Forest.Ordinary := by
  refine Ensures.mono (foldWhile_shown (I := fun docs b' => ∃ w F, b'.Lawful w ∧ v.Becomes F w ∧ F.Ordinary ∧ w.Awaits docs)
    (fun ⟨w, _, lawful, _⟩ => ⟨w, lawful.shown⟩) (fun docs b₁ _ h₁ => ?_) ⟨v, .nil, h, .refl v, Forest.ordinary_nil, awaits⟩)
    (fun _ _ _ ⟨w, F, lawful, becomes, ordinary, _⟩ => ⟨w, F, lawful, becomes, ordinary⟩) fun _ hE => hE
  obtain ⟨w, F, lawful, becomes, before, awaits⟩ := h₁
  refine (puts lawful awaits).mono (fun _ b₂ _ ⟨u, G, lawful', becomes', behind, awaits'⟩ => ?_)
    fun _ h₂ => h₂.ordinary becomes before
  obtain ⟨F', thin, whole⟩ := becomes.trans becomes'
  exact ⟨u, _, lawful', whole, Forest.ordinary_append.mpr ⟨thin.ordinary before, behind⟩, awaits'⟩

end Parser

end SmithyIdl
