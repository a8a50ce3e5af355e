import SmithyIdl.Proofs.Buffer.Moves

/-! # Handing documentation comments on

Documentation comments that one parser read are adopted by a later one. In between they stay the last items of
the tree: the one hands them on (`Hands`), and nodes are opened and closed until the other, with its node still
empty, adopts them (`Adopts`) or hands them further (`Passes`). -/

namespace SmithyIdl

/-- The same nodes are open, the same trees stand alone, and the documentation comments end the tree. -/
def Buffer.ShowsDocs (b : Buffer) (v : View) (docs : Option NodeId) : Prop :=
  ∃ w, b.Shows w ∧ w.names = v.names ∧ w.loose = v.loose ∧ w.Awaits docs

namespace Buffer

variable {b : Buffer} {v w : View} {docs : Option NodeId}

theorem ShowsDocs.like (h : b.ShowsDocs v docs) : b.ShowsLike v := by
  obtain ⟨w, shown, names, loose, -⟩ := h
  exact ⟨w, shown, names, loose⟩

theorem ShowsDocs.trans (h : b.ShowsDocs w docs) (names : w.names = v.names) (loose : w.loose = v.loose) :
    b.ShowsDocs v docs := by
  obtain ⟨u, shown, hn, hl, awaits⟩ := h
  exact ⟨u, shown, hn.trans names, hl.trans loose, awaits⟩

theorem ShowsLike.docs_none (h : b.ShowsLike v) : b.ShowsDocs v none := by
  obtain ⟨w, shown, names, loose⟩ := h
  exact ⟨w, shown, names, loose, .none⟩

end Buffer

namespace Parser

variable {α β : Type} {p q : Parser α} {f : α → Parser β} {docs : α → Option NodeId} {docs' : β → Option NodeId}

/-- The documentation comments in the value of a parser end the tree. -/
class Hands (docs : α → Option NodeId) (p : Parser α) : Prop where
  hands : ∀ {b : Buffer} {v : View}, b.Shows v →
    p.Ensures b (fun a b' => b'.ShowsDocs v (docs a)) fun b' => b'.ShowsLike v

/-- In an empty node, given documentation comments that end the tree, a parser adopts them and hands others on. -/
def Adopts (docs : α → Option NodeId) (p : Option NodeId → Parser α) : Prop :=
  ∀ ⦃b : Buffer⦄ ⦃v : View⦄ ⦃given : Option NodeId⦄, b.Shows v → v.Awaits given → v.inner.children = .nil →
    (p given).Ensures b (fun a b' => b'.ShowsDocs v (docs a)) fun b' => b'.ShowsLike v

/-- Anywhere, given documentation comments that end the tree, a parser hands them or others on. -/
def Passes (docs : α → Option NodeId) (p : Option NodeId → Parser α) : Prop :=
  ∀ ⦃b : Buffer⦄ ⦃v : View⦄ ⦃given : Option NodeId⦄, b.Shows v → v.Awaits given →
    (p given).Ensures b (fun a b' => b'.ShowsDocs v (docs a)) fun b' => b'.ShowsLike v

theorem Passes.adopts {p : Option NodeId → Parser α} (h : Passes docs p) : Adopts docs p :=
  fun _ _ _ shown awaits _ => h shown awaits

namespace Hands

/-- Where nothing is handed on, nothing has to be known. -/
theorem pure {a : α} (h : docs a = none) : Hands docs (Pure.pure a) :=
  ⟨fun shown => .pure (h ▸ shown.like.docs_none)⟩

instance pure_none : Hands id (Pure.pure none : Parser (Option NodeId)) := pure rfl

instance fail (problem : Problem) : Hands docs (Parser.fail problem) := ⟨fun shown => .fail shown.like⟩

instance bind [Reshapes p] [∀ a, Hands docs' (f a)] : Hands docs' (p >>= f) where
  hands shown := (Reshapes.reshapes shown).bind fun a b' h => by
    obtain ⟨w, shown, names, loose⟩ := h
    exact (hands shown).mono (fun _ _ _ h' => h'.trans names loose) fun _ h' => h'.trans names loose

theorem seq [Reshapes p] (h : ∀ a, Hands docs' (f a)) : Hands docs' (p >>= f) := inferInstance

instance ite {c : Prop} [Decidable c] [Hands docs p] [Hands docs q] : Hands docs (if c then p else q) :=
  ⟨fun shown => .ite (fun _ => hands shown) fun _ => hands shown⟩

theorem map {g : α → β} (h : Hands (fun a => docs' (g a)) p) : Hands docs' (p >>= fun a => Pure.pure (g a)) :=
  ⟨fun shown => (h.hands shown).bind fun _ _ h' => .pure h'⟩

end Hands

/-- A scope hands on what its body does. -/
theorem scope_passes (kind : TreeKind) (recovery : Recovery) {p : Option NodeId → Parser α} (h : Adopts docs p) :
    Passes (fun c => c.value.bind docs) fun given => scope kind (p given) recovery := by
  intro b v given shown awaits
  have closed := scope_ensures (p := p given)
    (Q := fun a _ w => (v.enter b.tree.size (.plain kind)).Like w ∧ w.Awaits (docs a))
    (E := fun _ => (v.enter b.tree.size (.plain kind)).Like) recovery shown (fun hw => hw.1.1) And.left
    fun b₁ shown₁ _ => limited_ensures (fun _ => ⟨_, shown₁, rfl, rfl⟩) fun _ => by
      refine (h shown₁ (awaits.enter _ _) rfl).mono (fun a b₂ _ h₂ => ?_) fun b₂ h₂ => ?_
      · obtain ⟨w, shown₂, names, loose, awaits'⟩ := h₂
        exact ⟨w, shown₂, ⟨names, loose⟩, awaits'⟩
      · obtain ⟨w, shown₂, names, loose⟩ := h₂
        exact ⟨w, shown₂, names, loose⟩
  refine closed.mono (fun r b' _ h' => ?_) fun _ h' => h'.elim
  obtain ⟨node, value⟩ := r
  obtain ⟨-, _, w, -, shown', names, hw⟩ := h'
  cases value with
  | some a => exact ⟨w.leave, shown', names, w.leave_loose.trans hw.1.2, hw.2.leave fun _ => trivial⟩
  | none =>
    obtain ⟨_, u, F, -, -, hu, rfl⟩ := hw
    exact ⟨_, shown', names, (View.leave_loose _).trans hu.2, .none⟩

/-- Rounds that hand documentation comments on to each other. -/
theorem foldWhile_passes {more : Option NodeId → Buffer → Bool} {round : Option NodeId → Parser (Option NodeId)}
    [∀ given, Steady (round given)] [Advances more round] (h : Passes id round) :
    Passes id (foldWhile more round) := by
  intro b v given shown awaits
  refine foldWhile_shown (I := fun docs b' => b'.ShowsDocs v docs) (fun h' => ?_) (fun docs b₁ _ h₁ => ?_)
    ⟨v, shown, rfl, rfl, awaits⟩
  · obtain ⟨w, h', -⟩ := h'
    exact ⟨w, h'⟩
  · obtain ⟨w, shown₁, names, loose, awaits₁⟩ := h₁
    exact (h shown₁ awaits₁).mono (fun _ _ _ h₂ => h₂.trans names loose) fun _ h₂ => h₂.trans names loose

instance Hands.scope [h : Hands docs p] (kind : TreeKind) (recovery : Recovery) :
    Hands (fun c : Closed α => c.value.bind docs) (Parser.scope kind p recovery) where
  hands shown := scope_passes (p := fun _ => p) kind recovery (fun _ _ _ shown' _ _ => h.hands shown') shown
    (.none (v := _))

instance Hands.scope_join (p : Parser (Option NodeId)) [Hands id p] (kind : TreeKind) (recovery : Recovery) :
    Hands id (do return (← Parser.scope kind p recovery).value.join) :=
  .map (p := Parser.scope kind p recovery) (g := fun c => c.value.join) (Hands.scope kind recovery)

end Parser

end SmithyIdl
