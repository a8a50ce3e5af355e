import SmithyIdl.Proofs.Discipline.Obeys

/-! # Parts with errors

A value is steered by the count of errors: where it grew over a part, the value ends. As every error that is counted has
a node of its own, the count stays the same just where no error stands in the part. -/

namespace SmithyIdl

/-! ### Counting errors -/

/-- A new node that reports an error is counted. -/
theorem SyntaxTree.Extends.marks_lt {t t' : SyntaxTree} (h : t.Extends t') {i : NodeId} (new : t.size ≤ i) {mark : Mark}
    (found : t'.tag? i = some (.inr (.error mark))) : t.marks < t'.marks := by
  have made := lt_size_of_tag? found
  have split : List.range t'.size = List.range t.size ++ (List.range (t'.size - t.size)).map (t.size + ·) := by
    rw [← List.range_add, Nat.add_sub_cancel' h.size]
  have among : i ∈ (List.range (t'.size - t.size)).map (t.size + ·) :=
    List.mem_map.mpr ⟨i - t.size, List.mem_range.mpr (Nat.sub_lt_sub_right new made), Nat.add_sub_of_le new⟩
  have counted : 0 < ((List.range (t'.size - t.size)).map (t.size + ·)).countP t'.isMarked :=
    List.countP_pos_iff.mpr ⟨i, among, isMarked_iff.mpr ⟨mark, found⟩⟩
  calc t.marks
    _ < t.marks + ((List.range (t'.size - t.size)).map (t.size + ·)).countP t'.isMarked := Nat.lt_add_of_pos_right counted
    _ = t'.marks := by rw [← h.countP_marks, ← List.countP_append, ← split, marks]

theorem SyntaxTree.Holds.clean {t : SyntaxTree} {parent : Option NodeId} {F : Forest} (h : t.Holds parent F)
    (none : ∀ i ∈ F.ids, ∀ mark, t.tag? i ≠ some (.inr (.error mark))) : F.Clean := by
  induction F generalizing parent with
  | nil => trivial
  | leaf id token rest ih => exact ih h.2 fun i among => none i (List.mem_cons_of_mem _ among)
  | branch id label inner rest ihInner ihRest =>
    obtain ⟨⟨kept, node, -⟩, within, beside⟩ := h
    refine ⟨?_, ihInner within fun i among => none i (List.mem_cons_of_mem _ (List.mem_append_left _ among)),
      ihRest beside fun i among => none i (List.mem_cons_of_mem _ (List.mem_append_right _ among))⟩
    cases label with
    | plain kind => rfl
    | error mark =>
      refine absurd ?_ (none id List.mem_cons_self mark)
      rw [tag?, node]
      rfl

namespace Buffer

variable {b b' : Buffer} {v : View} {F G : Forest} {Q Q' : Forest → Prop}

/-- Names that are new stand in what was added. -/
theorem Shows.size_le_of_added (h : b.Shows v) (h' : b'.Shows (v.grow F)) {i : NodeId} (among : i ∈ F.ids) :
    b.tree.size ≤ i := by
  refine Nat.le_of_not_lt fun old => ?_
  have before : i ∈ v.whole.ids ++ v.loose.ids := h.ids.mem_iff.mpr (List.mem_range.mpr old)
  have nodup := (((v.ids_grow F).append_right _).nodup_iff.mp h'.nodup)
  have swap : (v.whole.ids ++ F.ids ++ v.loose.ids).Perm (v.whole.ids ++ v.loose.ids ++ F.ids) := by
    rw [List.append_assoc, List.append_assoc]
    exact List.perm_append_comm.append_left _
  exact (List.nodup_append.mp (swap.nodup_iff.mp nodup)).2.2 i before i among rfl

/-- Where no error was counted, none was added. -/
theorem Shows.clean (h : b.Shows v) (h' : b'.Shows (v.grow F)) (leads : b.Leads b') (same : b'.errors = b.errors) :
    F.Clean := by
  have placed : b'.tree.Holds none (Forest.plug v.frames F) := View.whole_grow v F ▸ h'.placed
  refine SyntaxTree.Holds.clean (SyntaxTree.Holds.focus placed) fun i among mark found => ?_
  have more := leads.tree.marks_lt (h.size_le_of_added h' among) found
  have counted := leads.counted
  omega

/-! ### What was added -/

/-- Lawful trees of which `Q` holds were added below the innermost node, and nothing was moved. -/
def Grown (b : Buffer) (v : View) (Q : Forest → Prop) : Prop := ∃ F, b.Lawful (v.grow F) ∧ Q F

namespace Grown

theorem refl (h : b.Lawful v) (hQ : Q .nil) : b.Grown v Q := ⟨.nil, v.grow_nil.symm ▸ h, hQ⟩

theorem trans (h : b.Grown (v.grow F) Q) (append : ∀ G, Q G → Q' (F ++ G)) : b.Grown v Q' := by
  obtain ⟨G, lawful, hG⟩ := h
  exact ⟨F ++ G, v.grow_grow F G ▸ lawful, append G hG⟩

theorem gained (h : b.Grown v Q) : b.Gained v Q := by
  obtain ⟨F, lawful, hF⟩ := h
  exact .grow lawful hF

end Grown

/-- Where nothing was moved, the trees that were added are those that the buffer shows. -/
theorem Gained.lawful (h : b.Lawful v) (leads : b.Leads b') (gained : b'.Gained v Q) (shown : b'.Shows (v.grow G)) :
    b'.Lawful (v.grow G) ∧ ∃ F, F.solid = G.solid ∧ Q F := by
  obtain ⟨w, F, lawful, becomes, hF⟩ := gained
  have spine := shown.spine_unique lawful.shown becomes.names
  refine ⟨⟨shown, spine ▸ lawful.open', leads.tokens ▸ h.loose⟩, F, ?_, hF⟩
  obtain ⟨⟨n, thin, inner⟩, -⟩ := becomes
  obtain ⟨here, -⟩ := List.cons.inj spine
  have children := congrArg (fun n => n.children.solid) (inner.symm.trans here)
  simp only [View.grow, Forest.solid_append, thin.children.solid_eq] at children
  exact List.append_cancel_left children

end Buffer

namespace Parser

variable {α : Type} {p : Parser α} {b : Buffer} {v : View}

/-- What is put without moving anything. -/
theorem Puts.grown [Grows p] {Q : α → Buffer → Forest → Prop} {E : Buffer → Forest → Prop} (h : b.Lawful v)
    (puts : p.Puts b v Q E) (ok : ∀ a b' F G, F.solid = G.solid → Q a b' F → Q a b' G)
    (err : ∀ b' F G, F.solid = G.solid → E b' F → E b' G) :
    p.Ensures b (fun a b' => b'.Grown v (Q a b')) fun b' => b'.Grown v (E b') :=
  (Ensures.and puts (Grows.grows h.shown)).leads_either.mono
    (fun a b' _ ⟨leads, gained, G, shown⟩ =>
      have ⟨lawful, F, same, hF⟩ := gained.lawful h leads shown
      ⟨G, lawful, ok a b' F G same hF⟩)
    fun b' ⟨leads, gained, G, shown⟩ =>
      have ⟨lawful, F, same, hF⟩ := gained.lawful h leads shown
      ⟨G, lawful, err b' F G same hF⟩

/-! ### Parts -/

/-- One tree is added, with an error in it only if the count of errors grew. -/
class Part (p : Parser Unit) : Prop extends Obeys p where
  part : ∀ {b : Buffer} {v : View}, b.Lawful v → p.Ensures b (fun _ b' => b'.Grown v fun F => ∃ i kind J,
    F = .branch i (.plain kind) J .nil ∧ kind.isUnruled = true ∧ (b'.errors = b.errors → J.Clean)) fun _ => False

theorem Part.of_scope {kind : TreeKind} {body : Parser Unit} [Grows body] (free : kind.isUnruled = true)
    (node : ∀ {b : Buffer} {v : View}, b.Lawful v →
      (scope kind body).Puts b v (fun c _ G => ∃ F, G = .branch c.node (.plain kind) F .nil) fun _ _ => False) :
    Part (within kind body) where
  toObeys := .of_scope free node
  part {b v} h := by
    unfold within
    refine Ensures.bind (Ensures.mono (Ensures.and (node h) (scope_grows (p := body) h.shown)).leads_either
      (fun c b' _ both => ?_) fun _ never => never.2.2) fun _ _ h' => .pure h'
    obtain ⟨leads, gained, J, shown⟩ := both
    exact ⟨_, (gained.lawful h leads shown).1, c.node, kind, J, rfl, free, fun same =>
      (h.shown.clean shown leads same).2.1⟩

instance Part.within (kind : TreeKind) [TreeKind.Computed kind.isFree] [free : TreeKind.Computed kind.isUnruled]
    (body : Parser Unit) [Obeys body] [Grows body] : Part (Parser.within kind body) :=
  .of_scope free.holds (Obeys.scope_node kind .statement)

end Parser

/-! ### Values -/

namespace Forest

/-- No trees but tokens and whitespace. -/
def Bland (F : Forest) : Prop := ∀ kind ∈ F.solid, kind = .token

/-- What stands in a value: behind a part that has an error in it nothing. If all is sound, no part has one. -/
structure Parted (kind : TreeKind) (sound : Bool) (F : Forest) : Prop where
  ordinary : F.Ordinary
  ends : F.EndsBroken kind.parts
  unbroken : sound = true → F.Unbroken kind.parts

variable {kind : TreeKind} {F G : Forest} {sound : Bool}

theorem Bland.of_solid (h : F.Bland) (same : F.solid = G.solid) : G.Bland := fun kind among => h kind (same ▸ among)

theorem Bland.of_none (none : F.solid = []) : F.Bland := by simp [Bland, none]

theorem Bland.ordinary (h : F.Bland) : F.Ordinary := fun kind among => h kind among ▸ rfl

theorem Bland.unbroken (h : F.Bland) : F.Unbroken kind.parts :=
  unbroken_of_solid kind.not_mem_parts.1 fun _ among => h _ among ▸ kind.not_mem_parts.2.1

namespace Parted

theorem of_unbroken (ordinary : F.Ordinary) (unbroken : F.Unbroken kind.parts) : F.Parted kind sound :=
  ⟨ordinary, unbroken.endsBroken, fun _ => unbroken⟩

theorem of_bland (h : F.Bland) : F.Parted kind sound := of_unbroken h.ordinary h.unbroken

theorem behind (h : G.Parted kind sound) (before : F.Parted kind true) : (F ++ G).Parted kind sound :=
  ⟨ordinary_append.mpr ⟨before.ordinary, h.ordinary⟩, (before.unbroken rfl).append_endsBroken h.ends,
    fun all => unbroken_append.mpr ⟨before.unbroken rfl, h.unbroken all⟩⟩

theorem forget (h : F.Parted kind sound) : F.Parted kind false := ⟨h.ordinary, h.ends, nofun⟩

end Parted

end Forest

namespace Parser

variable {α β : Type} {p : Parser α} {f : α → Parser β} {b : Buffer} {v : View} {kind : TreeKind} {sound : α → Bool}

/-- What `p` adds has at most a last part with an error in it. It has none where `p` fails, or says that all is
sound. -/
def PutsParts (p : Parser α) (kind : TreeKind) (sound : α → Bool) (b : Buffer) (v : View) : Prop :=
  p.Ensures b (fun a b' => b'.Grown v (·.Parted kind (sound a))) fun b' => b'.Grown v (·.Parted kind true)

namespace PutsParts

theorem of_bland [Grows p] (h : b.Lawful v)
    (puts : p.Puts b v (fun _ _ => Forest.Bland) fun _ => Forest.Bland) : p.PutsParts kind sound b v :=
  (puts.grown h (fun _ _ _ _ same bland => bland.of_solid same) fun _ _ _ same bland => bland.of_solid same).mono
    (fun _ _ _ ⟨F, lawful, bland⟩ => ⟨F, lawful, .of_bland bland⟩) fun _ ⟨F, lawful, bland⟩ => ⟨F, lawful, .of_bland bland⟩

theorem bind {said : β → Bool} (h : p.PutsParts kind (fun _ => true) b v)
    (next : ∀ a b' w, b'.Lawful w → (f a).PutsParts kind said b' w) : (p >>= f).PutsParts kind said b v :=
  Ensures.bind h fun a b' ⟨_, lawful, first⟩ => (next a b' _ lawful).mono
    (fun _ _ _ h' => h'.trans fun _ second => second.behind first) fun _ h' => h'.trans fun _ second => second.behind first

/-- Where something is not sound, nothing follows. -/
theorem whenSound {q : Parser Bool} {rest : Parser Unit} (h : q.PutsParts kind id b v)
    (next : ∀ b' w, b'.Lawful w → rest.PutsParts kind (fun _ => false) b' w) :
    (do if ← q then rest).PutsParts kind (fun _ => false) b v :=
  Ensures.bind h fun sound b' ⟨F, lawful, first⟩ => .ite
    (fun all => (next b' _ lawful).mono (fun _ _ _ h' => h'.trans fun _ second => second.behind (by rwa [id, all] at first))
      fun _ h' => h'.trans fun _ second => second.behind (by rwa [id, all] at first))
    fun _ => .pure ⟨F, lawful, first.forget⟩

theorem forgotten (h : p.PutsParts kind sound b v) : p.PutsParts kind (fun _ => false) b v :=
  h.mono (fun _ _ _ ⟨F, lawful, parted⟩ => ⟨F, lawful, parted.forget⟩) fun _ h' => h'

/-- A value may end in a part that has an error in it, or in the report of its own failure. -/
theorem scope_node [Steady p] (notRun : kind ≠ .traitStatements)
    (body : ∀ {b v}, b.Lawful v → p.PutsParts kind (fun _ => false) b v) (h : b.Lawful v) :
    (Parser.scope kind p).Puts b v (fun c _ G => ∃ F, G = .branch c.node (.plain kind) F .nil) fun _ _ => False := by
  have run : Label.plain kind ≠ .plain .traitStatements := by simpa using notRun
  refine (Puts.scope .statement h (Q := fun _ _ F => F.Parted kind false) (E := fun _ F => F.Parted kind true)
    (fun b₁ _ _ lawful => ⟨.of_bland (.of_none rfl), ?_⟩) fun r b' F kept => ?_).imp
      fun _ _ _ ⟨F, _, same, _⟩ => ⟨F, same⟩
  · exact (body lawful).mono (fun _ _ _ h' => h'.gained) fun _ h' => h'.gained
  · cases r with
    | some a =>
      have parted : F.Parted kind false := kept
      exact .of_parts parted.ordinary run parted.ends
    | none =>
      obtain ⟨b₀, F', R, rfl, before, report⟩ := kept
      have none : R.Unbroken kind.parts :=
        Forest.unbroken_of_solid kind.not_mem_parts.1 fun sort among => by
          rw [report.solid, List.mem_singleton] at among
          exact among ▸ kind.not_mem_parts.2.2
      have all : (F' ++ R).Parted kind true := (Forest.Parted.of_unbroken report.ordinary none).behind before
      exact .of_parts all.ordinary run all.ends

/-- A value is a part. -/
theorem part {body : Parser Unit} [Grows body] (free : kind.isUnruled = true)
    (notRun : kind ≠ .traitStatements) (puts : ∀ {b v}, b.Lawful v → body.PutsParts kind (fun _ => false) b v) :
    Part (Parser.within kind body) :=
  .of_scope free (scope_node notRun puts)

end PutsParts

end Parser

end SmithyIdl
