import SmithyIdl.Proofs.Discipline.Parts
import SmithyIdl.Proofs.Grammar.Values

/-! # Lawful values and traits

A value ends at once behind a part that has an error in it. Runs of traits begin with their sign. -/

set_option synthInstance.maxSize 2000

namespace SmithyIdl.Grammar

open SmithyIdl.Parser

variable {b : Buffer} {v : View} {kind : TreeKind}

/-! ### Whitespace -/

instance spaces_obeys : Obeys spaces := by
  unfold spaces
  infer_instance

instance someSpaces_obeys : Obeys someSpaces := by
  unfold someSpaces
  infer_instance

instance whitespace_obeys : Obeys whitespace := by
  unfold whitespace
  infer_instance

instance someWhitespace_obeys : Obeys someWhitespace := by
  unfold someWhitespace
  infer_instance

instance docComments_obeys : Obeys docComments := by
  unfold docComments
  infer_instance

instance whitespaceUpToDocs_obeys : Obeys whitespaceUpToDocs := by
  unfold whitespaceUpToDocs
  infer_instance

instance breakLine_obeys : Obeys breakLine := by
  unfold breakLine
  infer_instance

instance endLine_obeys : Obeys endLine := by
  unfold endLine
  refine Obeys.seq fun _ => Obeys.seq fun token => ?_
  split <;> infer_instance

/-- A node of whitespace is none of those that count. -/
theorem scope_whitespace_bland {α : Type} {p : Parser α} [Obeys p] (h : b.Lawful v) :
    (scope .whitespace p).PutsKinds b v (fun _ kinds => kinds = []) fun _ => False :=
  (Obeys.scope_node .whitespace .statement h).imp fun _ _ _ ⟨_, same⟩ => same ▸ rfl

theorem within_whitespace_bland {body : Parser Unit} [Obeys body] (h : b.Lawful v) :
    (within .whitespace body).PutsKinds b v (fun _ kinds => kinds = []) fun _ => False := by
  unfold within
  exact .map (scope_whitespace_bland h)

theorem whitespace_bland (h : b.Lawful v) : whitespace.PutsKinds b v (fun _ kinds => kinds = []) fun _ => False := by
  unfold whitespace
  exact .ask (.ite (fun _ => within_whitespace_bland h) fun _ => .pure h rfl)

/-! ### Shape ids and keywords -/

instance keyword_obeys : Obeys keyword := by
  unfold keyword
  infer_instance

instance namespacePart_obeys : Obeys namespacePart := by
  unfold namespacePart
  infer_instance

instance namespaceId_obeys : Obeys namespaceId := by
  unfold namespaceId
  have : NeedsNext fun (_ : Unit) b => b.isAt .dot := needsNext_isAt (by decide)
  infer_instance

instance idMember_obeys : Obeys idMember := by
  unfold idMember
  infer_instance

instance shapeId_obeys (allowMember : Bool) : Obeys (shapeId allowMember) := by
  dsimp only [shapeId]
  infer_instance

instance absoluteShapeId_obeys : Obeys absoluteShapeId := by
  unfold absoluteShapeId
  infer_instance

/-! ### Parts and brackets -/

instance soundly_obeys (part : Parser Unit) [Obeys part] : Obeys (soundly part) := by
  unfold soundly
  infer_instance

theorem next_bland (h : b.Lawful v) : next.Puts b v (fun _ _ => Forest.Bland) fun _ => Forest.Bland := by
  unfold next
  refine .look (run_hasNext b) (.ite (fun next => .ask ?_) fun _ => .fail h (.of_none rfl))
  obtain ⟨b', run, lawful⟩ := run_shift_lawful h next
  exact .after run (.pure (.grow lawful (by simp [Forest.Bland])))

theorem consumeAny_parts (h : b.Lawful v) : consumeAny.PutsParts kind (fun _ => true) b v :=
  .of_bland h (next_bland h).map

theorem consume_parts {token : TokenKind} (h : b.Lawful v) : (consume token).PutsParts kind (fun _ => true) b v :=
  .of_bland h (.looks h (fun _ _ => (next_bland h).map) (.of_none rfl))

theorem whitespace_parts (h : b.Lawful v) : whitespace.PutsParts kind (fun _ => true) b v :=
  .of_bland h (Puts.imp (whitespace_bland h) fun _ _ _ none => .of_none none)

/-- Behind a part that has an error in it nothing more is taken. -/
theorem soundly_parts {part : Parser Unit} [Part part] (h : b.Lawful v) : (soundly part).PutsParts kind id b v := by
  unfold soundly
  refine .after (run_ask Buffer.errors b) (((Part.part h).leads.mono (fun _ _ _ h₁ => h₁) fun _ never => never.elim).bind
    fun _ b₁ h₁ => .after (run_ask Buffer.errors b₁) ?_)
  obtain ⟨leads, F, lawful, i, sort, J, rfl, free, clean⟩ := h₁
  have ordinary : (Forest.branch i (.plain sort) J .nil).Ordinary := Forest.ordinary_branch free
  refine .ite (fun more => .pure ⟨_, lawful, ordinary, ⟨fun _ _ => rfl, trivial⟩, nofun⟩) fun same => ?_
  have sound : (Forest.branch i (.plain sort) J .nil).Parted kind true :=
    .of_unbroken ordinary ⟨fun _ => clean (Nat.le_antisymm (Nat.le_of_not_lt same) leads.errors), trivial⟩
  have space : whitespace.PutsParts kind (fun _ => true) b₁ _ := whitespace_parts lawful
  exact (space.mono (fun _ _ _ h₂ => h₂.trans fun _ parted => parted.behind sound)
    fun _ h₂ => h₂.trans fun _ parted => parted.behind sound).bind fun _ _ h₂ => .pure h₂

theorem partsUntil_parts (closing : TokenKind) {part : Parser Unit} [Part part] [Grows part] [Eats part]
    (h : b.Lawful v) : (partsUntil closing part).PutsParts kind id b v := by
  unfold partsUntil
  refine (foldWhile_ensures (I := fun sound b' => b'.Grown v (·.Parted kind sound)) (fun sound b₁ h₁ go => ?_)
    (.refl h (.of_bland (.of_none rfl)))).mono (fun _ _ _ h' => h'.1) fun _ h' => h'
  obtain ⟨F, lawful, parted⟩ := h₁
  obtain ⟨more, -⟩ := Bool.and_eq_true_iff.mp go
  obtain ⟨rfl, next⟩ := Bool.and_eq_true_iff.mp more
  refine (soundly_parts lawful).mono (fun _ b₂ run h₂ => ?_) fun _ h₂ => h₂.trans fun G parted' => parted'.behind parted
  obtain ⟨G, lawful₂, -⟩ := id h₂
  exact ⟨h₂.trans fun G parted' => parted'.behind parted,
    (Steady.ok run).remaining_lt lawful₂.shown (Eats.eats lawful.shown.ends next run)⟩

/-- The opening bracket and the whitespace behind it. -/
theorem opened_parts {rest : Parser Unit}
    (parts : ∀ {b v}, b.Lawful v → rest.PutsParts kind (fun _ => false) b v) (h : b.Lawful v) :
    (do
      consumeAny
      whitespace
      rest).PutsParts kind (fun _ => false) b v :=
  (consumeAny_parts h).bind fun _ _ _ h₁ => (whitespace_parts h₁).bind fun _ _ _ h₂ => parts h₂

/-- Behind a broken part the closing bracket is not taken. -/
theorem closed_parts {q : Parser Bool} {closing : TokenKind} (h : q.PutsParts kind id b v) :
    (do if ← q then consume closing).PutsParts kind (fun _ => false) b v :=
  h.whenSound fun _ _ h' => (consume_parts h').forgotten

/-! ### Node values -/

instance objectKey_obeys : Obeys objectKey := by
  unfold objectKey
  infer_instance

section
variable (value : Parser Unit) [Grows value]

instance entryOf_obeys [Obeys value] : Obeys (entryOf value) := by
  unfold entryOf
  infer_instance

instance objectEntry_part [Obeys value] : Part (objectEntry value) := by
  unfold objectEntry
  infer_instance

instance objectOf_part [Obeys value] : Part (objectOf value) := by
  unfold objectOf
  exact PutsParts.part rfl nofun (opened_parts fun h => closed_parts (partsUntil_parts .rbrace h))

instance arrayOf_part [Part value] [Eats value] : Part (arrayOf value) := by
  unfold arrayOf
  exact PutsParts.part rfl nofun (opened_parts fun h => closed_parts (partsUntil_parts .rbracket h))

instance valueFrom_obeys [Part value] [Eats value] (first : TokenKind) : Obeys (valueFrom value first) := by
  unfold valueFrom
  split <;> infer_instance

instance valueBody_obeys [Part value] [Eats value] : Obeys (valueBody value) := by
  unfold valueBody
  infer_instance

end

/-- The values in a value are parts of it. -/
instance nodeValueWithin_part (n : Nat) : Part (nodeValueWithin n) := by
  induction n with
  | zero =>
    unfold nodeValueWithin
    infer_instance
  | succ n ih =>
    unfold nodeValueWithin
    infer_instance

instance nodeValue_obeys : Obeys nodeValue := by
  unfold nodeValue
  infer_instance

instance entry_obeys : Obeys entry := by
  unfold entry
  infer_instance

instance nodeObject_obeys : Obeys nodeObject := by
  unfold nodeObject
  infer_instance

/-! ### Traits -/

instance traitEntry_part : Part traitEntry := by
  unfold traitEntry
  infer_instance

instance traitStructure_part : Part traitStructure := by
  unfold traitStructure
  exact PutsParts.part rfl nofun fun h => Ensures.bind (partsUntil_parts .rparen h).forgotten fun _ _ h' => .pure h'

instance traitValue_part : Part traitValue := by
  unfold traitValue
  exact { part := fun h => .after (run_ask _ _) (.ite (fun _ => Part.part h) fun _ => Part.part h) }

instance traitBody_part : Part traitBody := by
  dsimp only [traitBody]
  refine PutsParts.part rfl nofun (opened_parts fun h => .after (run_ask _ _) (.ite (fun _ => ?_) fun _ => ?_))
  · rw [pure_bind, if_pos rfl]
    exact (consume_parts h).forgotten
  · exact closed_parts (soundly_parts h)

instance traitStatement_obeys : Obeys traitStatement := by
  unfold traitStatement
  infer_instance

instance nextTrait_obeys : Obeys nextTrait := by
  unfold nextTrait
  infer_instance

/-! ### Runs of traits -/

/-- The first trait of a run begins with its sign. -/
theorem nextTrait_begins {ts : Array Token} {first : Token} (h : b.Lawful v) (awaits : b.Awaits ts first) :
    nextTrait.Begins ts first b v := by
  unfold nextTrait traitStatement
  refine Begins.bind (Begins.looks h awaits fun _ => Puts.map ?_)
  refine (Begins.scope h awaits (fun b₁ w awaits₁ lawful => Begins.bind (.consumeAny lawful awaits₁))
    fun F ordinary _ => .of_ordinary rfl ordinary).imp fun _ _ _ ⟨F, same, leads⟩ => ?_
  subst same
  exact ⟨Forest.ordinary_branch rfl, by simp, leads⟩

theorem traitStatements_puts (h : b.Lawful v) :
    traitStatements.Puts b v (fun traits _ F => F.TraitRun b.tree.tokens traits) fun _ _ => False := by
  unfold traitStatements
  have : NeedsNext fun (_ : Unit) b => b.isAt .atSign := needsNext_isAt (by decide)
  refine .ask (.ite (fun here => .map ?_) fun _ => .pure h rfl)
  have awaits : b.Awaits b.tree.tokens b.current := ⟨rfl, h.shown.ends.hasNext_of_isAt here (by decide), rfl⟩
  have sign : b.current.kind = .atSign := of_decide_eq_true here
  have node (F : Forest) (ordinary : F.Ordinary) (leads : F.Leads b.tree.tokens b.current) :
      F.LawfulNode b.tree.tokens (.plain .traitStatements) :=
    .of_unruled ordinary (fun _ => ⟨_, leads, sign⟩) Forest.endsBroken_none
  refine (Begins.scope h awaits (fun b₁ w awaits₁ lawful => ?_) node).imp
      fun _ _ _ ⟨F, same, leads⟩ => ⟨F, _, same, leads, sign⟩
  refine .foldWhile lawful ?_ (nextTrait_begins lawful awaits₁)
  exact decide_eq_true (awaits₁.current.symm ▸ sign)

end SmithyIdl.Grammar
