import SmithyIdl.Proofs.Discipline.Members
import SmithyIdl.Proofs.Grammar.Shapes

/-! # Lawful shapes

A list has one member at most, a map a key and a value in this order, and an operation each of its properties once. -/

set_option synthInstance.maxSize 2000

namespace SmithyIdl.Grammar

open SmithyIdl.Parser

variable {b : Buffer} {v : View}

/-! ### Heads of shapes -/

instance typedName_obeys : Obeys typedName := by
  unfold typedName
  infer_instance

instance mixin_obeys : Obeys mixin := by
  unfold mixin
  infer_instance

instance mixinList_obeys : Obeys mixinList := by
  unfold mixinList
  infer_instance

instance mixins_obeys : Obeys mixins := by
  unfold mixins
  infer_instance

instance structureResource_obeys : Obeys structureResource := by
  unfold structureResource
  infer_instance

instance headUpToBrace_obeys : Obeys headUpToBrace := by
  unfold headUpToBrace
  infer_instance

/-! ### Shapes with members -/

theorem braced_obeys_of {kind : TreeKind} {contents : Parser Unit} [Steady contents] (free : kind.isFree = true)
    (unruled : kind.isUnruled = true) (h : contents.Fills kind) : Obeys (braced kind contents) := by
  unfold braced
  exact Fills.within free unruled (.behind fun _ => .behind fun _ => .before h)

instance braced_obeys (kind : TreeKind) [TreeKind.Computed kind.isFree] [TreeKind.Computed kind.isUnruled]
    (contents : Parser Unit) [Obeys contents] : Obeys (braced kind contents) := by
  unfold braced
  infer_instance

instance enumStatement_obeys : Obeys enumStatement := by
  unfold enumStatement
  infer_instance

instance memberBlock_obeys (container wrapper : TreeKind) (slot : MemberSlot) [TreeKind.Computed container.isFree]
    [TreeKind.Computed container.isUnruled] [Obeys (membersOf wrapper (blockMember slot))] :
    Obeys (memberBlock container wrapper slot) := by
  unfold memberBlock
  infer_instance

instance structureRest_obeys : Obeys structureRest := by
  unfold structureRest
  infer_instance

instance structureStatement_obeys : Obeys structureStatement := by
  unfold structureStatement
  infer_instance

instance unionStatement_obeys : Obeys unionStatement := by
  unfold unionStatement
  infer_instance

/-! ### Lists -/

theorem fits_list {d : NodeId} {F : Forest} : (Forest.branch d (.plain .listMember) F .nil).Fits .listMembers := by
  have ruled : (Forest.branch d (.plain .listMember) F .nil).ruled = [.listMember] := Forest.ruled_branch rfl
  have none : (Forest.branch d (.plain .listMember) F .nil).inside .shapeMember = [] := Forest.inside_branch_of_ne nofun
  exact ⟨by simp [ruled], by simp [none], fun _ => by simp [ruled], nofun, nofun, by simp [ruled]⟩

theorem listMember_fills : (within .listMember do let _ ← shapeMember .inList none).Fills .listMembers := fun b v h => by
  unfold within
  have free : TreeKind.listMember.isFree = true := rfl
  have node := Fills.scope_of (p := do let _ ← shapeMember .inList none) free .statement h
    fun _ _ lawful => .map ((shapeMember_puts .inList lawful .none).imp
      fun _ _ _ row => fits_wrapper (by decide) (by decide) row)
  exact .map (node.imp fun _ _ _ ⟨_, same⟩ => same ▸ fits_list)

instance listStatement_obeys : Obeys listStatement := by
  unfold listStatement
  have : Obeys (braced .listMembers do
      if ← ask beforeBrace then
        within .listMember do let _ ← shapeMember .inList none
      whitespace) :=
    braced_obeys_of rfl rfl (.behind fun _ => .ite (.before listMember_fills) .of_obeys)
  infer_instance

/-! ### Maps -/

theorem MemberSlot.Names.of_mapFirst {name : String} {kind : TreeKind} (h : MemberSlot.mapFirst.Names name kind) :
    name = "value" ∧ kind ∈ TreeKind.mapValues ∨ name ≠ "value" ∧ kind ∈ TreeKind.mapKeys := by
  obtain ⟨explicit, elided, found, here⟩ := h
  unfold MemberSlot.kindsOf at found
  by_cases key : name = "key"
  · subst key
    cases found
    rcases here with rfl | rfl <;> exact .inr (by decide)
  · by_cases value : name = "value"
    · subst value
      cases found
      rcases here with rfl | rfl <;> exact .inl (by decide)
    · simp [key, value] at found

theorem MemberSlot.Names.of_mapSecond {name : String} {kind : TreeKind} (h : MemberSlot.mapSecond.Names name kind) :
    kind ∈ TreeKind.mapValues := by
  obtain ⟨explicit, elided, found, here⟩ := h
  unfold MemberSlot.kindsOf at found
  by_cases value : name = "value"
  · subst value
    cases found
    rcases here with rfl | rfl <;> decide
  · simp [value] at found

theorem IsMember.thins {slot : MemberSlot} {read : Option Member} {F G : Forest} (h : IsMember slot read F)
    (thin : G.Thins F) : IsMember slot read G := by
  obtain ⟨solid, row, inside, member⟩ := h
  exact ⟨thin.solid_eq.trans solid, row, (thin.inside_eq (by decide)).trans inside, member⟩

/-- The members of a map have no values. -/
theorem fits_map {F : Forest} (ruled : ∀ kind ∈ F.solid, kind = .shapeMember)
    (value : ∀ m ∈ F.inside .shapeMember, .valueAssignment ∉ m) (rows : Forest.MapRows (F.inside .shapeMember)) :
    F.Fits .mapMembers := by
  have none {kind : TreeKind} (other : kind ≠ .shapeMember) : kind ∉ F.ruled := fun among =>
    other (ruled kind (List.mem_filter.mp among).1)
  exact ⟨fun among => absurd among (none (by decide)), fun m among has => absurd has (value m among), nofun,
    fun _ => rows, nofun, fun among => absurd among (none (by decide))⟩

theorem fits_map_first {first : Option Member} {F : Forest} (h : IsMember .mapFirst first F) : F.Fits .mapMembers := by
  obtain ⟨solid, row, inside, member⟩ := h
  refine fits_map (by simp [solid]) ?_ ?_
  · rw [inside, List.forall_mem_singleton]
    exact fun has => absurd (member.value has) (by decide)
  · rw [inside]
    intro kind among
    obtain ⟨name, names, -⟩ := member.target kind among
    exact names.of_mapFirst.elim (fun value => .inr value.2) fun key => .inl key.2

/-- Behind a first member that is no value stands a value, if anything. -/
theorem fits_map_both {first : Member} {second : Option Member} {F G : Forest} (h : IsMember .mapFirst (some first) F)
    (key : first.name ≠ "value") (h' : IsMember .mapSecond second G) : (F ++ G).Fits .mapMembers := by
  obtain ⟨solid, row, inside, member⟩ := h
  obtain ⟨solid', row', inside', member'⟩ := h'
  have keys {kind : TreeKind} (names : MemberSlot.mapFirst.Names first.name kind) : kind ∈ TreeKind.mapKeys :=
    (names.of_mapFirst.resolve_left fun value => key value.1).2
  refine fits_map (by simp [solid, solid']) ?_ ?_
  · rw [Forest.inside_append, inside, inside']
    refine List.forall_mem_cons.mpr ⟨fun has => absurd (member.value has) (by decide), ?_⟩
    exact List.forall_mem_singleton.mpr fun has => absurd (member'.value has) (by decide)
  · rw [Forest.inside_append, inside, inside']
    refine ⟨?_, fun kind among => ?_, fun kind among => ?_⟩
    · obtain ⟨kind, among, names⟩ := member.named first rfl
      exact ⟨kind, among, keys names⟩
    · obtain ⟨name, names, same⟩ := member.target kind among
      obtain rfl := same first rfl
      exact keys names
    · obtain ⟨name, names, -⟩ := member'.target kind among
      exact names.of_mapSecond

theorem keyAndValue_fills : keyAndValue.Fills .mapMembers := fun b v h => by
  unfold keyAndValue
  have first := Puts.awaiting h .none (shapeMember_passes .mapFirst) (shapeMember_puts .mapFirst h .none)
  refine (first.mono (fun _ _ _ h₁ => h₁) fun _ ⟨_, _, _, _, never⟩ => never.elim).bind fun m b₁ h₁ => ?_
  obtain ⟨w, F, lawful, becomes, member, awaits⟩ := h₁
  have alone : b₁.Gained v (·.Fits .mapMembers) := ⟨w, F, lawful, becomes, fits_map_first member⟩
  cases m with
  | none => exact .pure alone
  | some first =>
    unfold secondMember
    refine .after (run_ask _ b₁) (.ite (fun _ => .ite (fun _ => .fail alone) fun key => ?_) fun _ => .pure alone)
    have second := shapeMember_puts .mapSecond lawful awaits
    refine Ensures.bind (Ensures.mono second (fun _ _ _ h₂ => h₂) fun _ ⟨_, _, _, _, never⟩ => never.elim) fun _ b₂ h₂ =>
      .pure (.trans becomes (h₂.mono fun G _ member' F' thin => ?_))
    exact fits_map_both (member.thins thin) key member'

instance mapStatement_obeys : Obeys mapStatement := by
  unfold mapStatement
  have : Obeys (braced .mapMembers mapMembers) := by
    unfold mapMembers
    exact braced_obeys_of rfl rfl (.behind fun _ => .ite (.before keyAndValue_fills) .of_obeys)
  infer_instance

/-! ### Runs of traits in statements -/

theorem fits_traits {kind : TreeKind} (among : kind ∈ [.inlineStructure, .applyStatementBlock]) {F : Forest}
    (run : F.solid = [] ∨ F.solid = [.traitStatements]) : F.Fits kind := by
  have all : ∀ sort ∈ F.solid, sort = .traitStatements := by
    rcases run with run | run <;> simp [run]
  have none {sort : TreeKind} (other : sort ≠ .traitStatements) : sort ∉ F.ruled := fun here =>
    other (all sort (List.mem_filter.mp here).1)
  have inside : F.inside .shapeMember = [] := Forest.inside_eq_nil nofun fun here => nomatch all _ here
  refine ⟨fun here => absurd here (none (by decide)), by simp [inside], ?_, ?_, ?_,
    fun _ => List.mem_of_mem_tail (List.mem_of_mem_tail among)⟩
  all_goals
    rintro rfl
    exact absurd among (by decide)

theorem traitStatements_fills {kind : TreeKind} (among : kind ∈ [.inlineStructure, .applyStatementBlock]) :
    traitStatements.Fills kind := fun _ _ h =>
  (traitStatements_puts h).imp fun _ _ _ run => fits_traits among run.solid_eq

/-! ### Operations -/

instance inlineStructure_obeys : Obeys inlineStructure := by
  unfold inlineStructure
  have : Obeys (within .inlineStructure do
      consumeAny
      whitespace
      let _ ← traitStatements
      structureRest) :=
    Fills.within rfl rfl (.behind fun _ => .behind fun _ => .before (traitStatements_fills (by decide)))
  infer_instance

instance operationTarget_obeys : Obeys operationTarget := by
  unfold operationTarget
  infer_instance

instance operationError_obeys : Obeys operationError := by
  unfold operationError
  infer_instance

instance operationErrors_obeys : Obeys operationErrors := by
  unfold operationErrors
  infer_instance

/-- The kind of node for a property. -/
def propertyKind? (name : String) : Option TreeKind := (propertyOf? name).map Prod.fst

theorem propertyKind?_cases {name : String} {kind : TreeKind} (h : propertyKind? name = some kind) :
    name = "input" ∧ kind = .operationInput ∨ name = "output" ∧ kind = .operationOutput ∨
      name = "errors" ∧ kind = .operationErrors := by
  unfold propertyKind? propertyOf? at h
  split at h <;> simp_all

theorem propertyKind?_inj {name name' : String} {kind : TreeKind} (h : propertyKind? name = some kind)
    (h' : propertyKind? name' = some kind) : name = name' := by
  rcases propertyKind?_cases h with ⟨rfl, rfl⟩ | ⟨rfl, rfl⟩ | ⟨rfl, rfl⟩ <;>
    rcases propertyKind?_cases h' with ⟨rfl, same⟩ | ⟨rfl, same⟩ | ⟨rfl, same⟩ <;> first | rfl | cases same

theorem propertyOfName_kinds (name : String) (h : b.Lawful v) :
    (propertyOfName name).PutsKinds b v (fun _ kinds => ∃ kind, propertyKind? name = some kind ∧ kinds = [kind])
      fun kinds => kinds = [] := by
  unfold propertyOfName propertyKind? propertyOf?
  split
  · rename_i h'
    split at h' <;> cases h' <;>
      exact (within_kinds _ (by decide) h).imp fun _ _ same => ⟨_, rfl, same⟩
  · exact .fail h rfl

/-- The properties that are there were seen, and each is there once. -/
structure Properties (names : List String) (kinds : List TreeKind) : Prop where
  seen : ∀ kind ∈ kinds, ∃ name ∈ names, propertyKind? name = some kind
  once : kinds.Nodup

theorem Properties.add {names : List String} {kinds : List TreeKind} {name : String} {kind : TreeKind}
    (h : Properties names kinds) (found : propertyKind? name = some kind) (new : name ∉ names) :
    Properties (name :: names) (kinds ++ [kind]) where
  seen := by
    refine List.forall_mem_append.mpr ⟨fun sort among => ?_,
      List.forall_mem_singleton.mpr ⟨name, List.mem_cons_self, found⟩⟩
    obtain ⟨name', among', found'⟩ := h.seen sort among
    exact ⟨name', List.mem_cons_of_mem _ among', found'⟩
  once := by
    refine List.nodup_append.mpr ⟨h.once, List.nodup_singleton kind, fun sort among sort' here => ?_⟩
    rintro rfl
    obtain rfl := List.mem_singleton.mp here
    obtain ⟨name', among', found'⟩ := h.seen sort among
    exact new (propertyKind?_inj found' found ▸ among')

theorem Properties.fits {names : List String} {F : Forest} (h : Properties names F.ruled) : F.Fits .operationBody := by
  have among {kind : TreeKind} (here : kind ∈ F.ruled) : kind ∈ TreeKind.operationProperties := by
    obtain ⟨name, -, found⟩ := h.seen kind here
    rcases propertyKind?_cases found with ⟨-, rfl⟩ | ⟨-, rfl⟩ | ⟨-, rfl⟩ <;> decide
  have none {kind : TreeKind} (other : kind ∉ TreeKind.operationProperties) : kind ∉ F.ruled := fun here =>
    other (among here)
  have inside : F.inside .shapeMember = [] := Forest.inside_eq_nil nofun fun here =>
    none (by decide) ((Forest.mem_ruled rfl).mpr here)
  exact ⟨fun here => absurd here (none (by decide)), by simp [inside], nofun, nofun,
    fun _ kind _ => List.nodup_iff_count_le_one.mp h.once kind, fun here => absurd here (none (by decide))⟩

/-- A property that was seen is not read again. -/
theorem operationProperty_kinds (seen : List String) (h : b.Lawful v) :
    (operationProperty seen).PutsKinds b v (fun seen' kinds => ∃ name kind, name ∉ seen ∧ seen' = name :: seen ∧
      propertyKind? name = some kind ∧ kinds = [kind]) fun kinds => kinds = [] := by
  dsimp only [operationProperty]
  refine .looks h (fun _ _ => .ask (.ite (fun _ => .fail h rfl) fun new => ?_)) rfl
  refine (propertyOfName_kinds _ h).bind (fun _ _ _ kinds _ lawful put => ?_) fun _ none => none
  obtain ⟨kind, found, rfl⟩ := put
  refine (whitespace_bland lawful).bind (fun _ _ _ space _ lawful' none => .pure lawful' ?_) fun _ never => never.elim
  subst none
  exact ⟨_, kind, new, rfl, found, rfl⟩

/-- The names that are handed from round to round are those of the properties that are there. -/
theorem operationProperties_fills :
    (do let _ ← foldWhile (fun _ b => beforeBrace b) operationProperty [] : Parser Unit).Fills .operationBody := by
  intro b v h
  refine Ensures.bind (foldWhile_shown (I := fun seen b' => b'.Gained v fun F => Properties seen F.ruled)
    (fun h' => h'.shown) (fun seen b₁ _ h₁ => ?_) (.refl h ⟨nofun, List.nodup_nil⟩)) fun seen b₁ h₁ =>
      .pure (h₁.mono fun _ _ all => all.fits)
  obtain ⟨w, F, lawful, becomes, all⟩ := h₁
  refine Ensures.mono (operationProperty_kinds seen lawful)
    (fun seen' b₂ _ h₂ => .trans becomes (h₂.mono fun G _ put F' thin => ?_))
    fun b₂ h₂ => .trans becomes (h₂.mono fun G _ none F' thin => ?_)
  · obtain ⟨name, kind, new, rfl, found, one⟩ := put
    have here : G.ruled = [kind] := by
      rw [Forest.ruled, one]
      rcases propertyKind?_cases found with ⟨-, rfl⟩ | ⟨-, rfl⟩ | ⟨-, rfl⟩ <;> rfl
    rw [Forest.ruled_append, Forest.ruled_of_solid thin.solid_eq, here]
    exact all.add found new
  · have before : F'.Fits .operationBody := all.fits.thins thin
    exact before.append_ordinary (Forest.ordinary_of_ruled (by rw [Forest.ruled, none]; rfl))

instance operationStatement_obeys : Obeys operationStatement := by
  unfold operationStatement
  have : Obeys (braced .operationBody do let _ ← foldWhile (fun _ b => beforeBrace b) operationProperty []) :=
    braced_obeys_of rfl rfl operationProperties_fills
  infer_instance

/-! ### Shape bodies -/

instance simpleStatement_obeys : Obeys simpleStatement := by
  unfold simpleStatement
  infer_instance

instance entityStatement_obeys : Obeys entityStatement := by
  unfold entityStatement
  infer_instance

instance ShapeForm_statement_obeys (form : ShapeForm) : Obeys (ShapeForm.statement form) := by
  unfold ShapeForm.statement
  cases form <;> infer_instance

instance shapeOfType_obeys (type : String) : Obeys (shapeOfType type) := by
  unfold shapeOfType
  split
  · rename_i form _
    have free : form.kind.isFree = true ∧ form.kind.isUnruled = true := by cases form <;> decide
    have : TreeKind.Computed form.kind.isFree := ⟨free.1⟩
    have : TreeKind.Computed form.kind.isUnruled := ⟨free.2⟩
    infer_instance
  · infer_instance

instance shapeBody_obeys : Obeys shapeBody := by
  unfold shapeBody
  infer_instance

end SmithyIdl.Grammar
