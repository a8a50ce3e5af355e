import SmithyIdl.Proofs.Buffer.Level
import SmithyIdl.Proofs.Buffer.Nearsighted
import SmithyIdl.Proofs.Buffer.Unique
import SmithyIdl.Proofs.Buffer.Writes
import SmithyIdl.Proofs.Schema.Neighbours
import SmithyIdl.Proofs.Trivia.Orders

/-! # Runs across a sign

Two texts have the same tokens but for the whitespace between a name and the sign of a structure that is defined in place
behind it. A run without a problem that takes the sign does the same in both texts up to the name. If the two runs are
level behind the sign, then they are to the end. So the whole depends on the part in which the sign is taken; most parts
do not take it, as no row of their nodes has a sign. -/

namespace SmithyIdl

open SmithyIdl.Parser Schema

/-- Over the tokens `ts'` other whitespace stands between the name `n` and its sign, which is `s` here and `s'` there. -/
structure Buffer.Respaced (b : Buffer) (ts' : Array Token) (n s s' : Nat) : Prop where
  shares : b.SharesUpTo n ts'
  signs : InlineSigns b.tree.tokens ts' n s s'

theorem Buffer.Respaced.leads {b b' : Buffer} {ts' : Array Token} {n s s' : Nat} (h : b.Respaced ts' n s s')
    (leads : b.Leads b') : b'.Respaced ts' n s s' := ⟨h.shares.leads leads, leads.tokens ▸ h.signs⟩

namespace Parser

variable {α β σ : Type} {p q : Parser α} {f : α → Parser β} {b : Buffer} {ts' : Array Token} {n s s' : Nat}
  {R : α → α → Prop} {T : β → β → Prop}

/-- A run from `b` without a problem that takes the sign `s` begins at the name `n` or before it. Over the other tokens
    the parser succeeds too, and comes to the same level. -/
def Crosses (ts' : Array Token) (n s s' : Nat) (R : α → α → Prop) (p : Parser α) (b : Buffer) : Prop :=
  b.Respaced ts' n s s' → ∀ ⦃a b₁⦄, p.run b = .ok a b₁ → b₁.errors = b.errors → b.cursor ≤ s → s < b₁.cursor →
    b.cursor ≤ n ∧ (p.run (b.withTokens ts')).Gives fun a' b₁' => R a a' ∧ b₁.Level b₁'

namespace Crosses

/-- A parser that does not take the sign. -/
theorem of_cursor_le (ends : ∀ a b₁, p.run b = .ok a b₁ → b₁.errors = b.errors → kindAt b.tree.tokens s = .walrus →
    b.cursor ≤ s → b₁.cursor ≤ s) : p.Crosses ts' n s s' R b := fun respaced a b₁ run clean before behind =>
  absurd (ends a b₁ run clean respaced.signs.sign.sign before) (Nat.not_le_of_lt behind)

/-- Either the first part takes the sign or the second one. -/
theorem bind [near : Nearsighted True p] [∀ a, Steady (f a)] (first : p.Crosses ts' n s s' R b)
    (next : ∀ a b₁, p.run b = .ok a b₁ → b₁.errors = b.errors → (f a).Crosses ts' n s s' T b₁)
    (rest : ∀ a a', R a a' → Lockstep .level T (f a) (f a')) : (p >>= f).Crosses ts' n s s' T b := by
  intro respaced c b₂ run clean before behind
  have := near.steady
  obtain ⟨a, b₁, run₁, run₂⟩ := bind_eq_ok.mp run
  have leads := Steady.ok run₁
  obtain ⟨clean₁, clean₂⟩ := leads.clean (Steady.ok run₂) clean
  rcases Nat.lt_or_ge s b₁.cursor with taken | waits
  · obtain ⟨here, gives⟩ := first respaced run₁ clean₁ before taken
    exact ⟨here, gives_bind gives fun a' b₁' _ ⟨value, level⟩ => (rest a a' value).level level run₂⟩
  · obtain ⟨here, gives⟩ := next a b₁ run₁ clean₁ (respaced.leads leads) run₂ clean₂ waits behind
    refine ⟨Nat.le_trans leads.cursor here, ?_⟩
    rw [run_bind_of_ok (near.run_withTokens respaced.shares run₁ clean₁ here)]
    exact gives

/-- The first part does not take the sign. -/
theorem after [Nearsighted True p] [∀ a, Steady (f a)] (ends : ∀ a b₁, p.run b = .ok a b₁ → b₁.errors = b.errors →
      kindAt b.tree.tokens s = .walrus → b.cursor ≤ s → b₁.cursor ≤ s)
    (next : ∀ a b₁, p.run b = .ok a b₁ → b₁.errors = b.errors → (f a).Crosses ts' n s s' T b₁) :
    (p >>= f).Crosses ts' n s s' T b :=
  bind (R := fun _ _ => False) (of_cursor_le ends) next fun _ _ => False.elim

theorem ask {g : Buffer → α} [Buffer.Near g] [∀ a, Steady (f a)] (next : (f (g b)).Crosses ts' n s s' T b) :
    (Parser.ask g >>= f).Crosses ts' n s s' T b := by
  have : Nearsighted True (Parser.ask g) := .ask g inferInstance
  refine after (fun a b₁ run _ _ before => ?_) fun a b₁ run _ => ?_
  · cases run
    exact before
  · cases run
    exact next

theorem look [Nearsighted True p] [Looks p] [∀ a, Steady (f a)]
    (next : ∀ a, p.run b = .ok a b → (f a).Crosses ts' n s s' T b) : (p >>= f).Crosses ts' n s s' T b := by
  refine after (fun a b₁ run _ _ before => ?_) fun a b₁ run _ => ?_
  · exact Looks.ok run ▸ before
  · obtain rfl := Looks.ok run
    exact next a run

theorem ite {c : Prop} [Decidable c] (pos : c → p.Crosses ts' n s s' R b) (neg : ¬ c → q.Crosses ts' n s s' R b) :
    (if c then p else q).Crosses ts' n s s' R b := by
  by_cases hc : c
  · rw [if_pos hc]
    exact pos hc
  · rw [if_neg hc]
    exact neg hc

theorem fail {problem : Problem} : (Parser.fail problem : Parser α).Crosses ts' n s s' R b :=
  fun _ _ _ run => nomatch run

theorem pure {a : α} : (Pure.pure a : Parser α).Crosses ts' n s s' R b := of_cursor_le fun _ _ run _ _ before => by
  cases run
  exact before

/-! ### Scopes and repetitions -/

theorem scope [Steady p] {kind : TreeKind} {recovery : Recovery}
    (inside : ∀ i b₁, (openNode kind).run b = .ok i b₁ → p.Crosses ts' n s s' R b₁) :
    (Parser.scope kind p recovery).Crosses ts' n s s' (fun c c' => Option.Rel R c.value c'.value) b := by
  intro respaced c b₁ run clean before behind
  obtain ⟨i, a, b₂, b₃, opened, -, run', clean', rfl, rfl⟩ := exists_scope run clean
  have same := (openNode_ok opened).2.2.1
  have within := inside i b₂ opened (respaced.leads (Steady.ok opened))
  refine ⟨same ▸ (within run' clean' (same ▸ before) behind).1, ?_⟩
  refine scope_gives run clean rfl rfl fun {i₁ i₁' b₄ b₄' a₁ b₅} opened₁ opened₁' run₁ clean₁ cursor => ?_
  cases opened₁.symm.trans opened
  cases opened₁'.symm.trans (openNode_withTokens opened)
  exact (within run₁ clean₁ (same ▸ before) (cursor ▸ behind)).2

theorem within {kind : TreeKind} {body : Parser Unit} [Steady body]
    (inside : ∀ i b₁, (openNode kind).run b = .ok i b₁ → body.Crosses ts' n s s' Eq b₁) :
    (Parser.within kind body).Crosses ts' n s s' Eq b := by
  intro respaced _ b₁ run clean before behind
  obtain ⟨c, closed⟩ := exists_of_within run
  obtain ⟨here, gives⟩ := scope inside respaced closed clean before behind
  exact ⟨here, gives_bind gives fun _ _ _ level => ⟨rfl, level.2⟩⟩

/-- By induction on the tokens that are left. As long as no round takes the sign, what every round keeps holds; behind the
    round that takes it, the repetitions are level. -/
theorem foldWhile {more : σ → Buffer → Bool} {round : σ → Parser σ} {I : σ → Buffer → Prop} {U : σ → σ → Prop}
    (near : ∀ x, Buffer.Near (more x)) (nears : ∀ x, Nearsighted True (round x))
    (again : ∀ x x', U x x' → ∀ b b', Matching.level.Sees b b' → more x' b' = more x b)
    (lockstep : ∀ x x', U x x' → Lockstep .level U (round x) (round x'))
    (keep : ∀ x b₁ x' b₂, I x b₁ → more x b₁ = true → (round x).run b₁ = .ok x' b₂ → b₂.errors = b₁.errors → I x' b₂)
    (rounds : ∀ x b₁, I x b₁ → more x b₁ = true → (round x).Crosses ts' n s s' U b₁) {x : σ} (start : I x b) :
    (Parser.foldWhile more round x).Crosses ts' n s s' U b := by
  have steady := fun x => (nears x).steady
  intro respaced y b' run clean before behind
  induction length : b.remaining using Nat.strongRecOn generalizing x b with
  | ind left ih =>
    cases go : more x b with
    | true =>
      obtain ⟨x₁, b₁, taken, fewer, rest⟩ := foldWhile_round go run
      have leads := Steady.ok taken
      obtain ⟨clean₁, clean₂⟩ := leads.clean (Steady.ok rest) clean
      rcases Nat.lt_or_ge s b₁.cursor with crossed | waits
      · obtain ⟨here, gives⟩ := rounds x b start go respaced taken clean₁ before crossed
        refine ⟨here, foldWhile_gives (((near x).same respaced.shares here).trans go) gives fun x₁' b₁' both => ?_⟩
        obtain ⟨value, level⟩ := both
        exact (Lockstep.foldWhile value again lockstep).level level rest
      · have held := keep x b x₁ b₁ start go taken clean₁
        obtain ⟨here, gives⟩ := ih _ (length ▸ fewer) held (respaced.leads leads) rest clean₂ waits rfl
        have here₀ := Nat.le_trans leads.cursor here
        refine ⟨here₀, foldWhile_gives (C := fun x₁' b₁' => x₁' = x₁ ∧ b₁' = b₁.withTokens ts')
          (((near x).same respaced.shares here₀).trans go) ?_ fun _ _ same => ?_⟩
        · rw [(nears x).run_withTokens respaced.shares taken clean₁ here]
          exact ⟨rfl, rfl⟩
        · obtain ⟨rfl, rfl⟩ := same
          exact gives
    | false =>
      rw [foldWhile_stop go] at run
      cases run
      exact absurd before (Nat.not_le_of_lt behind)

end Crosses

end Parser

/-! ### Parts without a sign -/

/-- Where the row has neither a sign nor a node in which one can stand, no sign is below. -/
theorem Forest.kindAt_ne_walrus {ts : Array Token} {F : Forest} (conf : F.Conforms ts)
    (signless : ∀ a ∈ F.row ts, isSignless a = true) {i : TokenId} (among : i ∈ F.tokens) : kindAt ts i ≠ .walrus := by
  induction F with
  | nil => cases among
  | leaf id token rest ih =>
    obtain ⟨here, others⟩ := List.forall_mem_cons.mp signless
    rcases List.mem_cons.mp among with rfl | among
    · exact of_decide_eq_true here
    · exact ih conf others among
  | branch id label inner rest ihInner ihRest =>
    obtain ⟨row, below, beside⟩ := conf
    obtain ⟨here, others⟩ := List.forall_mem_cons.mp signless
    rcases List.mem_append.mp among with among | among
    · exact ihInner below (fun a ha => isSignless_of_production (isSignless_of_ofNode here) (mem_symbols row ha)) among
    · exact ihRest beside others among

/-- The buffer builds a view over the tokens of a text, and no tree stands alone. -/
structure Buffer.Tells (b : Buffer) (text : String) (v : View) : Prop where
  builds : b.Builds (tokens text).toArray v
  alone : v.loose = .nil

theorem Buffer.Tells.gathers {b : Buffer} {text : String} {v : View} (h : b.Tells text v) :
    b.Gathers (tokens text).toArray v := ⟨⟨text, rfl⟩, h.builds.shown, h.builds.tokens, h.alone⟩

namespace Parser

variable {α β σ : Type} {p q : Parser α} {f : α → Parser β} {b b' b₁ : Buffer} {text : String} {v : View} {r : Rows}
  {ts' : Array Token} {n s s' : Nat} {R : α → α → Prop} {T : β → β → Prop} {Q : α → Buffer → View → List Symbol → Prop}

/-- A run without a problem adds children to the innermost open node, and does nothing else to the tree. -/
class GrowsOn (p : Parser α) : Prop where
  grows : ∀ {b b' : Buffer} {ts : Array Token} {v : View} {a : α}, b.Gathers ts v → p.run b = .ok a b' →
    b'.errors = b.errors → b'.ShowsGrown v

instance GrowsOn.of_grows [Grows p] : GrowsOn p := ⟨fun h run _ => (Grows.grows h.shown).holds run⟩

instance GrowsOn.of_orders [Orders p] : GrowsOn p where
  grows h run clean := by
    obtain ⟨F, gathers, -⟩ := Orders.orders _ h run clean
    exact ⟨F, gathers.shown⟩

theorem YieldsFrom.tells (yields : p.Yields False (tokens text).toArray b v Q) {a : α} (h : b.Tells text v)
    (run : p.run b = .ok a b') (clean : b'.errors = b.errors) :
    ∃ w u, b'.Tells text w ∧ v.Gains False (tokens text).toArray u w ∧ Q a b' w u := by
  obtain ⟨w, u, builds, gains, value⟩ := yields h.builds run clean
  exact ⟨w, u, ⟨builds, gains.loose.trans h.alone⟩, gains, value⟩

theorem Writes.tells (writes : p.Writes False b r) {a : α} (h : b.Tells text v) (run : p.run b = .ok a b')
    (clean : b'.errors = b.errors) : ∃ w, b'.Tells text w := by
  obtain ⟨w, -, tells, -⟩ := writes.rows.tells h run clean
  exact ⟨w, tells⟩

/-- What adds a row without a sign takes no sign. -/
theorem YieldsFrom.cursor_le [GrowsOn p] (yields : p.Yields False (tokens text).toArray b v Q) (h : b.Tells text v)
    (signless : ∀ {a b' w u}, Q a b' w u → ∀ x ∈ u, isSignless x = true) {a : α} (run : p.run b = .ok a b')
    (clean : b'.errors = b.errors) (sign : kindAt (tokens text).toArray s = .walrus) (before : b.cursor ≤ s) :
    b'.cursor ≤ s := by
  obtain ⟨w, u, tells, gains, value⟩ := yields.tells h run clean
  obtain ⟨F, shown⟩ := GrowsOn.grows h.gathers run clean
  obtain rfl := tells.builds.shown.unique shown gains.names.symm gains.loose.symm
  have row : F.row (tokens text).toArray = u := by
    have same := gains.row
    rw [View.grow, Forest.row_append] at same
    exact List.append_cancel_left same
  have conf := (Forest.conforms_append.mp (List.forall_mem_cons.mp tells.builds.tidy.open').1).2
  refine Nat.le_of_not_lt fun behind => ?_
  have among : s ∈ F.tokens := by
    rw [h.gathers.tokens_grown tells.gathers, List.mem_range'_1]
    omega
  exact Forest.kindAt_ne_walrus conf (row ▸ signless value) among sign

theorem Writes.cursor_le [GrowsOn p] (writes : p.Writes False b r) (h : b.Tells text v)
    (signless : (symbols r).all isSignless = true) {a : α} (run : p.run b = .ok a b') (clean : b'.errors = b.errors)
    (sign : kindAt (tokens text).toArray s = .walrus) (before : b.cursor ≤ s) : b'.cursor ≤ s :=
  writes.rows.cursor_le h (fun among _ => isSignless_of_matches signless among) run clean sign before

/-! ### Parts of a run -/

theorem openNode_tells {kind : TreeKind} {i : NodeId} (h : b.Tells text v) (run : (openNode kind).run b = .ok i b₁) :
    b₁.Tells text (v.enter i (.plain kind)) ∧ b₁.peek = b.peek := by
  obtain ⟨builds, same⟩ := openNode_builds h.builds run
  exact ⟨⟨builds, h.alone⟩, same⟩

namespace Crosses

section
variable [GrowsOn p] (h : b.Tells text v)
include h

theorem of_yields (yields : p.Yields False (tokens text).toArray b v Q)
    (signless : ∀ {a b' w u}, Q a b' w u → ∀ x ∈ u, isSignless x = true) : p.Crosses ts' n s s' R b :=
  .of_cursor_le fun _ _ run clean sign before =>
    yields.cursor_le h signless run clean (h.builds.tokens ▸ sign) before

theorem of_writes (writes : p.Writes False b r) (signless : (symbols r).all isSignless = true) :
    p.Crosses ts' n s s' R b :=
  of_yields h writes.rows fun among _ => isSignless_of_matches signless among

variable [Nearsighted True p] [∀ a, Steady (f a)]

theorem after_yields (yields : p.Yields False (tokens text).toArray b v Q)
    (signless : ∀ {a b' w u}, Q a b' w u → ∀ x ∈ u, isSignless x = true)
    (next : ∀ a b₁ w u, p.run b = .ok a b₁ → b₁.Tells text w → Q a b₁ w u → (f a).Crosses ts' n s s' T b₁) :
    (p >>= f).Crosses ts' n s s' T b :=
  .after (fun _ _ run clean sign before => yields.cursor_le h signless run clean (h.builds.tokens ▸ sign) before)
    fun a b₁ run clean => by
      obtain ⟨w, u, tells, -, value⟩ := yields.tells h run clean
      exact next a b₁ w u run tells value

theorem after_writes (writes : p.Writes False b r) (signless : (symbols r).all isSignless = true)
    (next : ∀ a b₁ w, p.run b = .ok a b₁ → b₁.Tells text w → (f a).Crosses ts' n s s' T b₁) :
    (p >>= f).Crosses ts' n s s' T b :=
  after_yields h writes.rows (fun among _ => isSignless_of_matches signless among)
    fun a b₁ w _ run tells _ => next a b₁ w run tells

end

/-- The sign may be in the first part of a row. -/
theorem cons [Nearsighted True p] [∀ a, Steady (f a)] (h : b.Tells text v) (writes : p.Writes False b r)
    (first : p.Crosses ts' n s s' R b)
    (next : ∀ a b₁ w, p.run b = .ok a b₁ → b₁.Tells text w → (f a).Crosses ts' n s s' T b₁)
    (rest : ∀ a a', R a a' → Lockstep .level T (f a) (f a')) : (p >>= f).Crosses ts' n s s' T b :=
  .bind first (fun a b₁ run clean => by
    obtain ⟨w, tells⟩ := writes.tells h run clean
    exact next a b₁ w run tells) rest

theorem inside {kind : TreeKind} {body : Parser Unit} [Steady body] (h : b.Tells text v)
    (body' : ∀ b₁ w, b₁.Tells text w → b₁.peek = b.peek → body.Crosses ts' n s s' Eq b₁) :
    (Parser.within kind body).Crosses ts' n s s' Eq b := .within fun i b₁ opened => by
  obtain ⟨tells, same⟩ := openNode_tells h opened
  exact body' b₁ _ tells same

end Crosses

end Parser

end SmithyIdl
