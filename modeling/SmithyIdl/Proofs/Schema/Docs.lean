import SmithyIdl.Proofs.Grammar.Members
import SmithyIdl.Proofs.Schema.Values

/-! # Rows around documentation comments

Documentation comments that one parser wrote are moved by a later one. Where the first hands them on they stand in a
node that may lose them (`View.Held`), or will once it is closed (`View.Pends`); so both write rows as if nothing
were moved. -/

namespace SmithyIdl

/-- The documentation comments, if any, are an inner node. -/
def Buffer.Names (b : Buffer) (docs : Option NodeId) : Prop := ∀ d ∈ docs, ∃ label, b.tree.tag? d = some (.inr label)

namespace Buffer.Names

variable {b b' : Buffer} {docs : Option NodeId}

theorem none : b.Names none := fun _ h => nomatch h

theorem leads (h : b.Names docs) (leads : b.Leads b') : b'.Names docs := fun d hd => by
  obtain ⟨label, found⟩ := h d hd
  exact ⟨label, leads.tree.tag?_eq found⟩

end Buffer.Names

/-- The documentation comments, if any, are held, and nothing is in the innermost node yet. -/
def View.Receives (v : View) (given : Option NodeId) : Prop := v.Held given ∧ v.inner.children = .nil

theorem View.AwaitsIn.receives {v : View} {given : Option NodeId} (h : v.Held given) {id : NodeId} {kind : TreeKind} :
    (v.enter id (.plain kind)).Receives given := ⟨h.enter id kind, rfl⟩

namespace Parser

open Schema

variable {α β σ : Type} {p q : Parser α} {f : α → Parser β} {b : Buffer} {v : View} {ts : Array Token}
  {r s : Rows} {held : View → Option NodeId → Prop} {docs : α → Option NodeId} {docs' : β → Option NodeId}

/-! ### Adopting -/

/-- Documentation comments that are held become the first child of an empty node, and are missed nowhere. -/
theorem adoptDocs_yields {given : Option NodeId} (receives : v.Receives given) :
    (adoptDocs given).Yields False ts b v fun _ _ w u =>
      u ∈ space.matches' ∧ w.whole.items = v.whole.items := by
  cases given with
  | none => exact .pure ⟨.inl rfl, rfl⟩
  | some d =>
    intro builds a b' run _
    obtain ⟨held, empty⟩ := receives
    obtain ⟨D, spine, out⟩ := held d rfl
    obtain ⟨outer, b₁, rfl, run₁, shown, names, order⟩ := run_adoptDocs builds.shown out empty
    obtain rfl : b₁ = b' := (Outcome.ok.inj (run₁.symm.trans run)).2
    obtain ⟨⟨docs, row⟩, conf, rows⟩ := out.tidy builds.tidy.open'
    have tokens := (Steady.ok run).tokens.trans builds.tokens
    have tidy : (⟨v.inner, outer, v.loose⟩ : View).Tidy ts := ⟨conf, builds.tidy.loose⟩
    refine ⟨_, _, ⟨shown, tokens, tidy.grow docs⟩, ⟨names, rfl, Forest.row_append, ?_, False.elim⟩, ?_⟩
    · exact (List.cons.inj rows).2
    · exact ⟨.inr row, order⟩

/-! ### Handing on -/

/-- Given a view for which `pre` holds, rows of `r` are added, and the documentation comments in the value are held. -/
structure WritesDocs (pre : View → Prop) (held : View → Option NodeId → Prop) (docs : α → Option NodeId) (p : Parser α)
    (b : Buffer) (r : Rows) : Prop where
  guards : p.Guards b
  names : ∀ ⦃a b'⦄, p.run b = .ok a b' → b'.Names (docs a)
  rows : ∀ {ts v}, pre v → p.Yields False ts b v fun a _ w u => u ∈ r.matches' ∧ held w (docs a)

namespace WritesDocs

variable {pre : View → Prop}

theorem writes (h : p.WritesDocs (fun _ => True) held docs b r) : p.Writes False b r :=
  ⟨h.guards, (h.rows trivial).mono fun _ _ _ _ _ hu => hu.1⟩

theorem of_subset (h : p.WritesDocs pre held docs b r) (subset : ∀ u ∈ r.matches', u ∈ s.matches') :
    p.WritesDocs pre held docs b s :=
  ⟨h.guards, h.names, fun hv => (h.rows hv).mono fun _ _ _ _ _ hu => ⟨subset _ hu.1, hu.2⟩⟩

theorem mono {pre' : View → Prop} {held' : View → Option NodeId → Prop} (h : p.WritesDocs pre held docs b r)
    (weaker : ∀ {v}, pre' v → pre v) (imp : ∀ {w d}, held w d → held' w d) : p.WritesDocs pre' held' docs b r :=
  ⟨h.guards, h.names, fun hv => (h.rows (weaker hv)).mono fun _ _ _ _ _ hu => ⟨hu.1, imp hu.2⟩⟩

/-- Documentation comments that nobody receives stay where they are. -/
theorem forget (h : p.WritesDocs pre held docs b r) : p.WritesDocs pre View.Held (fun _ => none) b r :=
  ⟨h.guards, fun _ _ _ => .none, fun hv => (h.rows hv).mono fun _ _ _ _ _ hu => ⟨hu.1, .none⟩⟩

theorem pure {a : α} (nothing : docs a = none) (free : ∀ w, held w none) :
    (Pure.pure a : Parser α).WritesDocs pre held docs b 1 where
  guards := .pure a
  names _ _ run := by
    cases run
    exact nothing ▸ .none
  rows _ := .pure ⟨rfl, nothing ▸ free _⟩

theorem fail {problem : Problem} : (Parser.fail problem : Parser α).WritesDocs pre held docs b r :=
  ⟨.fail _, fun _ _ run => (nomatch run), fun _ => .fail⟩

theorem ask {γ : Type} {g : Buffer → γ} {f : γ → Parser β} (h : (f (g b)).WritesDocs pre held docs' b r) :
    (Parser.ask g >>= f).WritesDocs pre held docs' b r :=
  ⟨.ask_bind h.guards, fun _ _ run => h.names run, fun hv => .ask (h.rows hv)⟩

theorem ite {c : Prop} [Decidable c] (pos : c → p.WritesDocs pre held docs b r)
    (neg : ¬ c → q.WritesDocs pre held docs b r) : (if c then p else q).WritesDocs pre held docs b r := by
  by_cases hc : c
  · rw [if_pos hc]
    exact pos hc
  · rw [if_neg hc]
    exact neg hc

/-- What is written first need not be known anywhere. -/
theorem bind_of_yields [Steady p] [∀ a, Steady (f a)] (guards : p.Guards b)
    (rows : ∀ {ts v}, pre v → p.Yields False ts b v fun _ _ _ u => u ∈ r.matches')
    (next : ∀ a b₁, p.run b = .ok a b₁ → (f a).WritesDocs (fun _ => True) held docs' b₁ s) :
    (p >>= f).WritesDocs pre held docs' b (r * s) where
  guards := .bind guards fun a b₁ run => (next a b₁ run).guards
  names _ _ run := by
    obtain ⟨a, b₁, first, rest⟩ := bind_eq_ok.mp run
    exact (next a b₁ first).names rest
  rows hv := (rows hv).bind fun a b₁ _ _ run _ _ hu => ((next a b₁ run).rows trivial).mono fun _ _ _ _ _ hu' =>
    ⟨Language.append_mem_mul hu hu'.1, hu'.2⟩

/-- The first part of a sequence, and then the others. -/
theorem cons [Steady p] [∀ a, Steady (f a)] {rs : List Rows} (h : p.Writes False b r)
    (next : ∀ a b₁, p.run b = .ok a b₁ → (f a).WritesDocs (fun _ => True) held docs' b₁ (sequence rs)) :
    (p >>= f).WritesDocs pre held docs' b (sequence (r :: rs)) := bind_of_yields h.guards (fun _ => h.rows) next

theorem last (h : p.WritesDocs pre held docs b r) : p.WritesDocs pre held docs b (sequence [r]) :=
  h.of_subset (matches_sequence_one r).ge

theorem look_bind [Steady p] [Looks p] [∀ a, Steady (f a)]
    (h : ∀ a, p.run b = .ok a b → (f a).WritesDocs pre held docs' b r) : (p >>= f).WritesDocs pre held docs' b r where
  guards := .look_bind fun a run => (h a run).guards
  names _ _ run := by
    obtain ⟨a, b₁, found, rest⟩ := bind_eq_ok.mp run
    obtain rfl := Looks.ok found
    exact (h a found).names rest
  rows hv builds _ _ run clean := by
    obtain ⟨a, b₁, found, rest⟩ := bind_eq_ok.mp run
    obtain rfl := Looks.ok found
    exact (h a found).rows hv builds rest clean

/-- What comes behind where there was no error. -/
theorem bind_sound {p : Parser Bool} {p' q' : Parser β} [Steady p] [Steady p'] [Steady q']
    (h : Grammar.WritesSoundly False p b r) (behind : ∀ b₁, p'.WritesDocs (fun _ => True) held docs' b₁ s)
    (guards : ∀ b₁, q'.Guards b₁) (names : ∀ b₁ a b₂, q'.run b₁ = .ok a b₂ → b₂.Names (docs' a)) :
    (do if ← p then p' else q').WritesDocs pre held docs' b (r * s) where
  guards := .bind h.guards fun _ b₁ _ => .ite (fun _ => (behind b₁).guards) fun _ => guards b₁
  names a b' run := by
    obtain ⟨sound, b₁, -, rest⟩ := bind_eq_ok.mp run
    cases sound with
    | true => exact (behind b₁).names rest
    | false => exact names b₁ a b' rest
  rows _ := h.rows.bind fun _ b₁ _ _ _ _ _ sound => by
    obtain ⟨rfl, hu⟩ := sound
    exact ((behind b₁).rows trivial).mono fun _ _ _ _ _ hu' => ⟨Language.append_mem_mul hu hu'.1, hu'.2⟩

theorem map [Steady p] {g : α → β} (h : p.WritesDocs pre held (fun a => docs' (g a)) b r) :
    (p >>= fun a => Pure.pure (g a)).WritesDocs pre held docs' b r where
  guards := .bind h.guards fun _ _ _ => .pure _
  names _ _ run := by
    obtain ⟨a, b₁, first, rest⟩ := bind_eq_ok.mp run
    cases rest
    exact h.names first
  rows hv := (h.rows hv).bind fun a b₁ _ u _ _ _ hu => .pure (by rwa [List.append_nil])

/-- What one parser hands on another one receives. -/
theorem hand [Steady p] [∀ a, Steady (f a)] (h : p.WritesDocs pre View.Held docs b r)
    (next : ∀ a b₁, p.run b = .ok a b₁ → b₁.Names (docs a) → (f a).WritesDocs (·.Held (docs a)) held docs' b₁ s) :
    (p >>= f).WritesDocs pre held docs' b (r * s) where
  guards := .bind h.guards fun a b₁ run => (next a b₁ run (h.names run)).guards
  names _ _ run := by
    obtain ⟨a, b₁, first, rest⟩ := bind_eq_ok.mp run
    exact (next a b₁ first (h.names first)).names rest
  rows hv := (h.rows hv).bind fun a b₁ _ _ run _ _ hu =>
    ((next a b₁ run (h.names run)).rows hu.2).mono fun _ _ _ _ _ hu' =>
      ⟨Language.append_mem_mul hu.1 hu'.1, hu'.2⟩

/-- A node that is closed holds what was to be held by it. -/
theorem scope [Steady p] {kind : TreeKind} {recovery : Recovery} {pre' : View → Prop}
    (ne : kind ≠ .shapeId ∧ kind ≠ .error)
    (enters : ∀ {v id}, pre v → pre' (v.enter id (.plain kind)))
    (closes : ∀ {w d}, held w d → w.inner.label = .plain kind → w.outer ≠ [] → w.leave.Held d)
    (inside : ∀ b₁, b.Leads b₁ → b₁.peek = b.peek → p.WritesDocs pre' held docs b₁ (production kind)) :
    (Parser.scope kind p recovery).WritesDocs pre View.Held (fun c => c.value.bind docs) b (one kind) where
  guards := .scope ne.2 fun b₁ leads same => (inside b₁ leads same).guards
  names r b' run := by
    obtain ⟨-, inner⟩ := scope_ok run
    obtain ⟨node, _ | a⟩ := r
    · exact .none
    · obtain ⟨b₁, b₂, leads, same, run₁, leads', -⟩ := inner a rfl
      exact ((inside b₁ leads same).names run₁).leads leads'
  rows {ts v} hv := by
    refine (YieldsFrom.scope (Q := fun a _ w => held w (docs a)) fun b₁ leads same =>
      (inside b₁ leads same).rows (enters hv)).mono fun r b' w u _ h => ?_
    obtain ⟨a, b₁, x, rfl, held, -, rfl, names, rfl, -⟩ := h
    obtain ⟨⟨i, l, F⟩, outer, L⟩ := x
    obtain ⟨name, around⟩ := List.cons.inj names
    cases name
    refine ⟨?_, closes held rfl fun empty => ?_⟩
    · rw [Symbol.ofNode_of_ne ne.1]
      rfl
    · cases empty
      cases around

/-- Rounds that hand documentation comments on to each other. -/
theorem foldWhile {more : Option NodeId → Buffer → Bool} {round : Option NodeId → Parser (Option NodeId)}
    [∀ given, Steady (round given)] {given : Option NodeId} (names : b.Names given)
    (rounds : ∀ b₁ d, b₁.Names d → more d b₁ = true → (round d).WritesDocs (·.Held d) View.Held id b₁ r) :
    (Parser.foldWhile more round given).WritesDocs (·.Held given) View.Held id b r.star where
  guards := .foldWhile (I := fun d b₁ => b₁.Names d) (fun d b₁ _ _ named go run => (rounds b₁ d named go).names run)
    (fun d b₁ named go => (rounds b₁ d named go).guards) names
  names _ _ run := (foldWhile_ok (I := fun d b₁ => b₁.Names d)
    (fun d b₁ _ _ named go run => (rounds b₁ d named go).names run) names run).1
  rows held := by
    refine (YieldsFrom.foldWhile (J := fun d b₁ w u => b₁.Names d ∧ u ∈ r.star.matches' ∧ w.Held d)
      (fun d b₁ _ _ _ _ h go => ?_) ⟨names, Language.nil_mem_kstar _, held⟩).mono fun _ _ _ _ _ h => h.1.2
    obtain ⟨named, hu, held₁⟩ := h
    have round := rounds b₁ d named go
    exact (round.rows held₁).and_run.mono fun _ _ _ _ _ h' =>
      ⟨round.names h'.1, Writes.append_mem_star hu h'.2.1, h'.2.2⟩

end WritesDocs

end Parser

end SmithyIdl
