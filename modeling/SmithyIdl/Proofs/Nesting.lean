import SmithyIdl.Proofs.Buffer.Ranks
import SmithyIdl.Proofs.Buffer.Stepwise
import SmithyIdl.Proofs.ErrorCount
import SmithyIdl.Proofs.Lockstep.Statements

/-! # How deep files nest

The limit on open nodes is looked at only where a scope opens. Behind a refusal the error node and its tokens come, and
traits and documentation comments are put in deeper than they were read. All of this stays within five levels of the
limit. -/

set_option synthInstance.maxSize 20000

namespace SmithyIdl

open SmithyIdl.Parser

namespace Grammar

variable {limit : Nat} {final : Buffer}

/-! ### Places -/

/-- So many nodes are open, no more than may be, and the innermost of them is ranked at most `high`. -/
structure Place (limit : Nat) (rank : NodeId → Nat) (b : Buffer) (count high : Nat) : Prop where
  limit_eq : limit = max b.maxDepth 1
  count_eq : b.openNodes.length = count
  fits : count ≤ limit
  ranked : b.Ranked limit rank high

namespace Place

variable {rank rank' : NodeId → Nat} {b b' : Buffer} {count high : Nat}

theorem after (h : Place limit rank b count high) (leads : b.Leads b') (ranks : b.Ranks limit rank rank' b') :
    Place limit rank' b' count high :=
  ⟨leads.maxDepth ▸ h.limit_eq, ranks.openNodes ▸ h.count_eq, h.fits, ranks.ranked leads h.ranked⟩

/-- The place inside a scope. -/
theorem inside (h : Place limit rank b count high) {node : NodeId} {new : Nat} (leads : b.Leads b')
    (stack : b'.openNodes = node :: b.openNodes) (ranked : b'.Ranked limit rank' new) (free : b'.isTooDeep = false) :
    Place limit rank' b' (count + 1) new := by
  have length : b'.openNodes.length = count + 1 := by rw [stack, List.length_cons, h.count_eq]
  have free : ¬ b'.maxDepth < b'.openNodes.length := of_decide_eq_false free
  have maxDepth := leads.maxDepth
  have limit_eq := h.limit_eq
  exact ⟨leads.maxDepth ▸ limit_eq, length, by omega, ranked⟩

theorem lockstep {α β : Type} {R : α → β → Prop} {p : Parser α} {q : Parser β} (h : Place limit rank b count high)
    (low : high ≤ count + 1) (same : Lockstep (.known final) R p q) :
    RanksTo limit final p rank b fun a _ _ => ∃ a', R a a' := by
  refine same.ranksTo h.limit_eq (h.count_eq ▸ h.fits) ⟨h.ranked.tree, h.ranked.made, ?_⟩
  have innermost := h.ranked.innermost
  have count_eq := h.count_eq
  omega

end Place

/-- Documentation comments that are whitespace at the end. -/
def Known (final : Buffer) (docs : Docs) : Prop := ∀ i ∈ docs, final.IsDocs i

theorem Known.rel {docs : Docs} (h : Known final docs) :
    Option.Rel (Matching.known final).docs docs docs := Matching.alone_rel.mpr ⟨rfl, h⟩

theorem known_of_rel {docs docs' : Docs} (h : Option.Rel (Matching.known final).docs docs docs') :
    Known final docs := (Matching.alone_rel.mp h).2

theorem known_of_lockstep {p : Parser Docs} {rank : NodeId → Nat} {b : Buffer} {count high : Nat}
    (h : Place limit rank b count high) (low : high ≤ count + 1)
    (same : Lockstep (.known final) (Option.Rel (Matching.known final).docs) p p) :
    RanksTo limit final p rank b fun docs _ _ => Known final docs :=
  (h.lockstep low same).mono fun ⟨_, related⟩ => known_of_rel related

/-! ### Statements -/

/-- The traits of a statement are ranked as if they stood in it already. -/
def Lifted (traits : Option NodeId) (rank : NodeId → Nat) (b : Buffer) : Prop :=
  ∀ i ∈ traits, i < b.tree.size ∧ rank i = 5

section
variable {rank rank' : NodeId → Nat} {b b' : Buffer} {docs : Docs} {traits : Option NodeId} {count high : Nat}

theorem Lifted.after (h : Lifted traits rank b) (leads : b.Leads b') (ranks : b.Ranks limit rank rank' b') :
    Lifted traits rank' b' := fun i among => by
  obtain ⟨made, rank_eq⟩ := h i among
  exact ⟨Nat.lt_of_lt_of_le made leads.tree.size, (ranks.kept i made).trans rank_eq⟩

theorem within_ranks {kind : TreeKind} [kind.OfRule] {body : Parser Unit} [Steady body] {n : Nat}
    (h : Place limit rank b count high) (lower : high < n) (bound : n ≤ limit + 2)
    (inside : ∀ {rank' b'}, Place limit rank' b' (count + 1) n → (∀ i < b.tree.size, rank' i = rank i) →
      b.tree.size ≤ b'.tree.size → RanksTo limit final body rank' b' fun _ _ _ => True) :
    RanksTo limit final (within kind body) rank b fun _ _ _ => True :=
  .bind (.scope (V := fun _ => True) h.ranked lower bound (fun never => absurd never TreeKind.OfRule.ne)
    fun leads stack ranked kept free => inside (h.inside leads stack ranked free) kept leads.tree.size)
    fun _ ranks _ => .pure ranks.tree trivial

theorem traitStatements_ranks (h : Place limit rank b 3 2) :
    RanksTo limit final traitStatements rank b Lifted := by
  have fits := h.fits
  unfold traitStatements
  refine .bind (.ask (g := (·.isAt .atSign)) (Q := fun _ _ _ => True) h.ranked.tree trivial) fun leads ranks _ => ?_
  have h := h.after leads ranks
  refine .ite (fun _ => ?_) fun _ => .pure h.ranked.tree nofun
  refine .bind (.scope (V := fun _ => True) (n := 5) h.ranked (by omega) (by omega) nofun
    fun leads stack ranked _ free => ?_) fun {traits rank' b'} leads ranks fresh => .pure ranks.tree ?_
  · have inside : Lockstep (.known final) Eq (Parser.repeatWhile (·.isAt .atSign) nextTrait)
        (Parser.repeatWhile (·.isAt .atSign) nextTrait) := inferInstance
    exact ((h.inside leads stack ranked free).lockstep (by omega) inside).mono fun _ => trivial
  · rintro _ ⟨⟩
    exact ⟨fresh.2.1, fresh.2.2.1⟩

theorem detachedTraits_ranks (h : Place limit rank b 3 2) : RanksTo limit final detachedTraits rank b Lifted := by
  unfold detachedTraits
  refine .bind (traitStatements_ranks h) fun {traits rank₁ b₁} leads ranks lifted => ?_
  have h := h.after leads ranks
  have taken : RanksTo limit final (withTraits traits detach) rank₁ b₁ fun _ _ _ => True := by
    cases traits with
    | none => exact .pure h.ranked.tree trivial
    | some i => exact .of_ok (p := detach i) fun run _ => ⟨_, detach_ranks h.ranked.tree run, trivial⟩
  exact taken.bind fun leads ranks _ => .pure ranks.tree (lifted.after leads ranks)

theorem misplaced_ranks (h : Place limit rank b 3 2) (lifted : Lifted traits rank b) (problem : Problem) :
    RanksTo limit final (misplaced traits problem) rank b fun _ _ _ => True := by
  have fits := h.fits
  unfold misplaced
  cases traits with
  | none => exact .pure h.ranked.tree trivial
  | some i =>
    obtain ⟨made, rank_eq⟩ := lifted i rfl
    refine .of_ok (p := encloseInError i problem) fun run _ => ?_
    obtain ⟨rank', ranks⟩ := encloseInError_ranks (n := 3) h.ranked (by omega) (by omega) made (by omega) run
    exact ⟨rank', ranks, trivial⟩

theorem shapeStatement_ranks (h : Place limit rank b 4 3) (known : Known final docs) (lifted : Lifted traits rank b) :
    RanksTo limit final (shapeStatement docs traits) rank b fun _ _ _ => True := by
  have fits := h.fits
  unfold shapeStatement
  refine within_ranks (n := 4) h (by omega) (by omega) fun {rank₁ b₁} h kept size => ?_
  have lifted : Lifted traits rank₁ b₁ := fun i among => by
    obtain ⟨made, rank_eq⟩ := lifted i among
    exact ⟨Nat.lt_of_lt_of_le made size, (kept i made).trans rank_eq⟩
  have fits := h.fits
  have adopted : RanksTo limit final (adoptDocs docs) rank₁ b₁ fun _ _ _ => True := by
    cases docs with
    | none => exact .pure h.ranked.tree trivial
    | some i => exact .adoptDocs h.ranked (by omega) (known i rfl)
  refine adopted.bind fun {_ rank₂ b₂} leads ranks _ => ?_
  have h := h.after leads ranks
  have lifted := lifted.after leads ranks
  have attached : RanksTo limit final (withTraits traits attach) rank₂ b₂ fun _ _ _ => True := by
    cases traits with
    | none => exact .pure h.ranked.tree trivial
    | some i =>
      obtain ⟨-, rank_eq⟩ := lifted i rfl
      exact .of_ok (p := attach i) fun run _ => ⟨_, attach_ranks h.ranked (by omega) run, trivial⟩
  refine attached.bind fun leads ranks _ => ?_
  have body : Lockstep (.known final) Eq (within .shapeBody shapeBody) (within .shapeBody shapeBody) :=
    inferInstance
  exact ((h.after leads ranks).lockstep (by omega) body).mono fun _ => trivial

theorem shapeOrApplyStatement_ranks (h : Place limit rank b 3 2) (known : Known final docs) :
    RanksTo limit final (shapeOrApplyStatement docs) rank b fun docs _ _ => Known final docs := by
  have ended {rank₁ : NodeId → Nat} {b₁ : Buffer} (h : Place limit rank₁ b₁ 3 2) :
      RanksTo limit final endStatement rank₁ b₁ fun docs _ _ => Known final docs :=
    known_of_lockstep h (by omega) endStatement_lockstep
  have fits := h.fits
  unfold shapeOrApplyStatement
  refine .bind (.ask (g := Buffer.current) (Q := fun _ _ _ => True) h.ranked.tree trivial) fun leads ranks _ => ?_
  have h := h.after leads ranks
  refine .ite (fun _ => known_of_lockstep h (by omega) whitespaceUpToDocs_lockstep) fun _ => ?_
  refine .bind (detachedTraits_ranks h) fun {traits rank₂ b₂} leads ranks lifted => ?_
  have h := h.after leads ranks
  refine .bind (.ask (g := (·.isAtKeyword "apply")) (Q := fun _ _ _ => True) h.ranked.tree trivial)
    fun leads ranks _ => ?_
  have h := h.after leads ranks
  have lifted := lifted.after leads ranks
  refine .ite (fun _ => ?apply) fun _ => ?_
  case apply =>
    refine .bind (misplaced_ranks h lifted _) fun leads ranks _ => ?_
    have h := h.after leads ranks
    have statement : Lockstep (.known final) Eq (within .shapeOrApplyStatement applyStatement)
        (within .shapeOrApplyStatement applyStatement) := inferInstance
    exact (h.lockstep (by omega) statement).bind fun leads ranks _ => ended (h.after leads ranks)
  refine .bind (.ask (g := (·.isAt .identifier)) (Q := fun _ _ _ => True) h.ranked.tree trivial)
    fun leads ranks _ => ?_
  have h := h.after leads ranks
  have lifted := lifted.after leads ranks
  refine .ite (fun _ => ?shape) fun _ => .ite (fun _ => ?dangling) fun _ => ?other
  case shape =>
    refine .bind (within_ranks (n := 3) h (by omega) (by omega) fun {rank₁ b₁} h kept size => ?_)
      fun leads ranks _ => ended (h.after leads ranks)
    refine shapeStatement_ranks h known fun i among => ?_
    obtain ⟨made, rank_eq⟩ := lifted i among
    exact ⟨Nat.lt_of_lt_of_le made size, (kept i made).trans rank_eq⟩
  case dangling => exact (misplaced_ranks h lifted _).bind fun _ ranks _ => .pure ranks.tree nofun
  case other =>
    have statement : Lockstep (.known final) Eq (within .shapeOrApplyStatement do fail (.noStatement (← current)))
        (within .shapeOrApplyStatement do fail (.noStatement (← current))) := inferInstance
    exact (h.lockstep (by omega) statement).bind fun _ ranks _ => .pure ranks.tree nofun

theorem shapeStatements_ranks (h : Place limit rank b 2 1) (known : Known final docs) :
    RanksTo limit final (shapeStatements docs) rank b fun _ _ _ => True := by
  unfold shapeStatements
  refine within_ranks (n := 2) h (by omega) (by omega) fun {rank₁ b₁} h _ _ => ?_
  refine .bind (.foldWhile (I := Known final) h.ranked (fun {docs rank' b'} known leads stack ranked => ?_) known)
    fun _ ranks _ => .pure ranks.tree trivial
  exact shapeOrApplyStatement_ranks ⟨leads.maxDepth ▸ h.limit_eq, stack ▸ h.count_eq, h.fits, ranked⟩ known

theorem shapeSection_ranks (h : Place limit rank b 1 0) :
    RanksTo limit final shapeSection rank b fun _ _ _ => True := by
  unfold shapeSection
  refine .bind (.ask (g := Buffer.hasNext) (Q := fun _ _ _ => True) h.ranked.tree trivial) fun leads ranks _ => ?_
  have h := h.after leads ranks
  refine .ite (fun _ => within_ranks (n := 1) h (by omega) (by omega) fun h _ _ => ?_) fun _ =>
    .pure h.ranked.tree trivial
  refine (known_of_lockstep h (by omega) namespaceOrError_lockstep).bind fun leads ranks known => ?_
  have h := h.after leads ranks
  refine (known_of_lockstep h (by omega) (useSection_lockstep known.rel)).bind fun leads ranks known => ?_
  exact shapeStatements_ranks (h.after leads ranks) known

theorem model_ranks (h : Place limit rank b 1 0) : RanksTo limit final model rank b fun _ _ _ => True := by
  have plain {p : Parser Unit} {rank₁ : NodeId → Nat} {b₁ : Buffer} (h : Place limit rank₁ b₁ 1 0)
      (same : Lockstep (.known final) Eq p p) : RanksTo limit final p rank₁ b₁ fun _ _ _ => True :=
    (h.lockstep (by omega) same).mono fun _ => trivial
  unfold model
  refine (plain h inferInstance).bind fun leads ranks _ => ?_
  have h := h.after leads ranks
  refine (plain h inferInstance).bind fun leads ranks _ => ?_
  have h := h.after leads ranks
  refine (plain h inferInstance).bind fun leads ranks _ => ?_
  have h := h.after leads ranks
  exact (shapeSection_ranks h).bind fun leads ranks _ => plain (h.after leads ranks) inferInstance

end

theorem ofText_place (filename text : String) (maxDepth : Nat) :
    Place (max maxDepth 1) (fun _ => 0) (.ofText filename text maxDepth) 1 0 where
  limit_eq := rfl
  count_eq := rfl
  fits := Nat.le_max_right ..
  ranked :=
    { tree :=
        { links := fun {i p} above => by
            obtain rfl : i = 0 := Nat.lt_one_iff.mp (SyntaxTree.lt_size_of_parent? above)
            cases above
          whitespace := fun {i} found => by
            obtain ⟨rfl, -⟩ := SyntaxTree.tag?_new found
            cases found
          high := fun _ => Nat.zero_le _ }
      made := Nat.zero_lt_one
      innermost := Nat.le_refl 0 }

end Grammar

/-! ### Parsed files -/

/-- The buffers of a run, from `b` on. -/
def Traced.moments {α : Type} (p : Traced α) (b : Buffer) : List Buffer := b :: (p b).1

/-- The level of a node; that of the root is 1. -/
def SyntaxTree.level (t : SyntaxTree) (i : NodeId) : Nat := (t.ancestors i).length + 1

/-- The grammar can be run step by step. However this is done, no more than two nodes beyond the limit are open at any
    moment. No node of the tree lies more than five levels below the limit, so a dump goes down that many levels at most,
    and has all lines. -/
theorem parse_nests (filename text : String) (maxDepth : Nat) :
    (∃ p : Traced Unit, p.Stepwise ∧ p.parser = Grammar.model) ∧
    (∀ p : Traced Unit, p.Stepwise → p.parser = Grammar.model →
      ∀ b ∈ p.moments (.ofText filename text maxDepth), b.openNodes.length ≤ max maxDepth 1 + 2) ∧
    ∃ m, parse filename text maxDepth = .ok m ∧
      (∀ i < m.tree.size, m.tree.level i ≤ max maxDepth 1 + 5) ∧
      ∃ lines, m.read (Reading.dumpLines (max maxDepth 1 + 5) 0 SyntaxTree.root) = .ok lines ∧
        m.dump = .ok (String.join (lines.map (· ++ "\n"))) ∧
        ∀ n ≥ max maxDepth 1 + 5, m.read (Reading.dumpLines n 0 SyntaxTree.root) = .ok lines := by
  refine ⟨?steps, fun p stepwise _ b among => ?moments, ?tree⟩
  case steps =>
    obtain ⟨p, traces⟩ := (Grammar.model_lockstep (M := .self) trivial trivial).exists_traces
    exact ⟨p, traces.stepwise, traces.parser⟩
  case moments =>
    have start : (Buffer.ofText filename text maxDepth).openNodes.length ≤ max maxDepth 1 := Nat.le_max_right ..
    rcases List.mem_cons.mp among with rfl | among
    · exact Nat.le_add_right_of_le start
    · exact stepwise.nests _ start b among
  case tree =>
    obtain ⟨b, F, L, run, finished, -⟩ := Grammar.model_run filename text maxDepth
    have ranking : RanksTo _ b _ _ _ _ := Grammar.model_ranks (Grammar.ofText_place filename text maxDepth)
    rw [RanksTo, run] at ranking
    obtain ⟨rank, ranks, -⟩ := ranking (.refl b)
    have ranked := ranks.tree
    have stands := finished.stands
    have root : SyntaxTree.root < b.tree.size := by
      obtain ⟨kept, node⟩ := finished.root_node
      exact (Array.getElem?_eq_some_iff.mp node).1
    refine ⟨_, parse_of_run run finished.finish, fun i made => ?_, ?_⟩
    · have above := ranked.length_ancestors_le i
      have high := ranked.high made
      change (b.tree.ancestors i).length + 1 ≤ _
      omega
    · have cut {n : Nat} (enough : max maxDepth 1 + 5 ≤ n) : Reading.dumpLines n 0 SyntaxTree.root b.tree =
          Reading.dumpLines (max maxDepth 1 + 5) 0 SyntaxTree.root b.tree :=
        stands.dumpLines_eq (fun above => (ranked.links above).2) (fun made => Nat.lt_succ_of_le (ranked.high made)) root
          (by omega) (by omega) 0 (.refl _)
      have whole : Reading.dumpLines b.tree.size 0 SyntaxTree.root b.tree =
          Reading.dumpLines (max maxDepth 1 + 5) 0 SyntaxTree.root b.tree := by
        rw [← cut (Nat.le_add_left _ b.tree.size)]
        have deeper {i p : NodeId} (above : b.tree.parent? i = some p) :
            (b.tree.ancestors p).length < (b.tree.ancestors i).length := by
          rw [stands.ancestors_of_some above]
          exact Nat.lt_succ_self _
        exact stands.dumpLines_eq deeper stands.length_ancestors root (by omega) (by omega) 0 (.refl _)
      obtain ⟨lines, t, read, -⟩ := finished.sound_all.dumpLines (max maxDepth 1 + 5) 0 root b.tree .refl
      have reads {n : Nat} (same : Reading.dumpLines n 0 SyntaxTree.root b.tree =
          Reading.dumpLines (max maxDepth 1 + 5) 0 SyntaxTree.root b.tree) :
          (Reading.dumpLines n 0 SyntaxTree.root).run' b.tree = .ok lines := by
        change (Reading.dumpLines n 0 SyntaxTree.root b.tree >>= fun r => pure r.1) = _
        rw [same, read]
        rfl
      refine ⟨lines, reads rfl, ?_, fun n enough => reads (cut enough)⟩
      change ((do return String.join ((← Reading.dumpLines b.tree.size 0 SyntaxTree.root).map (· ++ "\n")) :
        Reading String) b.tree >>= fun r => pure r.1) = _
      rw [SyntaxTree.bind_of_ok (whole.trans read)]
      rfl

end SmithyIdl
