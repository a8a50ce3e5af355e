import SmithyIdl.Proofs.Buffer.Lockstep
import SmithyIdl.Proofs.Buffer.Scopes
import SmithyIdl.Proofs.Tree.Ranks

/-! # Ranks on the way

A parser ranks the nodes that it makes, by how many nodes are open around them. Only the nodes that are moved have to be
ranked higher: documentation comments, which can be moved to any place where nodes may be opened, and the traits of a
statement. -/

namespace SmithyIdl

open SmithyIdl.Parser (Recovery Closed Steady KeepsOpen Unfailing)

namespace Buffer

/-- All nodes are ranked, the innermost open one at most `high`. -/
structure Ranked (limit : Nat) (rank : NodeId → Nat) (high : Nat) (b : Buffer) : Prop where
  tree : b.tree.Ranked limit rank
  made : b.innermost < b.tree.size
  innermost : rank b.innermost ≤ high

/-- The ranks of nodes that were there are kept, and so are the open nodes. -/
structure Ranks (limit : Nat) (rank rank' : NodeId → Nat) (b b' : Buffer) : Prop where
  tree : b'.tree.Ranked limit rank'
  kept : ∀ i < b.tree.size, rank' i = rank i
  openNodes : b'.openNodes = b.openNodes

variable {limit high : Nat} {rank rank' rank'' : NodeId → Nat} {b b' b'' : Buffer}

theorem innermost_of_openNodes (same : b'.openNodes = b.openNodes) : b'.innermost = b.innermost := by
  rw [innermost, innermost, same]

namespace Ranks

theorem refl (h : b.tree.Ranked limit rank) : Ranks limit rank rank b b := ⟨h, fun _ _ => rfl, rfl⟩

theorem trans (leads : b.Leads b') (h : Ranks limit rank rank' b b') (h' : Ranks limit rank' rank'' b' b'') :
    Ranks limit rank rank'' b b'' where
  tree := h'.tree
  kept i made := (h'.kept i (Nat.lt_of_lt_of_le made leads.tree.size)).trans (h.kept i made)
  openNodes := h'.openNodes.trans h.openNodes

theorem ranked (leads : b.Leads b') (h : Ranks limit rank rank' b b') (before : b.Ranked limit rank high) :
    b'.Ranked limit rank' high := by
  have same := innermost_of_openNodes h.openNodes
  refine ⟨h.tree, ?_, ?_⟩
  · rw [same]
    exact Nat.lt_of_lt_of_le before.made leads.tree.size
  · rw [same, h.kept _ before.made]
    exact before.innermost

end Ranks

end Buffer

/-! ### Steps -/

namespace Parser

variable {α β σ : Type} {limit high : Nat} {rank : NodeId → Nat} {b b' : Buffer}

open Buffer (Ranks)

/-- The ranks with a new one. -/
def rerank (rank : NodeId → Nat) (i : NodeId) (new : Nat) : NodeId → Nat := fun j => if j = i then new else rank j

theorem rerank_self (i : NodeId) (new : Nat) : rerank rank i new i = new := if_pos rfl

theorem rerank_of_lt {i j n : Nat} (lt : j < i) : rerank rank i n j = rank j := if_neg (Nat.ne_of_lt lt)

/-- A new node that is put into another one. -/
theorem append_new {t t' : SyntaxTree} {p : NodeId} {content : NodeContent} {new : Nat} (h : t.Ranked limit rank)
    (run : (t.add content).2.append p t.size = .ok t') (made : p < t.size) (lower : rank p < new)
    (bound : new ≤ limit + 4)
    (whitespace : ∀ children, content = .branch (.plain .whitespace) children → new = limit + 2) :
    t'.Ranked limit (rerank rank t.size new) := by
  have added : (t.add content).2.Ranked limit (rerank rank t.size new) := by
    refine h.add (fun i old => rerank_of_lt old) (fun children same => ?_) ?_
    · rw [rerank_self]
      exact whitespace children same
    · rw [rerank_self]
      exact bound
  refine added.append run ?_
  rw [rerank_self, rerank_of_lt made]
  exact lower

theorem shift_ranks (ranked : b.Ranked limit rank high) (bound : high ≤ limit + 3) (run : shift.run b = .ok () b') :
    ∃ rank', Ranks limit rank rank' b b' := by
  obtain ⟨-, t, edit, rfl⟩ := shift_ok run
  refine ⟨rerank rank b.tree.size (rank b.innermost + 1), ?_, fun i made => rerank_of_lt made, rfl⟩
  have innermost := ranked.innermost
  exact append_new ranked.tree edit ranked.made (Nat.lt_succ_self _) (by omega) nofun

theorem openNode_ranks {kind : TreeKind} {node : NodeId} {new : Nat} (ranked : b.Ranked limit rank high)
    (lower : high < new) (bound : new ≤ limit + 4) (whitespace : kind = .whitespace → new = limit + 2)
    (run : (openNode kind).run b = .ok node b') :
    ∃ rank', b'.Ranked limit rank' new ∧ (∀ i < b.tree.size, rank' i = rank i) ∧ rank' node = new := by
  have stack := KeepsOpen.openNode_ok run
  unfold openNode at run
  obtain ⟨_, b₁, made, run⟩ := bind_eq_ok.mp run
  obtain ⟨t, edit, rfl⟩ := onTree_ok made
  cases edit
  obtain ⟨_, b₂, attached, run⟩ := bind_eq_ok.mp run
  obtain ⟨t, edit, rfl⟩ := attach_ok attached
  cases run
  refine ⟨rerank rank b.tree.size new, ⟨?_, ?_, ?_⟩, fun i old => rerank_of_lt old, rerank_self _ _⟩
  · refine append_new ranked.tree edit ranked.made (Nat.lt_of_le_of_lt ranked.innermost lower) bound fun children same => whitespace ?_
    cases same
    rfl
  · change b.tree.size < t.size
    rw [SyntaxTree.size_append edit]
    exact (SyntaxTree.size_add (t := b.tree) (.branch (.plain kind) #[])) ▸ Nat.lt_succ_self _
  · exact Nat.le_of_eq (rerank_self _ _)

theorem addError_ranks {mark : Mark} {node : NodeId} {new : Nat} (ranked : b.Ranked limit rank high) (lower : high < new)
    (bound : new ≤ limit + 4) (run : (addError mark).run b = .ok node b') :
    ∃ rank', Ranks limit rank rank' b b' ∧ node < b'.tree.size ∧ rank' node = new := by
  unfold addError at run
  obtain ⟨_, b₁, counted, run⟩ := bind_eq_ok.mp run
  cases counted
  obtain ⟨_, b₁, made, run⟩ := bind_eq_ok.mp run
  obtain ⟨t, edit, rfl⟩ := onTree_ok made
  cases edit
  obtain ⟨_, b₂, attached, run⟩ := bind_eq_ok.mp run
  obtain ⟨t, edit, rfl⟩ := attach_ok attached
  cases run
  refine ⟨rerank rank b.tree.size new, ⟨?_, fun i old => rerank_of_lt old, rfl⟩, ?_, rerank_self _ _⟩
  · exact append_new ranked.tree edit ranked.made (Nat.lt_of_le_of_lt ranked.innermost lower) bound nofun
  · change b.tree.size < t.size
    rw [SyntaxTree.size_append edit]
    exact (SyntaxTree.size_add (t := b.tree) (.branch (.error mark) #[])) ▸ Nat.lt_succ_self _

theorem attach_ranks {d : NodeId} (ranked : b.Ranked limit rank high) (lower : high < rank d)
    (run : (attach d).run b = .ok () b') : Ranks limit rank rank b b' := by
  obtain ⟨t, edit, rfl⟩ := attach_ok run
  exact ⟨ranked.tree.append edit (Nat.lt_of_le_of_lt ranked.innermost lower), fun _ _ => rfl, rfl⟩

theorem detach_ranks {d : NodeId} (ranked : b.tree.Ranked limit rank) (run : (detach d).run b = .ok () b') :
    Ranks limit rank rank b b' := by
  have stack := KeepsOpen.ok run
  unfold detach at run
  obtain ⟨parent, b₁, found, run⟩ := bind_eq_ok.mp run
  obtain ⟨t, read, rfl⟩ := onTree_ok found
  have same := SyntaxTree.Still.keeps (r := Reading.parent? d) read
  cases parent with
  | none =>
    cases run
    exact ⟨ranked.alike same, fun _ _ => rfl, rfl⟩
  | some p =>
    obtain ⟨_, b₂, removed, run⟩ := bind_eq_ok.mp run
    obtain ⟨t', edit, rfl⟩ := onTree_ok removed
    cases run
    exact ⟨(ranked.alike same).remove edit, fun _ _ => rfl, rfl⟩

theorem encloseInError_ranks {d : NodeId} {problem : Problem} {n : Nat} (ranked : b.Ranked limit rank high)
    (lower : high < n) (below : n < rank d) (made : d < b.tree.size) (bound : n ≤ limit + 4)
    (run : (encloseInError d problem).run b = .ok () b') : ∃ rank', Ranks limit rank rank' b b' := by
  unfold encloseInError at run
  obtain ⟨start, b₁, first, run⟩ := bind_eq_ok.mp run
  obtain ⟨t₁, read, rfl⟩ := onTree_ok first
  obtain ⟨range, b₂, second, run⟩ := bind_eq_ok.mp run
  obtain ⟨t₂, read', rfl⟩ := onTree_ok second
  have same := (SyntaxTree.Still.keeps (r := Reading.start d) read).trans
    (SyntaxTree.Still.keeps (r := Reading.range d) read')
  have ranked' : Buffer.Ranked limit rank high { b with tree := t₂ } :=
    ⟨ranked.tree.alike same, same.size_eq ▸ ranked.made, ranked.innermost⟩
  obtain ⟨error, b₃, added, run⟩ := bind_eq_ok.mp run
  obtain ⟨rank', ranks, -, fresh⟩ := addError_ranks ranked' lower bound added
  obtain ⟨t₃, edit, rfl⟩ := onTree_ok run
  have kept : ∀ i < b.tree.size, rank' i = rank i := fun i old => ranks.kept i (same.size_eq ▸ old)
  cases appended : b₃.tree.append error d with
  | error why =>
    rw [appended] at edit
    cases edit
  | ok t =>
    rw [appended] at edit
    cases edit
    refine ⟨rank', ranks.tree.append appended ?_, kept, ranks.openNodes⟩
    rw [fresh, kept d made]
    exact below

/-! ### Runs -/

/-- Behind a run towards `final` all nodes are ranked, and what it gives is as `Q` says. -/
def Ranking (limit : Nat) (final : Buffer) (rank : NodeId → Nat) (b : Buffer) (Q : α → (NodeId → Nat) → Buffer → Prop) :
    Outcome α → Prop
  | .ok a b' => b'.Leads final → ∃ rank', Ranks limit rank rank' b b' ∧ Q a rank' b'
  | .error _ b' => b'.Leads final → ∃ rank', Ranks limit rank rank' b b'
  | .fault _ => True

/-- On a run towards `final` the parser ranks the nodes that it makes. -/
def RanksTo (limit : Nat) (final : Buffer) (p : Parser α) (rank : NodeId → Nat) (b : Buffer)
    (Q : α → (NodeId → Nat) → Buffer → Prop) : Prop := Ranking limit final rank b Q (p.run b)

section
variable {final : Buffer} {p : Parser α} {f : α → Parser β} {Q Q' : α → (NodeId → Nat) → Buffer → Prop}
  {S : β → (NodeId → Nat) → Buffer → Prop}

/-- What was ranked before stays so. -/
theorem Ranking.after {rank₁ : NodeId → Nat} {b₁ : Buffer} {o : Outcome α} (leads : b.Leads b₁)
    (ranks : Ranks limit rank rank₁ b b₁) (h : Ranking limit final rank₁ b₁ Q o) : Ranking limit final rank b Q o := by
  cases o with
  | ok a b₂ =>
    intro ends
    obtain ⟨rank₂, ranks', q⟩ := h ends
    exact ⟨rank₂, ranks.trans leads ranks', q⟩
  | error e b₂ =>
    intro ends
    obtain ⟨rank₂, ranks'⟩ := h ends
    exact ⟨rank₂, ranks.trans leads ranks'⟩
  | fault why => trivial

/-- Where a run does not lead to the final buffer, nothing is said of it. -/
theorem Ranking.of_leads {o : Outcome α} (h : ∀ {b'}, o.buffer? = some b' → b'.Leads final →
    Ranking limit final rank b Q o) : Ranking limit final rank b Q o := by
  cases o with
  | ok a b' => exact fun ends => h rfl ends ends
  | error e b' => exact fun ends => h rfl ends ends
  | fault why => trivial

namespace RanksTo

theorem of_ok [Unfailing p] (h : ∀ {a b'}, p.run b = .ok a b' → b'.Leads final →
    ∃ rank', Ranks limit rank rank' b b' ∧ Q a rank' b') : RanksTo limit final p rank b Q := by
  rw [RanksTo]
  cases run : p.run b with
  | ok a b' => exact h run
  | error e b' => exact absurd run Unfailing.not_error
  | fault why => trivial

theorem pure {a : α} (ranked : b.tree.Ranked limit rank) (h : Q a rank b) :
    RanksTo limit final (Pure.pure a) rank b Q := fun _ => ⟨rank, .refl ranked, h⟩

theorem ask {g : Buffer → α} (ranked : b.tree.Ranked limit rank) (h : Q (g b) rank b) :
    RanksTo limit final (Parser.ask g) rank b Q := fun _ => ⟨rank, .refl ranked, h⟩

theorem fail {problem : Problem} (ranked : b.tree.Ranked limit rank) :
    RanksTo limit final (Parser.fail problem : Parser α) rank b Q := fun _ => ⟨rank, .refl ranked⟩

theorem mono (h : RanksTo limit final p rank b Q) (imp : ∀ {a rank' b'}, Q a rank' b' → Q' a rank' b') :
    RanksTo limit final p rank b Q' := by
  rw [RanksTo] at h ⊢
  cases run : p.run b with
  | ok a b' =>
    rw [run] at h
    intro ends
    obtain ⟨rank', ranks, q⟩ := h ends
    exact ⟨rank', ranks, imp q⟩
  | error e b' =>
    rw [run] at h
    exact h
  | fault why => trivial

theorem bind [Steady p] [∀ a, Steady (f a)] (h : RanksTo limit final p rank b Q)
    (next : ∀ {a rank' b'}, b.Leads b' → Ranks limit rank rank' b b' → Q a rank' b' →
      RanksTo limit final (f a) rank' b' S) : RanksTo limit final (p >>= f) rank b S := by
  rw [RanksTo] at h ⊢
  rw [run_bind]
  cases run : p.run b with
  | ok a b₁ =>
    rw [run] at h
    have before := Steady.ok run
    refine .of_leads fun left ends => ?_
    obtain ⟨rank₁, ranks, q⟩ := h ((Steady.leads (p := f a) left).trans ends)
    exact .after before ranks (next before ranks q)
  | error e b₁ =>
    rw [run] at h
    exact h
  | fault why => trivial

theorem ite {c : Prop} [Decidable c] {q : Parser α} (yes : c → RanksTo limit final p rank b Q)
    (no : ¬ c → RanksTo limit final q rank b Q) : RanksTo limit final (if c then p else q) rank b Q := by
  by_cases h : c
  · rw [if_pos h]
    exact yes h
  · rw [if_neg h]
    exact no h

/-- The rounds of a repetition find the same node open, at the same rank. -/
theorem foldBelow {I : σ → Prop} {more : σ → Buffer → Bool} {round : σ → Parser σ} [∀ s, Steady (round s)]
    (rounds : ∀ {s rank' b'}, I s → b.Leads b' → b'.openNodes = b.openNodes → b'.Ranked limit rank' high →
      RanksTo limit final (round s) rank' b' fun s _ _ => I s) {left : Nat} {s : σ} {rank₁ : NodeId → Nat} {b₁ : Buffer}
    (known : I s) (leads : b.Leads b₁) (same : b₁.openNodes = b.openNodes) (ranked : b₁.Ranked limit rank₁ high) :
    Ranking limit final rank₁ b₁ (fun s _ _ => I s) (Parser.foldBelow more round left s b₁) := by
  induction left using Nat.strongRecOn generalizing s rank₁ b₁ with
  | ind left ih =>
    rw [Parser.foldBelow]
    by_cases go : more s b₁ = true
    · rw [if_pos go]
      have here := rounds known leads same ranked
      rw [RanksTo, Parser.run] at here
      cases taken : round s b₁ with
      | ok s₁ after =>
        rw [taken] at here
        by_cases fewer : after.remaining < left
        · simp only [fewer, if_true]
          have before := Steady.ok (p := round s) taken
          refine .of_leads fun left ends => ?_
          obtain ⟨rank₂, ranks, known₁⟩ := here ((Steady.leads_foldBelow left).trans ends)
          exact .after before ranks (ih _ fewer known₁ (leads.trans before) (ranks.openNodes.trans same)
            (ranks.ranked before ranked))
        · simp only [fewer, if_false]
          trivial
      | error e after =>
        rw [taken] at here
        exact here
      | fault why => trivial
    · rw [if_neg go]
      exact fun _ => ⟨rank₁, .refl ranked.tree, known⟩

theorem foldWhile {I : σ → Prop} {more : σ → Buffer → Bool} {round : σ → Parser σ} [∀ s, Steady (round s)]
    (ranked : b.Ranked limit rank high)
    (rounds : ∀ {s rank' b'}, I s → b.Leads b' → b'.openNodes = b.openNodes → b'.Ranked limit rank' high →
      RanksTo limit final (round s) rank' b' fun s _ _ => I s) {s : σ} (start : I s) :
    RanksTo limit final (Parser.foldWhile more round s) rank b fun s _ _ => I s :=
  foldBelow rounds start (.refl b) rfl ranked

theorem shift (ranked : b.Ranked limit rank high) (bound : high ≤ limit + 3) :
    RanksTo limit final Parser.shift rank b fun _ _ _ => True :=
  .of_ok fun run _ => by
    obtain ⟨rank', ranks⟩ := shift_ranks ranked bound run
    exact ⟨rank', ranks, trivial⟩

theorem shiftWhile {kinds : Token → Bool} (ranked : b.Ranked limit rank high) (bound : high ≤ limit + 3) :
    RanksTo limit final (Parser.shiftWhile kinds) rank b fun _ _ _ => True :=
  .foldWhile ranked (fun _ _ _ ranked' => .shift ranked' bound) trivial

theorem recover (recovery : Recovery) (ranked : b.Ranked limit rank high) (bound : high ≤ limit + 3) :
    RanksTo limit final (Parser.recover recovery) rank b fun _ _ _ => True := by
  have taken (kinds : Token → Bool) : RanksTo limit final (Parser.shiftWhile kinds) rank b fun _ _ _ => True :=
    .shiftWhile ranked bound
  unfold Parser.recover
  cases recovery with
  | statement => exact taken _
  | endOfText => exact taken _
  | none => exact .pure ranked.tree trivial

/-- The tokens of the recovery are ranked above the error node, which is ranked above the node that is open. -/
theorem report (e : SyntaxError) (recovery : Recovery) (ranked : b.Ranked limit rank high) (bound : high ≤ limit + 2) :
    RanksTo limit final (Parser.report e recovery) rank b fun _ _ _ => True :=
  .of_ok fun {_ b'} run _ => by
    have stack : b'.openNodes = b.openNodes := KeepsOpen.ok run
    unfold Parser.report at run
    obtain ⟨node, b₁, added, run⟩ := bind_eq_ok.mp run
    obtain ⟨next, b₂, asked, run⟩ := bind_eq_ok.mp run
    cases asked
    obtain ⟨rank₁, ranks₁, made, fresh⟩ := addError_ranks ranked (Nat.lt_succ_self high) (by omega) added
    rw [run_ite] at run
    split at run
    · obtain ⟨_, b₂, pushed, run⟩ := bind_eq_ok.mp run
      obtain ⟨_, b₃, shifted, run⟩ := bind_eq_ok.mp run
      obtain ⟨_, b₄, recovered, popped⟩ := bind_eq_ok.mp run
      cases pushed
      cases popped
      have ranked₂ : Buffer.Ranked limit rank₁ (high + 1) { b₁ with openNodes := node :: b₁.openNodes } :=
        ⟨ranks₁.tree, made, Nat.le_of_eq fresh⟩
      obtain ⟨rank₃, ranks₃⟩ := shift_ranks ranked₂ (by omega) shifted
      have leads₃ := Steady.ok shifted
      have rest : RanksTo limit b₄ (Parser.recover recovery) rank₃ b₃ fun _ _ _ => True :=
        .recover recovery (ranks₃.ranked leads₃ ranked₂) (by omega)
      rw [RanksTo, recovered] at rest
      obtain ⟨rank₄, ranks₄, -⟩ := rest (.refl b₄)
      refine ⟨rank₄, ⟨ranks₄.tree, fun i old => ?_, stack⟩, trivial⟩
      have old₁ : i < b₁.tree.size := Nat.lt_of_lt_of_le old (Steady.ok added).tree.size
      rw [(ranks₃.trans leads₃ ranks₄).kept i old₁, ranks₁.kept i old]
    · cases run
      exact ⟨rank₁, ranks₁, trivial⟩

theorem reportMissing {problem : Problem} (ranked : b.Ranked limit rank high) (bound : high ≤ limit + 3) :
    RanksTo limit final (Parser.reportMissing problem) rank b fun _ _ _ => True :=
  .of_ok fun run _ => by
    obtain ⟨e, b₁, asked, run⟩ := bind_eq_ok.mp run
    cases asked
    obtain ⟨node, b₂, added, done⟩ := bind_eq_ok.mp run
    cases done
    obtain ⟨rank', ranks, -⟩ := addError_ranks ranked (Nat.lt_succ_self high) (by omega) added
    exact ⟨rank', ranks, trivial⟩

/-- A failure is reported, so it does not matter where it happens. -/
theorem recovering [Steady p] (recovery : Recovery) (ranked : b.Ranked limit rank high) (bound : high ≤ limit + 2)
    (h : RanksTo limit final p rank b Q) : RanksTo limit final (Parser.recovering recovery p) rank b
      fun r rank' b' => ∀ a ∈ r, Q a rank' b' :=
  .of_ok fun {r b'} run ends => by
    rw [RanksTo] at h
    rcases recovering_ok run with ⟨a, rfl, inner⟩ | ⟨rfl, e, b₁, failed, reported⟩
    · rw [inner] at h
      obtain ⟨rank', ranks, q⟩ := h ends
      refine ⟨rank', ranks, ?_⟩
      rintro _ ⟨⟩
      exact q
    · rw [failed] at h
      have leads := Steady.error failed
      obtain ⟨rank₁, ranks⟩ := h ((Steady.ok reported).trans ends)
      have rest : RanksTo limit final (Parser.report e recovery) rank₁ b₁ fun _ _ _ => True :=
        .report e recovery (ranks.ranked leads ranked) bound
      rw [RanksTo, reported] at rest
      obtain ⟨rank₂, ranks', -⟩ := rest ends
      exact ⟨rank₂, ranks.trans leads ranks', nofun⟩

theorem limited (ranked : b.tree.Ranked limit rank) (h : b.isTooDeep = false → RanksTo limit final p rank b Q) :
    RanksTo limit final (Parser.limited p) rank b Q := by
  change RanksTo limit final (if b.isTooDeep = true then Parser.fail .tooDeep else p) rank b Q
  exact .ite (fun _ => .fail ranked) fun fits => h (eq_false_of_ne_true fits)

/-- What runs in a scope finds one more node open, of the rank that is chosen for it. -/
theorem scope [Steady p] {V : α → Prop} {kind : TreeKind} {recovery : Recovery} {n : Nat}
    (ranked : b.Ranked limit rank high) (lower : high < n) (bound : n ≤ limit + 2)
    (whitespace : kind = .whitespace → n = limit + 2)
    (h : ∀ {rank' b' node}, b.Leads b' → b'.openNodes = node :: b.openNodes → b'.Ranked limit rank' n →
      (∀ i < b.tree.size, rank' i = rank i) → b'.isTooDeep = false → RanksTo limit final p rank' b' fun a _ _ => V a) :
    RanksTo limit final (Parser.scope kind p recovery) rank b fun r rank' b' =>
      final.tree.tag? r.node = some (.inr (.plain kind)) ∧ r.node < b'.tree.size ∧ rank' r.node = n ∧
        ∀ a ∈ r.value, V a :=
  .of_ok fun {r b'} run ends => by
    unfold Parser.scope at run
    obtain ⟨node, b₁, opened, run⟩ := bind_eq_ok.mp run
    obtain ⟨value, b₂, caught, run⟩ := bind_eq_ok.mp run
    obtain ⟨_, b₃, closed, done⟩ := bind_eq_ok.mp run
    cases done
    have leads₁ := Steady.ok opened
    have leads₂ := Steady.ok caught
    have leads₃ := Steady.ok closed
    have stack₁ : b₁.openNodes = node :: b.openNodes := KeepsOpen.openNode_ok opened
    have tag := (((leads₂.trans leads₃).trans ends).tree.tag?_eq (openNode_ok opened).2.1)
    obtain ⟨rank₁, ranked₁, kept, fresh⟩ := openNode_ranks ranked lower (by omega) whitespace opened
    have made : node < b₁.tree.size := SyntaxTree.lt_size_of_tag? (openNode_ok opened).2.1
    have inside : RanksTo limit final (Parser.recovering recovery (Parser.limited p)) rank₁ b₁
        fun r _ _ => ∀ a ∈ r, V a :=
      .recovering recovery ranked₁ bound (.limited ranked₁.tree (h leads₁ stack₁ ranked₁ kept))
    rw [RanksTo, caught] at inside
    obtain ⟨rank₂, ranks, values⟩ := inside (leads₃.trans ends)
    rw [closeNode_ok closed]
    refine ⟨rank₂, ⟨ranks.tree, fun i old => ?_, ?_⟩, tag, Nat.lt_of_lt_of_le made leads₂.tree.size, ?_, values⟩
    · rw [ranks.kept i (Nat.lt_of_lt_of_le old leads₁.tree.size), kept i old]
    · change b₂.openNodes.tail = b.openNodes
      rw [ranks.openNodes, stack₁, List.tail_cons]
    · rw [ranks.kept node made, fresh]

theorem adoptDocs {d : NodeId} (ranked : b.Ranked limit rank high) (bound : high ≤ limit + 1)
    (docs : final.tree.tag? d = some (.inr (.plain .whitespace))) :
    RanksTo limit final (Parser.adoptDocs (some d)) rank b fun _ _ _ => True :=
  .of_ok fun {_ b'} run ends => by
    have leads := Steady.ok run
    unfold Parser.adoptDocs at run
    obtain ⟨n, b₁, asked, run⟩ := bind_eq_ok.mp run
    cases asked
    split at run
    · obtain ⟨_, b₁, taken, placed⟩ := bind_eq_ok.mp run
      have ranks := detach_ranks ranked.tree taken
      have leads₁ := Steady.ok taken
      have ranked₁ := ranks.ranked leads₁ ranked
      obtain ⟨t, edit, rfl⟩ := attach_ok placed
      have made : d < b₁.tree.size := (SyntaxTree.append_ok edit).2.1
      have tag : b₁.tree.tag? d = some (.inr (.plain .whitespace)) := by
        rw [← ((Steady.ok placed).trans ends).tree.tags d made]
        exact docs
      have lower : high < rank d := by
        rw [ranked₁.tree.whitespace tag]
        omega
      exact ⟨rank, ranks.trans leads₁ (attach_ranks ranked₁ lower placed), trivial⟩
    · cases run

end RanksTo

end

end Parser

/-! ### What is in lockstep -/

/-- Documentation comments are whitespace at the end. -/
def Buffer.IsDocs (final : Buffer) (i : NodeId) : Prop := final.tree.tag? i = some (.inr (.plain .whitespace))

/-- A run matched with itself, where documentation comments are known and nothing is taken out. -/
abbrev Matching.known (final : Buffer) : Matching := .alone final.IsDocs (fun _ => True) False False

namespace Lockstep

open SmithyIdl.Parser (RanksTo)

variable {α β : Type} {R : α → β → Prop} {p : Parser α} {q : Parser β}

/-- Where nodes may be opened, a parser in lockstep ranks those that it makes. By induction on the steps: an open node
    is ranked by the number of nodes that are open. -/
theorem ranksTo {final : Buffer} (h : Lockstep (.known final) R p q) {limit : Nat} {rank : NodeId → Nat}
    {b : Buffer} (same : limit = max b.maxDepth 1) (fits : b.openNodes.length ≤ limit)
    (ranked : b.Ranked limit rank (b.openNodes.length + 1)) :
    RanksTo limit final p rank b fun a _ _ => ∃ a', R a a' := by
  induction h generalizing rank b with
  | @pure α β R a a' h => exact .pure ranked.tree ⟨a', h⟩
  | @bind α β γ δ R S p q f g _ first next ih ihnext =>
    have := first.steady
    refine .bind (ih same fits ranked) fun {a rank' b'} leads ranks known => ?_
    obtain ⟨a', related⟩ := known
    have length := congrArg List.length ranks.openNodes
    exact ihnext a a' related (leads.maxDepth ▸ same) (length ▸ fits) (length ▸ ranks.ranked leads ranked)
  | @ask α β R f g h => exact .ask ranked.tree ⟨g b, h b b (Matching.alone_sees ..)⟩
  | room => exact .ask ranked.tree ⟨_, .inl rfl⟩
  | errorCount => exact .ask ranked.tree ⟨_, rfl⟩
  | fail => exact .fail ranked.tree
  | refused lenient => exact lenient.elim
  | shift => exact (RanksTo.shift ranked (by omega)).mono fun _ => ⟨(), rfl⟩
  | @foldWhile σ σ' S more more' round round' s s' _ start again rounds ih =>
    refine .foldWhile (I := fun s => ∃ s', S s s') ranked (fun {s rank' b'} known leads stack ranked' => ?_) ⟨s', start⟩
    obtain ⟨s', related⟩ := known
    have length := congrArg List.length stack
    exact ih s s' related (leads.maxDepth ▸ same) (length ▸ fits) (length ▸ ranked')
  | recovering inside recovery ih =>
    have := inside.steady
    refine (RanksTo.recovering recovery ranked (by omega) (ih same fits ranked)).mono fun {r _ _} known => ?_
    cases r with
    | none => exact ⟨none, .none⟩
    | some a =>
      obtain ⟨a', related⟩ := known a rfl
      exact ⟨some a', .some related⟩
  | @scope α β R p q kind other inside recovery ih =>
    have := inside.steady
    refine (RanksTo.scope (V := fun a => ∃ a', R a a') ranked (Nat.lt_succ_self _) (by omega)
      (fun here => absurd here other.ne) fun {rank' b' node} leads stack ranked' _ free => ?_).mono fun {r _ _} known => ?_
    · have length : b'.openNodes.length = b.openNodes.length + 1 := congrArg List.length stack
      have free : ¬ b'.maxDepth < b'.openNodes.length := of_decide_eq_false free
      have maxDepth := leads.maxDepth
      exact ih (leads.maxDepth ▸ same) (by omega) (length ▸ ranked')
    · obtain ⟨-, -, -, known⟩ := known
      obtain ⟨node, value⟩ := r
      cases value with
      | none => exact ⟨⟨node, none⟩, ⟨rfl, trivial⟩, .none⟩
      | some a =>
        obtain ⟨a', related⟩ := known a rfl
        exact ⟨⟨node, some a'⟩, ⟨rfl, trivial⟩, .some related⟩
  | docs kinds =>
    refine (RanksTo.scope (V := fun _ => True) (n := limit + 2) ranked (by omega) (Nat.le_refl _) (fun _ => rfl)
      fun _ _ ranked' _ _ => .shiftWhile ranked' (by omega)).mono fun {r _ _} known => ?_
    exact ⟨r, ⟨rfl, known.1⟩, by obtain ⟨node, _ | value⟩ := r <;> constructor; rfl⟩
  | reportMissing h => exact (RanksTo.reportMissing ranked (by omega)).mono fun _ => ⟨(), rfl⟩
  | adoptDocs docs => exact (RanksTo.adoptDocs ranked (by omega) docs.2).mono fun _ => ⟨(), rfl⟩
  | detach moves => exact moves.elim
  | attach moves => exact moves.elim
  | encloseInError moves => exact moves.elim

end Lockstep

end SmithyIdl
