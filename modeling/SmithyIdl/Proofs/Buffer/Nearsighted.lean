import SmithyIdl.Proofs.Buffer.Edits
import SmithyIdl.Proofs.Buffer.Respaced
import SmithyIdl.Proofs.Buffer.Scopes

/-! # Parsers that look no further than a brace

The looks of the grammar go past names, dots and trivia, and none goes past an opening brace, or past the sign of a
structure that is defined in place. So as long as a brace, or a name with such a sign, is still to come, a run without a
problem does not depend on what stands behind it: with other tokens there, the same steps are taken. -/

namespace SmithyIdl

open SmithyIdl.Parser (Steady Eats)

/-! ### Other tokens -/

/-- The same nodes over other tokens. -/
def SyntaxTree.withTokens (t : SyntaxTree) (tokens : Array Token) : SyntaxTree := { t with tokens }

/-- The same state over other tokens. -/
def Buffer.withTokens (b : Buffer) (tokens : Array Token) : Buffer := { b with tree := b.tree.withTokens tokens }

namespace SyntaxTree

variable {t u : SyntaxTree} {p d : NodeId} {ts : Array Token}

theorem climb_withTokens (n : Nat) (i : NodeId) : (t.withTokens ts).climb n i = t.climb n i := by
  induction n generalizing i with
  | zero => rfl
  | succ n ih => simp only [climb, ih, show (t.withTokens ts).parent? i = t.parent? i from rfl]

theorem ancestors_withTokens (i : NodeId) : (t.withTokens ts).ancestors i = t.ancestors i := climb_withTokens _ i

theorem forget_withTokens (i : NodeId) : (t.withTokens ts).forget i = (t.forget i).withTokens ts := by
  rw [forget, forget, ancestors_withTokens]
  generalize i :: t.ancestors i = l
  induction l generalizing t with
  | nil => rfl
  | cons j l ih => exact ih (t := t.modify j (Node.withCache none))

theorem link_withTokens : (t.withTokens ts).link p d = (t.link p d).withTokens ts :=
  forget_withTokens (t := (t.modify d (Node.withParent (some p))).modify p (Node.mapChildren (·.push d))) p

theorem unlink_withTokens : (t.withTokens ts).unlink p d = (t.unlink p d).withTokens ts :=
  forget_withTokens (t := (t.modify p (Node.mapChildren (·.erase d))).modify d (Node.withParent none)) p

theorem append_withTokens (run : t.append p d = .ok u) : (t.withTokens ts).append p d = .ok (u.withTokens ts) := by
  obtain ⟨inner, free, apart, rfl⟩ := append_eq_ok.mp run
  exact append_eq_ok.mpr ⟨inner, free, ancestors_withTokens p ▸ apart, link_withTokens.symm⟩

theorem remove_withTokens {found : Bool} (run : t.remove p d = .ok (found, u)) :
    (t.withTokens ts).remove p d = .ok (found, u.withTokens ts) := by
  rcases remove_eq_ok.mp run with ⟨among, rfl, rfl⟩ | ⟨among, rfl, rfl⟩
  · exact remove_eq_ok.mpr (.inl ⟨among, rfl, rfl⟩)
  · exact remove_eq_ok.mpr (.inr ⟨among, rfl, unlink_withTokens.symm⟩)

theorem parent?_withTokens {parent : Option NodeId} (read : (Reading.parent? d).run t = .ok (parent, u)) :
    (Reading.parent? d).run (t.withTokens ts) = .ok (parent, u.withTokens ts) := by
  change (Node.parent <$> Reading.node d) t = _ at read
  change (Node.parent <$> Reading.node d) (t.withTokens ts) = _
  simp only [Functor.map, StateT.map, Reading.node] at read ⊢
  cases found : t.nodes[d]? with
  | none =>
    rw [found] at read
    cases read
  | some n =>
    rw [found] at read
    cases read
    rw [show (t.withTokens ts).nodes[d]? = some n from found]
    rfl

end SyntaxTree

/-! ### The last token in common -/

namespace Buffer

variable {b b' : Buffer} {o : Nat} {ts : Array Token} {kinds : TokenKind → Bool}

/-- What comes at the last token that two texts have in common: an opening brace, or the name of a property that is
    defined in place, with the sign behind it. -/
inductive LastShared (ts ts' : Array Token) (o : Nat) : Prop where
  | brace (h : kindAt ts o = .lbrace)
  | name {s s' : Nat} (h : InlineSigns ts ts' o s s')

/-- The tokens `ts` are those of the buffer up to `o`, where an opening brace or a name comes. -/
structure SharesUpTo (b : Buffer) (o : Nat) (ts : Array Token) : Prop where
  same : ∀ i ≤ o, ts[i]? = b.tree.tokens[i]?
  last : LastShared b.tree.tokens ts o
  ends : b.EndsWithEof
  ends' : (b.withTokens ts).EndsWithEof

namespace SharesUpTo

theorem leads (h : b.SharesUpTo o ts) (leads : b.Leads b') : b'.SharesUpTo o ts where
  same := leads.tokens ▸ h.same
  last := leads.tokens ▸ h.last
  ends := leads.endsWithEof h.ends
  ends' := h.ends'

variable (h : b.SharesUpTo o ts)
include h

theorem kindAt_eq : kindAt ts o = kindAt b.tree.tokens o := by rw [kindAt, kindAt, h.same o (Nat.le_refl o)]

theorem not_eof : kindAt b.tree.tokens o ≠ .eof := by
  rcases h.last with brace | signs
  · rw [brace]
    decide
  · rw [signs.sign.name]
    decide

theorem left : o < b.eof := h.ends.lt_of_kindAt h.not_eof

theorem left' : o < (b.withTokens ts).eof := h.ends'.lt_of_kindAt (h.kindAt_eq ▸ h.not_eof)

theorem peek {k : Nat} (before : b.cursor + k ≤ o) : (b.withTokens ts).peek k = b.peek k := by
  have left : (b.withTokens ts).cursor + k ≤ (b.withTokens ts).eof := Nat.le_trans before (Nat.le_of_lt h.left')
  rw [Buffer.peek, Buffer.peek, Nat.min_eq_left (Nat.le_trans before (Nat.le_of_lt h.left)), Nat.min_eq_left left]
  exact congrArg (·.getD .nothing) (h.same _ before)

theorem hasNext (before : b.cursor ≤ o) : (b.withTokens ts).hasNext = b.hasNext := by
  rw [hasNext_iff.mpr (Nat.lt_of_le_of_lt before h.left)]
  exact hasNext_iff.mpr (Nat.lt_of_le_of_lt before h.left')

/-- A look sees the same, unless in both texts it goes past the last token in common. -/
theorem lookPast_cases {k : Nat} (kinds : TokenKind → Bool) (before : b.cursor + k ≤ o) :
    (b.withTokens ts).lookPast k kinds = b.lookPast k kinds ∨ kinds (kindAt b.tree.tokens o) = true ∧
      ∃ j, b.cursor + j = o + 1 ∧ b.lookPast k kinds = b.lookPast j kinds ∧
        (b.withTokens ts).lookPast k kinds = (b.withTokens ts).lookPast j kinds := by
  have left := Nat.lt_of_le_of_lt before h.left
  have left' : b.cursor + k < (b.withTokens ts).eof := Nat.lt_of_le_of_lt before h.left'
  by_cases more : kinds (b.peek k).kind = true
  · have onward : b.lookPast k kinds = b.lookPast (k + 1) kinds := by rw [Buffer.lookPast.eq_def b k, if_pos ⟨left, more⟩]
    have onward' : (b.withTokens ts).lookPast k kinds = (b.withTokens ts).lookPast (k + 1) kinds := by
      rw [Buffer.lookPast.eq_def _ k, if_pos ⟨left', h.peek before ▸ more⟩]
    rcases Nat.eq_or_lt_of_le before with here | before
    · rw [h.ends.kind_peek, here] at more
      exact .inr ⟨more, k + 1, by omega, onward, onward'⟩
    · rw [onward, onward']
      exact lookPast_cases kinds before
  · rw [Buffer.lookPast.eq_def b k, Buffer.lookPast.eq_def _ k, h.peek before]
    exact .inl ((if_neg fun both => more both.2).trans (if_neg fun both => more both.2).symm)
termination_by o - (b.cursor + k)

/-- No look goes past a token that stops it. -/
theorem lookPast {k : Nat} (brace : kinds .lbrace = false) (name : kinds .identifier = false)
    (before : b.cursor + k ≤ o) : (b.withTokens ts).lookPast k kinds = b.lookPast k kinds :=
  (h.lookPast_cases kinds before).resolve_right fun further => by
    have stops : kinds (kindAt b.tree.tokens o) = false := by
      rcases h.last with here | signs
      · rw [here, brace]
      · rw [signs.sign.name, name]
    exact Bool.false_ne_true (stops.symm.trans further.1)

/-- Looks past whitespace that go past a name see the same kinds in both texts. -/
theorem kind_lookPast {k : Nat} (brace : kinds .lbrace = false)
    (white : ∀ kind : TokenKind, kind.isWhitespace = true → kinds kind = true) (before : b.cursor + k ≤ o) :
    ((b.withTokens ts).lookPast k kinds).kind = (b.lookPast k kinds).kind := by
  rcases h.lookPast_cases kinds before with same | ⟨further, j, behind, seen, seen'⟩
  · rw [same]
  · rcases h.last with here | signs
    · rw [here, brace] at further
      cases further
    · rw [seen, seen']
      refine Buffer.kind_lookPast signs h.ends h.ends' white ?_ ?_ ?_ ?_
      · exact behind ▸ Nat.lt_succ_self o
      · exact behind ▸ signs.sign.less
      · exact behind ▸ Nat.lt_succ_self o
      · exact behind ▸ signs.sign'.less

end SharesUpTo

/-- What is seen while the last token in common is still to come does not depend on what stands behind it. -/
class Near {α : Type} (f : Buffer → α) : Prop where
  same : ∀ {b : Buffer} {o : Nat} {ts : Array Token}, b.SharesUpTo o ts → b.cursor ≤ o → f (b.withTokens ts) = f b

/-- The same as long as it is not the token to come. -/
def NearBefore {α : Type} (f : Buffer → α) : Prop :=
  ∀ {b : Buffer} {o : Nat} {ts : Array Token}, b.SharesUpTo o ts → b.cursor < o → f (b.withTokens ts) = f b

namespace Near

variable {α β : Type}

instance current : Near Buffer.current := ⟨fun h before => h.peek before⟩

instance of_current (f : Token → α) : Near fun b => f b.current := ⟨fun h before => congrArg f (h.peek (k := 0) before)⟩

instance isAt (kind : TokenKind) : Near fun b => b.isAt kind := of_current fun t => decide (t.kind = kind)

instance isAtKeyword (name : String) : Near fun b => b.isAtKeyword name := of_current fun t => t.isIdentifier name

instance hasNext : Near Buffer.hasNext := ⟨fun h before => h.hasNext before⟩

instance errors : Near Buffer.errors := ⟨fun _ _ => rfl⟩

instance isTooDeep : Near Buffer.isTooDeep := ⟨fun _ _ => rfl⟩

instance children : Near fun b => (b.tree.childrenOf b.innermost).length := ⟨fun _ _ => rfl⟩

instance const (a : α) : Near fun _ => a := ⟨fun _ _ => rfl⟩

instance not (f : Buffer → Bool) [Near f] : Near fun b => !f b := ⟨fun h before => congrArg (!·) (same (f := f) h before)⟩

instance and (f g : Buffer → Bool) [Near f] [Near g] : Near fun b => f b && g b :=
  ⟨fun h before => by rw [same (f := f) h before, same (f := g) h before]⟩

theorem lookPast {kinds : TokenKind → Bool} (brace : kinds .lbrace = false) (name : kinds .identifier = false)
    (f : Token → α) : Near fun b => f (b.lookPast 0 kinds) :=
  ⟨fun h before => congrArg f (h.lookPast brace name before)⟩

end Near

theorem NearBefore.lookPast {α : Type} (kinds : TokenKind → Bool) (brace : kinds .lbrace = false)
    (name : kinds .identifier = false) (f : Token → α) : NearBefore fun b => f (b.lookPast 1 kinds) :=
  fun h before => congrArg f (h.lookPast brace name before)

end Buffer

/-! ### Steps -/

/-- The parser is put together from steps that look no further than an opening brace, or than a name with the sign of an
    inline structure behind it. Where it looks one token further, it takes a token before it ends. Only if `hints` are
    allowed, it may report a problem without taking a token. -/
class inductive Parser.Nearsighted (hints : Prop) : {α : Type} → Parser α → Prop where
  | pure {α : Type} (a : α) : Nearsighted hints (Pure.pure a : Parser α)
  | bind {α β : Type} {p : Parser α} {f : α → Parser β} (first : Nearsighted hints p)
      (next : ∀ a, Nearsighted hints (f a)) : Nearsighted hints (p >>= f)
  | ask {α : Type} (f : Buffer → α) (near : Buffer.Near f) : Nearsighted hints (Parser.ask f)
  | look {α β : Type} {f : Buffer → α} {g : α → Parser β} (near : Buffer.NearBefore f) (eats : ∀ a, Eats (g a))
      (next : ∀ a, Nearsighted hints (g a)) : Nearsighted hints (Parser.ask f >>= g)
  | fail {α : Type} (problem : Problem) : Nearsighted hints (Parser.fail problem : Parser α)
  | abort {α : Type} (why : Fault) : Nearsighted hints (Parser.abort why : Parser α)
  | shift : Nearsighted hints Parser.shift
  | foldWhile {σ : Type} {more : σ → Buffer → Bool} {round : σ → Parser σ} (near : ∀ s, Buffer.Near (more s))
      (rounds : ∀ s, Nearsighted hints (round s)) (s : σ) : Nearsighted hints (Parser.foldWhile more round s)
  | recovering {α : Type} {p : Parser α} (inside : Nearsighted hints p) :
      Nearsighted hints (Parser.recovering .statement p)
  | openNode (kind : TreeKind) : Nearsighted hints (Parser.openNode kind)
  | closeNode (node : NodeId) : Nearsighted hints (Parser.closeNode node)
  | detach (node : NodeId) : Nearsighted hints (Parser.detach node)
  | attach (node : NodeId) : Nearsighted hints (Parser.attach node)
  | reportMissing (allowed : hints) (problem : Problem) : Nearsighted hints (Parser.reportMissing problem)
  | encloseInError (allowed : hints) (node : NodeId) (problem : Problem) :
      Nearsighted hints (Parser.encloseInError node problem)

namespace Parser

variable {α β σ : Type} {hints : Prop} {p : Parser α} {b b' : Buffer} {a : α} {d : NodeId} {o : Nat}
  {ts : Array Token}

theorem Nearsighted.steady (h : Nearsighted hints p) : Steady p := by
  induction h with
  | bind _ _ first next => exact Steady.bind
  | look _ _ _ next => exact Steady.bind
  | foldWhile _ _ s rounds => exact Steady.foldWhile s
  | recovering _ inside => exact Steady.recovering .statement
  | _ => infer_instance

/-! ### Runs over other tokens -/

theorem attach_withTokens (run : (attach d).run b = .ok () b') :
    (attach d).run (b.withTokens ts) = .ok () (b'.withTokens ts) := by
  obtain ⟨t, edit, rfl⟩ := attach_ok run
  exact run_attach (SyntaxTree.append_withTokens edit)

theorem detach_withTokens (run : (detach d).run b = .ok () b') :
    (detach d).run (b.withTokens ts) = .ok () (b'.withTokens ts) := by
  unfold detach at run ⊢
  obtain ⟨parent, b₁, found, run⟩ := bind_eq_ok.mp run
  obtain ⟨t, read, rfl⟩ := onTree_ok found
  obtain ⟨rfl, -⟩ := parent?_read read
  have read' := run_onTree (b := b.withTokens ts) (SyntaxTree.parent?_withTokens read)
  rw [run_bind_of_ok read']
  cases parent with
  | none =>
    cases run
    rfl
  | some p =>
    obtain ⟨_, b₂, removed, done⟩ := bind_eq_ok.mp run
    obtain ⟨t', edit, rfl⟩ := onTree_ok removed
    cases done
    exact run_bind_of_ok (run_onTree (SyntaxTree.remove_withTokens edit))

theorem openNode_withTokens {kind : TreeKind} (run : (openNode kind).run b = .ok d b') :
    (openNode kind).run (b.withTokens ts) = .ok d (b'.withTokens ts) := by
  unfold openNode at run ⊢
  obtain ⟨node, b₁, made, run⟩ := bind_eq_ok.mp run
  obtain ⟨t, edit, rfl⟩ := onTree_ok made
  cases edit
  obtain ⟨_, b₂, attached, run⟩ := bind_eq_ok.mp run
  cases run
  exact (run_bind_of_ok (run_onTree rfl)).trans (run_bind_of_ok (attach_withTokens attached))

theorem closeNode_withTokens (run : (closeNode d).run b = .ok () b') :
    (closeNode d).run (b.withTokens ts) = .ok () (b'.withTokens ts) := by
  unfold closeNode at run ⊢
  rw [run_bind_of_ok (run_ask _ _), run_ite] at run ⊢
  change (if b.openNodes.head? = some d then _ else _) = _
  split at run
  · next here =>
    rw [if_pos here]
    cases run
    rfl
  · cases run

theorem shift_withTokens (h : b.SharesUpTo o ts) (before : b.cursor ≤ o) (run : shift.run b = .ok () b') :
    shift.run (b.withTokens ts) = .ok () (b'.withTokens ts) := by
  obtain ⟨next, t, edit, rfl⟩ := shift_ok run
  have next' : (b.withTokens ts).hasNext = true := (h.hasNext before).trans next
  have edit' : (b.withTokens ts).tree.appendLeaf b.innermost b.cursor = .ok (t.withTokens ts) :=
    SyntaxTree.append_withTokens edit
  unfold shift
  rw [run_bind_of_ok (run_hasNext _), run_ite, if_pos next']
  exact (run_bind_of_ok (run_ask _ _)).trans ((run_bind_of_ok (run_ask _ _)).trans ((run_bind_of_ok (run_edit edit')).trans rfl))

/-- By induction on the tokens that are left. All rounds are without a problem, and all end before the last token in
    common. -/
theorem foldWhile_withTokens {more : σ → Buffer → Bool} {round : σ → Parser σ} [∀ s, Steady (round s)]
    (near : ∀ s, Buffer.Near (more s))
    (rounds : ∀ s {b₁ s' b'}, b.Leads b₁ → (round s).run b₁ = .ok s' b' → b'.errors = b₁.errors → b'.cursor ≤ o →
      (round s).run (b₁.withTokens ts) = .ok s' (b'.withTokens ts))
    {s s' : σ} (h : b.SharesUpTo o ts) (run : (foldWhile more round s).run b = .ok s' b')
    (clean : b'.errors = b.errors) (before : b'.cursor ≤ o) :
    (foldWhile more round s).run (b.withTokens ts) = .ok s' (b'.withTokens ts) := by
  have start : b.cursor ≤ o := Nat.le_trans (Steady.ok run).cursor before
  induction length : b.remaining using Nat.strongRecOn generalizing s b with
  | ind left ih =>
    have same := (near s).same h start
    cases go : more s b with
    | true =>
      obtain ⟨s₁, b₁, taken, fewer, rest⟩ := foldWhile_round go run
      have leads := Steady.ok taken
      have onward := Steady.ok rest
      obtain ⟨clean₁, clean₂⟩ := leads.clean onward clean
      have upTo := Nat.le_trans onward.cursor before
      have fewer' : (b₁.withTokens ts).remaining < (b.withTokens ts).remaining := by
        have enough : b₁.cursor < (b.withTokens ts).eof := Nat.lt_of_le_of_lt upTo h.left'
        change (b.withTokens ts).eof - b₁.cursor < (b.withTokens ts).eof - b.cursor
        rw [Buffer.remaining, Buffer.remaining, leads.eof] at fewer
        omega
      rw [run_foldWhile (same.trans go) (rounds s (.refl b) taken clean₁ upTo) fewer']
      exact ih _ (length ▸ fewer) (fun s _ _ _ onward => rounds s (leads.trans onward)) (h.leads leads) rest clean₂ upTo rfl
    | false =>
      rw [foldWhile_stop go] at run
      cases run
      exact foldWhile_stop (same.trans go)

/-- A run without a problem that ends before the last token in common takes the same steps over the other tokens. By
    induction on the steps. -/
theorem Nearsighted.run_withTokens (near : Nearsighted hints p) (h : b.SharesUpTo o ts) (run : p.run b = .ok a b')
    (clean : b'.errors = b.errors) (before : b'.cursor ≤ o) :
    p.run (b.withTokens ts) = .ok a (b'.withTokens ts) := by
  induction near generalizing b b' with
  | pure =>
    cases run
    rfl
  | bind first next ihFirst ihNext =>
    obtain ⟨a₁, b₁, run₁, run₂⟩ := bind_eq_ok.mp run
    have := first.steady
    have := (next a₁).steady
    have leads := Steady.ok run₁
    have rest := Steady.ok run₂
    obtain ⟨clean₁, clean₂⟩ := leads.clean rest clean
    exact (run_bind_of_ok (ihFirst h run₁ clean₁ (Nat.le_trans rest.cursor before))).trans
      (ihNext a₁ (h.leads leads) run₂ clean₂ before)
  | ask f near =>
    cases run
    exact congrArg (Outcome.ok · _) (near.same h before)
  | @look _ _ f g near eats next ih =>
    rw [run_bind_of_ok (run_ask f b)] at run
    have := (next (f b)).steady
    have start : b.cursor ≤ o := Nat.le_trans (Steady.ok run).cursor before
    -- The last token in common is not the one to come: it would be taken.
    have other : b.cursor < o := by
      refine Nat.lt_of_le_of_ne start fun here => ?_
      have next : b.hasNext = true := Buffer.hasNext_iff.mpr (here ▸ h.left)
      exact absurd ((eats (f b)).eats h.ends next run) (Nat.not_lt_of_le (here ▸ before))
    rw [run_bind_of_ok (run_ask f _), near h other]
    exact ih (f b) h run clean before
  | fail | abort => cases run
  | shift => exact shift_withTokens h (Nat.le_trans (Steady.ok run).cursor before) run
  | foldWhile near rounds s ih =>
    have := fun s => (rounds s).steady
    exact foldWhile_withTokens near (fun s _ _ _ leads => ih s (h.leads leads)) h run clean before
  | recovering inside ih =>
    have := inside.steady
    obtain ⟨a', rfl, run'⟩ := recovering_clean run clean
    exact run_recovering_ok (ih h run' clean before)
  | openNode => exact openNode_withTokens run
  | closeNode => exact closeNode_withTokens run
  | detach => exact detach_withTokens run
  | attach => exact attach_withTokens run
  | reportMissing =>
    unfold Parser.reportMissing at run
    rw [run_bind_of_ok (run_ask _ b)] at run
    obtain ⟨_, b₁, added, done⟩ := bind_eq_ok.mp run
    cases done
    have := (addError_ok added).2.2.2
    omega
  | encloseInError => exact absurd clean (Nat.ne_of_gt (encloseInError_ok run).2)

end Parser

end SmithyIdl
