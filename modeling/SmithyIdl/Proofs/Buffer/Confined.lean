import SmithyIdl.Proofs.Buffer.Adds
import SmithyIdl.Proofs.Buffer.Invariant

/-! # Where a parser puts nodes

A parser puts nodes into the innermost open node and into nodes that it made itself, as long as all that it moves was
made by it. Nothing is put into any other node, and nothing taken from it: not into the nodes that are open around the
innermost one, and not into closed ones. -/

namespace SmithyIdl

open SmithyIdl.Parser (Steady Recovery)

namespace SyntaxTree

/-- The node `top`, and all but the first `n` nodes. -/
def Seat (n : Nat) (top i : NodeId) : Prop := i = top ∨ n ≤ i

/-- All but the first `n` nodes stand alone, in `top` or in each other. -/
def Seats (n : Nat) (top : NodeId) (t : SyntaxTree) : Prop := ∀ i p, n ≤ i → t.parent? i = some p → Seat n top p

/-- Of the first `n` nodes only `top` gets or loses children. -/
structure GrowsAt (n : Nat) (top : NodeId) (t t' : SyntaxTree) : Prop where
  size : t.size ≤ t'.size
  children : ∀ i < n, i ≠ top → t'.childrenOf i = t.childrenOf i
  seats : t.Seats n top → t'.Seats n top

variable {n : Nat} {top p d : NodeId} {t t' t'' : SyntaxTree}

theorem Seat.ne (h : Seat n top p) {i : NodeId} (old : i < n) (other : i ≠ top) : i ≠ p := by
  rintro rfl
  exact h.elim other (Nat.not_le_of_lt old)

namespace GrowsAt

theorem refl (t : SyntaxTree) : GrowsAt n top t t := ⟨Nat.le_refl _, fun _ _ _ => rfl, id⟩

theorem trans (h : GrowsAt n top t t') (h' : GrowsAt n top t' t'') : GrowsAt n top t t'' where
  size := Nat.le_trans h.size h'.size
  children i old other := (h'.children i old other).trans (h.children i old other)
  seats := h'.seats ∘ h.seats

theorem alike (same : t.Alike t') : GrowsAt n top t t' where
  size := Nat.le_of_eq same.size_eq.symm
  children i _ _ := same.childrenOf_eq i
  seats seats i p new above := seats i p new ((same.parent?_eq i).symm.trans above)

theorem add {content : NodeContent} (none : ∀ parent kept, (Node.mk content parent kept).children = #[]) :
    GrowsAt n top t (t.add content).2 where
  size := size_add (t := t) content ▸ Nat.le_succ _
  children i _ _ := childrenOf_add i none
  seats seats i p new above := by
    rcases Nat.lt_trichotomy i t.size with old | rfl | out
    · exact seats i p new ((parent?_add_of_lt content old).symm.trans above)
    · rw [parent?_add_size] at above
      cases above
    · rw [parent?_of_not_made (by rw [size_add]; exact out)] at above
      cases above

theorem append (run : t.append p d = .ok t') (seat : Seat n top p) : GrowsAt n top t t' where
  size := Nat.le_of_eq (size_append run).symm
  children i old other := by rw [childrenOf_append run, if_neg (seat.ne old other)]
  seats seats i q new above := by
    by_cases here : i = d
    · obtain ⟨rfl, made, -⟩ := append_ok run
      rw [parent?_link made, if_pos here.symm] at above
      exact Option.some.inj above ▸ seat
    · exact seats i q new ((parent?_append_of_ne run here).symm.trans above)

theorem remove {found : Bool} (run : t.remove p d = .ok (found, t')) (seat : Seat n top p)
    (above : t.parent? d = some p) : GrowsAt n top t t' where
  size := Nat.le_of_eq (size_remove run).symm
  children i old other := by rw [childrenOf_remove run, if_neg (seat.ne old other)]
  seats seats i q new above' := by
    by_cases here : i = d
    · rcases remove_eq_ok.mp run with ⟨-, -, rfl⟩ | ⟨-, -, rfl⟩
      · exact seats i q new above'
      · rw [parent?_unlink (lt_size_of_parent? above), if_pos here.symm] at above'
        cases above'
    · exact seats i q new ((parent?_remove_of_ne run here).symm.trans above')

end GrowsAt

end SyntaxTree

open SyntaxTree (Seat Seats GrowsAt)

namespace Buffer

variable {n : Nat} {top : NodeId} {b b' b'' : Buffer}

/-- What comes next is put into `top` or into a node that is none of the first `n`. -/
structure Seated (n : Nat) (top : NodeId) (b : Buffer) : Prop where
  made : n ≤ b.tree.size
  innermost : Seat n top b.innermost
  seats : b.tree.Seats n top

/-- The same nodes are open, and of the first `n` nodes only `top` got or lost children. -/
structure Confines (n : Nat) (top : NodeId) (b b' : Buffer) : Prop where
  openNodes : b'.openNodes = b.openNodes
  tree : b.tree.GrowsAt n top b'.tree

/-- Where nothing is new, everything that comes next is put into the innermost open node. -/
theorem Seated.start (b : Buffer) : b.Seated b.tree.size b.innermost where
  made := Nat.le_refl _
  innermost := .inl rfl
  seats i p new above := by
    rw [SyntaxTree.parent?_of_not_made new] at above
    cases above

theorem Seated.step (h : b.Seated n top) (tree : b.tree.GrowsAt n top b'.tree)
    (innermost : Seat n top b'.innermost) : b'.Seated n top :=
  ⟨Nat.le_trans h.made tree.size, innermost, tree.seats h.seats⟩

namespace Confines

theorem refl : b.Confines n top b := ⟨rfl, .refl _⟩

theorem trans (h : b.Confines n top b') (h' : b'.Confines n top b'') : b.Confines n top b'' :=
  ⟨h'.openNodes.trans h.openNodes, h.tree.trans h'.tree⟩

theorem seated (h : b.Confines n top b') (seated : b.Seated n top) : b'.Seated n top :=
  seated.step h.tree (by rw [Buffer.innermost, h.openNodes]; exact seated.innermost)

end Confines

end Buffer

/-! ### Steps -/

namespace Parser

variable {α β σ : Type} {n : Nat} {top d : NodeId} {p : Parser α} {b b' : Buffer} {a : α}

section
variable (seated : b.Seated n top)
include seated

theorem shift_confines (run : shift.run b = .ok () b') : b.Confines n top b' := by
  obtain ⟨-, t, edit, rfl⟩ := shift_ok run
  exact ⟨rfl, (GrowsAt.add fun _ _ => rfl).trans (.append edit seated.innermost)⟩

theorem openNode_confined {kind : TreeKind} (run : (openNode kind).run b = .ok d b') :
    b'.openNodes = d :: b.openNodes ∧ n ≤ d ∧ b.tree.GrowsAt n top b'.tree := by
  obtain ⟨rfl, t, edit, rfl⟩ := openNode_edit run
  exact ⟨rfl, seated.made, (GrowsAt.add fun _ _ => rfl).trans (.append edit seated.innermost)⟩

theorem addError_confines {mark : Mark} (run : (addError mark).run b = .ok d b') :
    n ≤ d ∧ b.Confines n top b' := by
  obtain ⟨rfl, t, edit, rfl⟩ := addError_edit run
  exact ⟨seated.made, rfl, (GrowsAt.add fun _ _ => rfl).trans (.append edit seated.innermost)⟩

theorem reportMissing_confines {problem : Problem} (run : (reportMissing problem).run b = .ok () b') :
    b.Confines n top b' := by
  unfold reportMissing at run
  rw [run_bind_of_ok (run_ask _ b)] at run
  obtain ⟨_, b₁, added, done⟩ := bind_eq_ok.mp run
  cases done
  exact (addError_confines seated added).2

theorem attach_confines (run : (attach d).run b = .ok () b') : b.Confines n top b' := by
  obtain ⟨t, edit, rfl⟩ := attach_ok run
  exact ⟨rfl, .append edit seated.innermost⟩

theorem detach_confines (new : n ≤ d) (run : (detach d).run b = .ok () b') : b.Confines n top b' := by
  rcases detach_edit run with ⟨-, rfl⟩ | ⟨p, found, t, above, edit, rfl⟩
  · exact .refl
  · exact ⟨rfl, .remove edit (seated.seats d p new above) above⟩

theorem adoptDocs_confines (new : n ≤ d) (run : (adoptDocs (some d)).run b = .ok () b') : b.Confines n top b' := by
  obtain ⟨b₁, taken, put⟩ := adoptDocs_steps run
  have first := detach_confines seated new taken
  exact first.trans (attach_confines (first.seated seated) put)

theorem encloseInError_confines {problem : Problem} (run : (encloseInError d problem).run b = .ok () b') :
    b.Confines n top b' := by
  obtain ⟨start, t₁, range, t₂, b₁, t', read, read', added, edit, rfl⟩ := encloseInError_edit run
  have same := (SyntaxTree.Still.keeps (r := Reading.start d) read).trans
    (SyntaxTree.Still.keeps (r := Reading.range d) read')
  have read : b.Confines n top { b with tree := t₂ } := ⟨rfl, .alike same⟩
  obtain ⟨new, added⟩ := addError_confines (read.seated seated) added
  exact read.trans (added.trans ⟨rfl, .append edit (.inr new)⟩)

end

theorem shiftWhile_confines (kinds : Token → Bool) (seated : b.Seated n top)
    (run : (shiftWhile kinds).run b = .ok () b') : b.Confines n top b' :=
  (foldWhile_ok (I := fun _ b₁ => b.Confines n top b₁)
    (fun _ _ _ _ before _ taken => before.trans (shift_confines (before.seated seated) taken)) .refl run).1

theorem recover_confines {recovery : Recovery} (seated : b.Seated n top) (run : (recover recovery).run b = .ok () b') :
    b.Confines n top b' := by
  cases recovery with
  | statement => exact shiftWhile_confines (!startsStatement ·) seated run
  | endOfText => exact shiftWhile_confines (fun _ => true) seated run
  | none =>
    cases run
    exact .refl

theorem report_confines {cause : SyntaxError} {recovery : Recovery} (seated : b.Seated n top)
    (run : (report cause recovery).run b = .ok () b') : b.Confines n top b' := by
  have openNodes := KeepsOpen.ok run
  unfold report at run
  obtain ⟨node, b₁, added, run⟩ := bind_eq_ok.mp run
  obtain ⟨new, added⟩ := addError_confines seated added
  rw [run_bind_of_ok (run_hasNext b₁), run_ite] at run
  by_cases next : b₁.hasNext = true
  · rw [if_pos next] at run
    obtain ⟨_, b₂, pushed, run⟩ := bind_eq_ok.mp run
    cases pushed
    obtain ⟨_, b₃, taken, run⟩ := bind_eq_ok.mp run
    obtain ⟨_, b₄, recovered, popped⟩ := bind_eq_ok.mp run
    cases popped
    have inside : Buffer.Seated n top { b₁ with openNodes := node :: b₁.openNodes } :=
      (added.seated seated).step (.refl _) (.inr new)
    have first := shift_confines inside taken
    have others := recover_confines (first.seated inside) recovered
    exact ⟨openNodes, added.tree.trans (first.trans others).tree⟩
  · rw [if_neg next] at run
    cases run
    exact added

end Parser

/-! ### Runs -/

/-- Two runs from the same buffer come to the same end, which is confined, and their values belong together. -/
inductive Buffer.Ties (n : Nat) (top : NodeId) (b : Buffer) {α β : Type} (R : α → β → Prop) :
    Outcome α → Outcome β → Prop where
  | ok {a : α} {a' : β} {b' : Buffer} (value : R a a') (confines : b.Confines n top b') : Ties n top b R (.ok a b') (.ok a' b')
  | error {cause : SyntaxError} {b' : Buffer} (confines : b.Confines n top b') :
      Ties n top b R (.error cause b') (.error cause b')
  | fault {why : Fault} : Ties n top b R (.fault why) (.fault why)

namespace Buffer.Ties

open SmithyIdl.Parser

variable {α β γ δ σ σ' : Type} {n : Nat} {top : NodeId} {R : α → β → Prop} {S : γ → δ → Prop} {p : Parser α}
  {q : Parser β} {f : α → Parser γ} {g : β → Parser δ} {b b₁ : Buffer}

theorem of_unfailing {p : Parser α} [Unfailing p] (h : ∀ {a b'}, p.run b = .ok a b' → b.Confines n top b') :
    b.Ties n top Eq (p.run b) (p.run b) := by
  cases run : p.run b with
  | ok => exact .ok rfl (h run)
  | error => exact absurd run Unfailing.not_error
  | fault => exact .fault

theorem trans {o : Outcome α} {o' : Outcome β} (h : b.Confines n top b₁) (h' : b₁.Ties n top R o o') :
    b.Ties n top R o o' := by
  cases h' with
  | ok value confines => exact .ok value (h.trans confines)
  | error confines => exact .error (h.trans confines)
  | fault => exact .fault

theorem bind (h : b.Ties n top R (p.run b) (q.run b))
    (next : ∀ {a a' b₁}, R a a' → b.Confines n top b₁ → b₁.Ties n top S ((f a).run b₁) ((g a').run b₁)) :
    b.Ties n top S ((p >>= f).run b) ((q >>= g).run b) := by
  rw [run_bind, run_bind]
  generalize p.run b = o, q.run b = o' at h
  cases h with
  | ok value confines => exact (next value confines).trans confines
  | error confines => exact .error confines
  | fault => exact .fault

theorem foldBelow {S : σ → σ' → Prop} {more : σ → Buffer → Bool} {more' : σ' → Buffer → Bool} {round : σ → Parser σ}
    {round' : σ' → Parser σ'} (again : ∀ s s', S s s' → ∀ b, more' s' b = more s b)
    (rounds : ∀ s s', S s s' → ∀ {b : Buffer}, b.Seated n top → b.Ties n top S ((round s).run b) ((round' s').run b))
    {left : Nat} {s : σ} {s' : σ'} (start : S s s') (seated : b.Seated n top) :
    b.Ties n top S (Parser.foldBelow more round left s b) (Parser.foldBelow more' round' left s' b) := by
  induction left using Nat.strongRecOn generalizing s s' b with
  | ind left ih =>
    rw [Parser.foldBelow.eq_def more, Parser.foldBelow.eq_def more', again s s' start b]
    by_cases go : more s b = true
    · rw [if_pos go, if_pos go]
      have h := rounds s s' start seated
      rw [Parser.run, Parser.run] at h
      generalize round s b = o, round' s' b = o' at h
      cases h with
      | @ok s₁ s₁' b₁ value confines =>
        by_cases fewer : b₁.remaining < left
        · simp only [fewer, if_true]
          exact (ih _ fewer value (confines.seated seated)).trans confines
        · simp only [fewer, if_false]
          exact .fault
      | error confines => exact .error confines
      | fault => exact .fault
    · rw [if_neg go, if_neg go]
      exact .ok start .refl

/-- A failure is reported in both runs. -/
theorem recovering (seated : b.Seated n top) (h : b.Ties n top R (p.run b) (q.run b)) (recovery : Recovery) :
    b.Ties n top (Option.Rel R) ((Parser.recovering recovery p).run b) ((Parser.recovering recovery q).run b) := by
  unfold Parser.recovering
  rw [run_bind, run_bind, run_attempt, run_attempt]
  generalize p.run b = o, q.run b = o' at h
  cases h with
  | ok value confines => exact .ok (.some value) confines
  | @error cause b₁ confines =>
    have reported : b₁.Ties n top Eq ((report cause recovery).run b₁) ((report cause recovery).run b₁) :=
      of_unfailing (report_confines (confines.seated seated))
    exact (bind (S := Option.Rel R) (f := fun _ => pure none) (g := fun _ => pure none) reported fun _ _ =>
      .ok .none .refl).trans confines
  | fault => exact .fault

theorem limited (h : b.Ties n top R (p.run b) (q.run b)) :
    b.Ties n top R ((Parser.limited p).run b) ((Parser.limited q).run b) := by
  cases deep : b.isTooDeep with
  | true =>
    rw [limited_refused deep, limited_refused deep]
    exact .error .refl
  | false => rwa [limited_allowed deep, limited_allowed deep]

/-- What is put into the new node is put into no other one. -/
theorem scope (seated : b.Seated n top) (kind : TreeKind)
    (inside : ∀ {b : Buffer}, b.Seated n top → b.Ties n top R (p.run b) (q.run b)) (recovery : Recovery) :
    b.Ties n top (Closed.Both (fun i i' => i' = i ∧ n ≤ i) R) ((Parser.scope kind p recovery).run b)
      ((Parser.scope kind q recovery).run b) := by
  cases opened : (openNode kind).run b with
  | ok i b₁ =>
    obtain ⟨nodes, new, first⟩ := openNode_confined seated opened
    have seated₁ : b₁.Seated n top := seated.step first (by rw [Buffer.innermost, nodes]; exact .inr new)
    have caught := (inside seated₁).limited.recovering seated₁ recovery
    generalize run : (Parser.recovering recovery (Parser.limited p)).run b₁ = o,
      run' : (Parser.recovering recovery (Parser.limited q)).run b₁ = o' at caught
    cases caught with
    | ok value confines =>
      have same := confines.openNodes.trans nodes
      rw [run_scope opened run same, run_scope opened run' same]
      exact .ok ⟨⟨rfl, new⟩, value⟩ ⟨rfl, first.trans confines.tree⟩
    | error => exact absurd run Unfailing.not_error
    | fault =>
      unfold Parser.scope
      rw [run_bind_of_ok opened, run_bind_of_ok opened, run_bind, run_bind, run, run']
      exact .fault
  | error => exact absurd opened Unfailing.not_error
  | fault =>
    unfold Parser.scope
    rw [run_bind, run_bind, opened]
    exact .fault

end Buffer.Ties

namespace Lockstep

open SmithyIdl.Parser

variable {α β : Type} {n : Nat} {top : NodeId} {R : α → β → Prop} {p : Parser α} {q : Parser β}

/-- By induction on the steps. -/
theorem ties (h : Lockstep (.alone (n ≤ ·) (n ≤ ·) True True) R p q) :
    ∀ {b : Buffer}, b.Seated n top → b.Ties n top R (p.run b) (q.run b) := by
  induction h with
  | pure value => exact fun _ => .ok value .refl
  | bind first next ih ihNext =>
    exact fun seated => (ih seated).bind fun value confines => ihNext _ _ value (confines.seated seated)
  | ask h => exact fun _ => .ok (h _ _ (Matching.alone_sees ..)) .refl
  | room => exact fun _ => .ok (.inl rfl) .refl
  | errorCount => exact fun _ => .ok rfl .refl
  | fail like =>
    obtain rfl := like.eq
    exact fun _ => .error .refl
  | refused lenient => exact lenient.elim
  | shift => exact fun seated => .of_unfailing (shift_confines seated)
  | foldWhile start again rounds ih =>
    exact fun {b} seated =>
      .foldBelow (fun s s' same b => again s s' same b b (Matching.alone_sees ..)) ih start seated
  | recovering _ recovery ih => exact fun seated => (ih seated).recovering seated recovery
  | scope kind _ recovery ih => exact fun seated => .scope seated kind ih recovery
  | docs kinds =>
    have : Unfailing (Parser.shiftKinds kinds) := by
      unfold Parser.shiftKinds Parser.shiftWhile Parser.repeatWhile
      infer_instance
    have taken {b : Buffer} (seated : b.Seated n top) :
        b.Ties n top Eq ((Parser.shiftKinds kinds).run b) ((Parser.shiftKinds kinds).run b) :=
      .of_unfailing (shiftWhile_confines (kinds ·.kind) seated)
    exact fun {b} seated => .scope seated .whitespace taken .statement
  | reportMissing like =>
    obtain rfl := like.eq
    exact fun seated => .of_unfailing (reportMissing_confines seated)
  | adoptDocs docs =>
    obtain ⟨rfl, new⟩ := docs
    exact fun seated => .of_unfailing (adoptDocs_confines seated new)
  | detach _ node =>
    obtain ⟨rfl, new⟩ := node
    exact fun seated => .of_unfailing (detach_confines seated new)
  | attach _ node =>
    obtain ⟨rfl, new⟩ := node
    exact fun seated => .of_unfailing (attach_confines seated)
  | encloseInError _ node =>
    obtain ⟨rfl, new⟩ := node
    exact fun seated => .of_unfailing (encloseInError_confines seated)

/-- Behind the parser the same nodes are open, whatever they are. -/
theorem keepsOpen {p : Parser α} {R : Nat → α → α → Prop}
    (h : ∀ n, Lockstep (.alone (n ≤ ·) (n ≤ ·) True True) (R n) p p) : KeepsOpen p where
  same {b b'} left := by
    have seated : b.Seated b.tree.size b.innermost := .start b
    have ties := (h b.tree.size).ties seated
    generalize p.run b = o at ties left
    cases ties with
    | ok _ confines | error confines =>
      cases left
      exact confines.openNodes
    | fault => cases left

/-- A parser that moves only what it made itself puts nodes into the innermost open node and into new ones. -/
theorem confines {p : Parser α} {R : α → α → Prop} {a : α} {b b' : Buffer}
    (h : Lockstep (.alone (n ≤ ·) (n ≤ ·) True True) R p p) (seated : b.Seated n top) (run : p.run b = .ok a b') :
    R a a ∧ b.Confines n top b' := by
  have ties := h.ties seated
  rw [run] at ties
  cases ties with
  | ok value confines => exact ⟨value, confines⟩

end Lockstep

end SmithyIdl
