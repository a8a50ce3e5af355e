import Mathlib.Data.List.TakeWhile
import SmithyIdl.Proofs.Buffer.Faultless
import SmithyIdl.Proofs.NodeValue

/-! # Shape ids are read exactly

A look past the identifiers and dots to come decides what a shape id is. With a `#` behind them they have to be a
namespace and a name has to follow; without one the first identifier is a name on its own. Where a member may be named,
its sign has to have a name behind it. Just what was decided by is read, and nothing else is a problem. -/

set_option synthInstance.maxSize 2000

namespace SmithyIdl

/-- `Identifier *("." Identifier)` -/
inductive IsNamespace : List Token → Prop where
  | mk {first : Token} {parts : List Token} (start : first.kind = .identifier) (more : AreNameParts parts) :
    IsNamespace (first :: parts)

namespace Buffer

variable {b : Buffer} {k : Nat}

/-- All identifiers and dots up to a token of another kind. -/
def dottedRun (b : Buffer) : List Token := b.rest.takeWhile fun t => t.kind = .identifier || t.kind = .dot

/-- Whether a member is named `k` tokens ahead: it may be, and its sign comes. -/
def opensMember (b : Buffer) (allowMember : Bool) (k : Nat) : Bool := allowMember && (b.peek k).kind = .dollar

theorem Reached.endsWithEof (h : b.Reached) : b.EndsWithEof := by
  induction h with
  | ofText filename text maxDepth => exact Grammar.endsWithEof_of_tokens rfl
  | run _ built left ih =>
    have := built.steady
    exact (Parser.Steady.leads left).endsWithEof ih
  | opened _ run ih => exact (Parser.Steady.ok run).endsWithEof ih

/-! ### Tokens ahead -/

theorem EndsWithEof.rest_getElem? (ends : b.EndsWithEof) (other : (b.peek k).kind ≠ .eof) :
    b.rest[k]? = some (b.peek k) := by
  have before := ends.lt_of_peek other
  obtain ⟨t, here⟩ : ∃ t, b.rest[k]? = some t := by
    refine ⟨_, List.getElem?_eq_getElem ?_⟩
    rw [rest, List.length_drop, Array.length_toList]
    rw [eof] at before
    omega
  rw [here, peek_of_rest here]

/-- Behind the identifiers and dots a token of another kind stands, at the latest the end token. -/
theorem exists_behind_dottedRun (ends : b.EndsWithEof) (bound : b.cursor ≤ b.eof) :
    ∃ t us, b.rest = b.dottedRun ++ t :: us ∧ Grammar.isNamespacePart t.kind = false := by
  obtain ⟨last, found, kind⟩ := ends
  have among : last ∈ b.rest := by
    refine List.mem_iff_getElem?.mpr ⟨b.eof - b.cursor, ?_⟩
    rw [rest, List.getElem?_drop, Nat.add_sub_cancel' bound, Array.getElem?_toList, found]
  cases left : b.rest.dropWhile fun t => t.kind = .identifier || t.kind = .dot with
  | nil =>
    have inside : (last.kind = .identifier || last.kind = .dot) = true := List.dropWhile_eq_nil_iff.mp left last among
    rw [kind] at inside
    cases inside
  | cons t us =>
    have stops := List.head?_dropWhile_not (fun t : Token => t.kind = .identifier || t.kind = .dot) b.rest
    rw [left] at stops
    exact ⟨t, us, by rw [← left, dottedRun, List.takeWhile_append_dropWhile], stops⟩

theorem comes_dottedRun (ends : b.EndsWithEof) (bound : b.cursor ≤ b.eof) :
    b.Comes 0 b.dottedRun b.dottedRun.length := by
  obtain ⟨t, us, split, -⟩ := exists_behind_dottedRun ends bound
  simpa using comes_of_drop (k := 0) (List.cons_ne_nil t us) split

theorem lookPast_dottedRun (ends : b.EndsWithEof) (bound : b.cursor ≤ b.eof) :
    b.lookPast 0 Grammar.isNamespacePart = b.peek b.dottedRun.length := by
  obtain ⟨t, us, split, other⟩ := exists_behind_dottedRun ends bound
  have behind : b.peek b.dottedRun.length = t := peek_of_rest (by simp [split])
  refine (comes_dottedRun ends bound).lookPast (fun t among => ?_) (by rw [behind, other])
  exact List.all_eq_true.mp List.all_takeWhile t among

/-- The parts of a namespace before a token of another kind are all identifiers and dots that come. -/
theorem dottedRun_eq {first t : Token} {parts us : List Token} (start : first.kind = .identifier)
    (more : AreNameParts parts) (split : b.rest = first :: parts ++ t :: us)
    (other : Grammar.isNamespacePart t.kind = false) : b.dottedRun = first :: parts := by
  change b.rest.takeWhile (Grammar.isNamespacePart ·.kind) = _
  rw [split, List.takeWhile_append_of_pos (Grammar.isNamespacePart_of_mem start more),
    List.takeWhile_cons_of_neg (by simp [other]), List.append_nil]

end Buffer

namespace Parser

/-- From `b` the parser comes to an end. It reports nothing exactly if `P` holds, and takes `k` tokens then. -/
def TakesIff (b : Buffer) (p : Parser Unit) (k : Nat) (P : Prop) : Prop :=
  ∃ b', p.run b = .ok () b' ∧ (b'.errors = b.errors ↔ P) ∧ (P → b'.cursor = b.cursor + k)

theorem TakesIff.intro {b b' : Buffer} {p : Parser Unit} {k : Nat} {P : Prop} (run : p.run b = .ok () b')
    (takes : P → Takes b b.openNodes.length 0 k p fun _ => True) (clean : b'.errors = b.errors → P) : TakesIff b p k P :=
  ⟨b', run, ⟨clean, fun h => ((takes h).ok (.start b) run).2.errors⟩, fun h => ((takes h).ok (.start b) run).2.cursor⟩

end Parser

namespace Grammar

open SmithyIdl.Parser

variable {b : Buffer} {allowMember : Bool} {d k : Nat} {w : List Token}

/-! ### No faults -/

instance namespacePart_faultless : Faultless namespacePart := by
  unfold namespacePart
  infer_instance

instance namespaceId_faultless : Faultless namespaceId := by
  have : NeedsNext fun (_ : Unit) b => b.isAt .dot := needsNext_isAt (by decide)
  unfold namespaceId repeatWhile
  infer_instance

instance idMember_faultless : Faultless idMember := by
  unfold idMember
  infer_instance

instance shapeId_faultless (allowMember : Bool) : Faultless (shapeId allowMember) := by
  dsimp only [shapeId]
  infer_instance

/-- At an identifier a shape id does not fail: what goes wrong is recorded in its node. -/
theorem exists_run_shapeId (ready : b.Ready) (ends : b.EndsWithEof) (start : b.current.kind = .identifier)
    (allowMember : Bool) : ∃ b', (shapeId allowMember).run b = .ok () b' := by
  have noError (e : SyntaxError) (b' : Buffer) : (shapeId allowMember).run b ≠ .error e b' := by
    dsimp only [shapeId]
    rw [run_bind_of_ok (run_expect start)]
    exact Unfailing.not_error
  obtain ⟨⟨⟩, b', run⟩ := Faultless.exists_ok ready ends noError
  exact ⟨b', run⟩

theorem run_absoluteShapeId (start : b.current.kind = .identifier) : absoluteShapeId.run b =
    if startsAbsoluteId b then (shapeId false).run b else .error (b.syntaxError (.noAbsoluteId b.current)) b := by
  unfold absoluteShapeId
  rw [run_bind_of_ok (run_expect start), run_bind_of_ok (run_ask startsAbsoluteId b), run_ite]
  rfl

/-! ### Members -/

theorem optionalMember_takes (ends : b.EndsWithEof) (room : d < b.maxDepth)
    (named : b.opensMember allowMember k = true → (b.peek (k + 1)).kind = .identifier) :
    Takes b d k (k + if b.opensMember allowMember k then 2 else 0) (if allowMember then idMember else pure ())
      fun _ => True := by
  cases allowMember with
  | false => exact .pure trivial
  | true =>
    cases opens : b.opensMember true k with
    | false => exact idMember_takes .none .nil room fun _ => of_decide_eq_false opens
    | true =>
      have sign : (b.peek k).kind = .dollar := of_decide_eq_true opens
      have name := named opens
      have left := ends.lt_of_peek (k := k) (by rw [sign]; decide)
      have left' := ends.lt_of_peek (k := k + 1) (by rw [name]; decide)
      exact idMember_takes (.name sign name) (.cons rfl left (.cons rfl left' .nil)) room (absurd · (List.cons_ne_nil _ _))

/-- Where a member was not passed over, a name stands behind its sign. -/
theorem NamesId.name_follows {id us : List Token} (h : NamesId b.rest allowMember id w) (ends : b.EndsWithEof)
    (split : b.rest = w ++ us) (opens : b.opensMember allowMember id.length = true) :
    (b.peek (id.length + 1)).kind = .identifier := by
  obtain ⟨member, vs, named, rfl, behind, passed⟩ := h
  obtain ⟨allowed, sign⟩ := Bool.and_eq_true_iff.mp opens
  have sign : (b.peek id.length).kind = .dollar := of_decide_eq_true sign
  have here := ends.rest_getElem? (k := id.length) (by rw [sign]; decide)
  have first : vs.head? = some (b.peek id.length) := by
    rwa [behind, List.getElem?_append_right (Nat.le_refl _), Nat.sub_self, ← List.head?_eq_getElem?] at here
  cases named with
  | none => exact absurd rfl (passed allowed _ first sign)
  | @name dollar name _ identifier =>
    have place : b.rest[id.length + 1]? = some name := by
      rw [split, List.append_assoc, List.getElem?_append_right (Nat.le_add_right ..), Nat.add_sub_cancel_left]
      rfl
    rwa [b.peek_of_rest place]

theorem NamesId.exists_behind {ts id : List Token} (h : NamesId ts allowMember id w) : ∃ us, ts = id ++ us := by
  obtain ⟨_, us, -, -, behind, -⟩ := h
  exact ⟨us, behind⟩

/-! ### Shape ids -/

/-- What is read of a shape id, with or without a member, where the identifiers and dots of `R` come. -/
structure ReadsShapeId (b : Buffer) (allowMember : Bool) (R : List Token) : Prop where
  absolute : (b.peek R.length).kind = .pound → TakesIff b (shapeId allowMember)
    (R.length + 2 + if b.opensMember allowMember (R.length + 2) then 2 else 0)
    (IsNamespace R ∧ (b.peek (R.length + 1)).kind = .identifier ∧
      (b.opensMember allowMember (R.length + 2) = true → (b.peek (R.length + 3)).kind = .identifier))
  relative : (b.peek R.length).kind ≠ .pound → TakesIff b (shapeId allowMember)
    (1 + if b.opensMember allowMember 1 then 2 else 0)
    (b.opensMember allowMember 1 = true → (b.peek 2).kind = .identifier)
  accepted : (b.peek R.length).kind = .pound → ∃ b', absoluteShapeId.run b = .ok () b' ∧ (shapeId false).run b = .ok () b'
  refused : (b.peek R.length).kind ≠ .pound →
    absoluteShapeId.run b = .error (b.syntaxError (.noAbsoluteId b.current)) b

section
variable {b' : Buffer} (ends : b.EndsWithEof) (room : b.openNodes.length + 2 ≤ b.maxDepth)
  (run : (shapeId allowMember).run b = .ok () b')
include ends room run

theorem relativeId_takesIff (start : b.current.kind = .identifier) (form : startsAbsoluteId b = false) :
    TakesIff b (shapeId allowMember) (1 + if b.opensMember allowMember 1 then 2 else 0)
      (b.opensMember allowMember 1 = true → (b.peek 2).kind = .identifier) := by
  refine .intro run (fun named => ?_) fun clean opens => ?_
  · have left := ends.lt_of_peek (k := 0) (by rw [← Buffer.current, start]; decide)
    exact relativeId_takes (optionalMember_takes ends room named) room start left rfl (of_decide_eq_false form)
  · obtain ⟨w, split, -, named⟩ := relativeId_spells form run clean
    exact named.name_follows ends split opens

theorem absoluteId_takesIff {R : List Token} (dotted : b.dottedRun = R) (bound : b.cursor ≤ b.eof)
    (pound : (b.peek R.length).kind = .pound) (form : startsAbsoluteId b = true) :
    TakesIff b (shapeId allowMember) (R.length + 2 + if b.opensMember allowMember (R.length + 2) then 2 else 0)
      (IsNamespace R ∧ (b.peek (R.length + 1)).kind = .identifier ∧
        (b.opensMember allowMember (R.length + 2) = true → (b.peek (R.length + 3)).kind = .identifier)) := by
  refine .intro run (fun ⟨space, name, named⟩ => ?_) fun clean => ?_
  · have front := dotted ▸ b.comes_dottedRun ends bound
    have left := ends.lt_of_peek (k := R.length) (by rw [pound]; decide)
    have left' := ends.lt_of_peek (k := R.length + 1) (by rw [name]; decide)
    have comes := Buffer.Comes.append_iff.mpr ⟨_, front, .cons rfl left (.cons rfl left' .nil)⟩
    cases space with
    | mk first more =>
      exact absoluteId_takes (optionalMember_takes ends room named) room first more pound name comes
  · obtain ⟨w, split, parts, sign, name, first, more, isSign, identifier, named⟩ := absoluteId_spells form run clean
    obtain ⟨us, behind⟩ := named.exists_behind
    -- The namespace that was taken is all of the run, since its `#` ends that.
    have front : b.rest = b.current :: parts ++ sign :: (name :: us) := by simpa using behind
    have same : R = b.current :: parts := dotted.symm.trans (Buffer.dottedRun_eq first more front (by rw [isSign]; rfl))
    subst same
    have place : b.peek ((b.current :: parts).length + 1) = name := b.peek_of_rest (by simp [behind])
    refine ⟨⟨first, more⟩, by rwa [place], fun opens => ?_⟩
    have long : (b.current :: parts ++ [sign, name]).length = (b.current :: parts).length + 2 := by simp
    have follows := named.name_follows ends split (long ▸ opens)
    rwa [long] at follows

end

/-- In every state of a buffer that stands at an identifier and has room for two more nodes, a shape id is read as the
identifiers and dots to come and the token behind them say, and an absolute one is refused where no `#` is behind them. -/
theorem shapeId_exact (reached : b.Reached) (start : b.current.kind = .identifier)
    (room : b.openNodes.length + 2 ≤ b.maxDepth) (allowMember : Bool) : ReadsShapeId b allowMember b.dottedRun := by
  have ends := reached.endsWithEof
  have bound := reached.ready.cursor
  obtain ⟨b', run⟩ := exists_run_shapeId reached.ready ends start allowMember
  have looks : startsAbsoluteId b = decide ((b.peek b.dottedRun.length).kind = .pound) := by
    rw [startsAbsoluteId, b.lookPast_dottedRun ends bound]
  refine ⟨fun pound => ?_, fun other => ?_, fun pound => ?_, fun other => ?_⟩
  · have form : startsAbsoluteId b = true := looks.trans (decide_eq_true pound)
    exact absoluteId_takesIff ends room run rfl bound pound form
  · have form : startsAbsoluteId b = false := looks.trans (decide_eq_false other)
    exact relativeId_takesIff ends room run start form
  · obtain ⟨b₁, run₁⟩ := exists_run_shapeId reached.ready ends start false
    exact ⟨b₁, by rw [run_absoluteShapeId start, looks, decide_eq_true pound, if_pos rfl, run₁], run₁⟩
  · rw [run_absoluteShapeId start, looks, decide_eq_false other, if_neg Bool.false_ne_true]

theorem shapeId_exact_member : (Buffer.ofText "a.smithy" "a.b#C$d" 3).Reached ∧
    ∃ b', (shapeId true).run (.ofText "a.smithy" "a.b#C$d" 3) = .ok () b' ∧ b'.errors = 0 ∧ b'.cursor = 7 := by
  have reached := Buffer.Reached.ofText "a.smithy" "a.b#C$d" 3
  have reads := shapeId_exact reached (by decide +kernel) (by decide) true
  have row : (Buffer.ofText "a.smithy" "a.b#C$d" 3).dottedRun =
      [⟨.plain .identifier, "a", ⟨0, 1⟩, ⟨1, 1⟩, ⟨1, 2⟩⟩, ⟨.plain .dot, ".", ⟨1, 2⟩, ⟨1, 2⟩, ⟨1, 3⟩⟩,
        ⟨.plain .identifier, "b", ⟨2, 3⟩, ⟨1, 3⟩, ⟨1, 4⟩⟩] := by decide +kernel
  rw [row] at reads
  obtain ⟨b', run, clean, takes⟩ := reads.absolute (by decide +kernel)
  have sound := clean.mpr ⟨.mk rfl (.cons rfl rfl .nil), by decide +kernel, fun _ => by decide +kernel⟩
  have cursor := takes (clean.mp sound)
  rw [if_pos (by decide +kernel)] at cursor
  exact ⟨reached, b', run, sound, cursor⟩

end Grammar

end SmithyIdl
