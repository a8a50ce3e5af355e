import SmithyIdl.Proofs.Buffer.Spells
import SmithyIdl.Proofs.Grammar.Values
import SmithyIdl.Proofs.Token.NodeValue

/-! # Words of node values

Rule by rule, the tokens that a clean run takes are a word of the language of the rule. -/

set_option synthInstance.maxSize 2000

namespace SmithyIdl.Grammar

open SmithyIdl.Parser

variable {b : Buffer}

theorem whitespace_spells : Spells b whitespace fun _ => AreTrivia := by
  unfold whitespace
  refine .ask_bind ?_
  split
  · exact .within .whitespace fun _ _ _ => .shiftKinds _
  · exact .pure nofun

/-- The token to come, in a node of its own. -/
theorem within_consumeAny_spells (kind : TreeKind) : Spells b (within kind consumeAny) fun _ w => w = [b.current] :=
  .within kind fun b₁ leads same => by
    rw [← leads.current_of_same same]
    exact .consumeAny

/-! ### Shape ids -/

theorem namespacePart_spells : Spells b namespacePart fun _ w =>
    ∃ name, name.kind = .identifier ∧ w = [b.current, name] := by
  unfold namespacePart
  refine .bind .consumeAny fun _ b₁ w here _ => ?_
  refine (Spells.consume .identifier).mono fun _ x ⟨name, identifier, there⟩ => ⟨name, identifier, ?_⟩
  rw [here, there, List.singleton_append]

theorem namespaceId_spells : Spells b namespaceId fun _ w => ∃ parts, AreNameParts parts ∧ w = b.current :: parts := by
  unfold namespaceId
  refine .look_bind fun _ _ => .within .namespaceId fun b₁ leads same => ?_
  rw [← leads.current_of_same same]
  refine .bind .consumeAny fun _ b₂ w here _ => ?_
  refine (Spells.repeatWhile .nil fun b₃ x parts dot => ?_).mono fun _ x parts => ⟨x, parts, by rw [here]; rfl⟩
  refine namespacePart_spells.mono fun _ y ⟨name, identifier, part⟩ => ?_
  rw [part]
  exact parts.concat (of_decide_eq_true dot) identifier

theorem idMember_spells : Spells b idMember fun _ w => IsIdMember w ∧ (b.current.kind = .dollar → w ≠ []) := by
  unfold idMember
  refine .ask_bind ?_
  split
  · next here =>
    refine .bind .consumeAny fun _ b₁ w taken _ => .look_bind fun _ found => ?_
    refine (within_consumeAny_spells .shapeIdMember).mono fun _ x name => ?_
    rw [taken, name]
    exact ⟨.name (of_decide_eq_true here) (expect_ok found).2, fun _ => List.cons_ne_nil _ _⟩
  · next other => exact .pure ⟨.none, fun dollar => absurd (decide_eq_true dollar) other⟩

/-- An id and a member come in the tokens, and no member is passed over where one is allowed. -/
def NamesId (ts : List Token) (allowMember : Bool) (id w : List Token) : Prop :=
  ∃ member us, IsIdMember member ∧ w = id ++ member ∧ ts = id ++ us ∧
    (allowMember = true → ∀ t ∈ us.head?, t.kind = .dollar → member ≠ [])

section
variable {allowMember : Bool} {id : List Token} {b₀ : Buffer}

theorem optionalMember_spells (split : b₀.rest = id ++ b.rest) : Spells b (if allowMember then idMember else pure ())
    fun _ w => NamesId b₀.rest allowMember id (id ++ w) := by
  cases allowMember with
  | true =>
    refine idMember_spells.mono fun _ w ⟨member, behind⟩ => ⟨w, b.rest, member, rfl, split, fun _ t first => ?_⟩
    rwa [← (b.peek_of_rest (k := 0) (List.head?_eq_getElem? ▸ first) : b.current = t)]
  | false => exact .pure ⟨[], b.rest, .none, rfl, split, nofun⟩

theorem relativeId_spells (relative : startsAbsoluteId b = false) : Spells b (shapeId allowMember) fun _ w =>
    b.current.kind = .identifier ∧ NamesId b.rest allowMember [b.current] w := by
  dsimp only [shapeId]
  refine .look_bind fun _ found => .ask_bind (.within .shapeId fun b₁ leads same => ?_)
  rw [relative, ← leads.current_of_same same, ← leads.rest_of_same same]
  refine .bind_rest .consumeAny fun _ b₂ w name _ split => ?_
  rw [name] at split ⊢
  refine (optionalMember_spells split).mono fun _ x named => ⟨?_, named⟩
  rw [leads.current_of_same same]
  exact (expect_ok found).2

theorem absoluteId_spells (absolute : startsAbsoluteId b = true) : Spells b (shapeId allowMember) fun _ w =>
    ∃ parts pound name, b.current.kind = .identifier ∧ AreNameParts parts ∧ pound.kind = .pound ∧
      name.kind = .identifier ∧ NamesId b.rest allowMember (b.current :: parts ++ [pound, name]) w := by
  dsimp only [shapeId]
  refine .look_bind fun _ found => .ask_bind (.within .shapeId fun b₁ leads same => ?_)
  have first := (expect_ok found).2
  rw [absolute, if_pos rfl]
  rw [← leads.current_of_same same] at first ⊢
  rw [← leads.rest_of_same same]
  refine .bind_rest namespaceId_spells fun _ b₂ x ⟨parts, more, front⟩ _ split => ?_
  refine .bind_rest (.consume .pound) fun _ b₃ y ⟨pound, sign, taken⟩ _ split' => .look_bind fun _ found => ?_
  refine .bind_rest .consumeAny fun _ b₄ z name _ split'' => ?_
  have all : b₁.rest = (b₁.current :: parts ++ [pound, b₃.current]) ++ b₄.rest := by
    rw [split, split', split'', front, taken, name]
    simp
  refine (optionalMember_spells all).mono fun _ member named =>
    ⟨parts, pound, b₃.current, first, more, sign, (expect_ok found).2, ?_⟩
  rw [front, taken, name]
  simpa using named

end

theorem shapeId_spells : Spells b (shapeId true) fun _ w => ∃ rest member,
    IsShapeId (b.current :: rest) ∧ IsIdMember member ∧ w = b.current :: rest ++ member := by
  cases form : startsAbsoluteId b with
  | true =>
    refine (absoluteId_spells form).mono fun _ w spelled => ?_
    obtain ⟨parts, pound, name, first, more, sign, identifier, member, -, behind, rfl, -⟩ := spelled
    exact ⟨parts ++ [pound, name], member, .absolute first more sign identifier, behind, rfl⟩
  | false =>
    refine (relativeId_spells form).mono fun _ w ⟨first, member, _, behind, word, _⟩ => ?_
    exact ⟨[], member, .relative first, behind, word⟩

/-! ### Parts -/

/-- A part with the trivia behind it. -/
theorem soundly_spells {part : Parser Unit} [Grows part] {L : List Token → Prop} (word : Spells b part fun _ => L) :
    Spells b (soundly part) fun sound w => sound = true ∧ ∃ x trivia, L x ∧ AreTrivia trivia ∧ w = x ++ trivia := by
  unfold soundly
  refine .ask_bind (.bind word fun _ b₁ x here clean => .ask_bind ?_)
  rw [if_neg (Nat.not_lt.mpr (Nat.le_of_eq clean))]
  refine .bind whitespace_spells fun _ b₂ trivia behind _ => .pure ⟨rfl, x, trivia, here, behind, ?_⟩
  rw [List.append_nil]

section
variable {α : Type} {part : Parser Unit} [Grows part] {closing : TokenKind} {tokens : α → List Token} {P : α → Prop}
  (one : ∀ b, Spells b (soundly part) fun sound w => sound = true ∧ ∃ a, P a ∧ w = tokens a)
include one

theorem partsUntil_spells : Spells b (partsUntil closing part) fun sound w =>
    sound = true ∧ ∃ parts : List α, (∀ a ∈ parts, P a) ∧ w = parts.flatMap tokens := by
  refine .foldWhile ⟨rfl, [], nofun, rfl⟩ fun _ b₁ w ⟨_, parts, all, word⟩ _ => ?_
  refine (one b₁).mono fun sound x ⟨sure, a, good, last⟩ => ⟨sure, parts ++ [a], fun a' among => ?_, ?_⟩
  · rcases List.mem_append.mp among with among | among
    · exact all a' among
    · exact List.mem_singleton.mp among ▸ good
  · rw [word, last, List.flatMap_append, List.flatMap_singleton]

/-- Parts between brackets. -/
theorem bracketed_spells [Eats part] : Spells b (do
      consumeAny
      whitespace
      if ← partsUntil closing part then consume closing) fun _ w => ∃ trivia, ∃ parts : List α, ∃ last,
    AreTrivia trivia ∧ (∀ a ∈ parts, P a) ∧ last.kind = closing ∧
      w = b.current :: trivia ++ parts.flatMap tokens ++ [last] := by
  refine .bind .consumeAny fun _ b₁ w first _ => .bind whitespace_spells fun _ b₂ trivia behind _ => ?_
  refine .bind (partsUntil_spells one) fun sound b₃ x ⟨sure, parts, all, inside⟩ _ => ?_
  rw [if_pos sure]
  refine (Spells.consume closing).mono fun _ y ⟨last, closes, taken⟩ => ⟨trivia, parts, last, behind, all, closes, ?_⟩
  rw [first, inside, taken]
  simp

end

/-! ### Node values -/

theorem objectKey_spells : Spells b objectKey fun _ w =>
    ∃ key, (key.kind = .string ∨ key.kind = .identifier) ∧ w = [key] := by
  unfold objectKey
  refine .look_bind fun _ found => (within_consumeAny_spells .nodeObjectKey).mono fun _ w key => ⟨b.current, ?_, key⟩
  obtain ⟨-, rfl, among⟩ := expectAny_ok found
  simpa using among

section
variable {value : Parser Unit} [Grows value] (word : ∀ b, Spells b value fun _ => IsNodeValue)
include word

theorem entryOf_spells : Spells b (entryOf value) fun _ w =>
    ∃ e : ObjectEntry, (∀ trivia, AreTrivia trivia → { e with behind := trivia }.Framed) ∧ IsNodeValue e.value ∧
      ∀ trivia, w ++ trivia = { e with behind := trivia }.tokens := by
  unfold entryOf
  refine .bind objectKey_spells fun _ b₁ k ⟨key, kind, first⟩ _ => .bind whitespace_spells fun _ b₂ s behindKey _ => ?_
  refine .bind (.consume .colon) fun _ b₃ c ⟨colon, sign, second⟩ _ => ?_
  refine .bind whitespace_spells fun _ b₄ s' behindColon _ => ?_
  refine (word b₄).mono fun _ v value => ⟨⟨key, s, colon, s', v, []⟩, ?_, value, fun trivia => ?_⟩
  · exact fun trivia behind => ⟨kind, behindKey, sign, behindColon, behind⟩
  · simp [first, second, ObjectEntry.tokens]

theorem objectEntry_spells : Spells b (soundly (objectEntry value)) fun sound w =>
    sound = true ∧ ∃ e : ObjectEntry, (e.Framed ∧ IsNodeValue e.value) ∧ w = e.tokens := by
  refine (soundly_spells (.within .nodeObjectEntry fun _ _ _ => entryOf_spells word)).mono fun sound w spelled => ?_
  obtain ⟨sure, x, trivia, ⟨e, framed, value, tokens⟩, behind, rfl⟩ := spelled
  exact ⟨sure, { e with behind := trivia }, ⟨framed trivia behind, value⟩, tokens trivia⟩

theorem objectOf_spells (opens : b.current.kind = .lbrace) : Spells b (objectOf value) fun _ => IsNodeValue := by
  unfold objectOf
  refine .within .nodeObject fun b₁ leads same => ?_
  refine (bracketed_spells fun b => objectEntry_spells word).mono fun _ w spelled => ?_
  obtain ⟨trivia, entries, last, between, all, closes, rfl⟩ := spelled
  rw [leads.current_of_same same]
  exact .object opens between (fun e among => (all e among).1) (fun e among => (all e among).2) closes

variable [Eats value]

theorem arrayOf_spells (opens : b.current.kind = .lbracket) : Spells b (arrayOf value) fun _ => IsNodeValue := by
  unfold arrayOf
  refine .within .nodeArray fun b₁ leads same => ?_
  have one (b : Buffer) : Spells b (soundly value) fun sound w => sound = true ∧
      ∃ p : List Token × List Token, (IsNodeValue p.1 ∧ AreTrivia p.2) ∧ w = p.1 ++ p.2 :=
    (soundly_spells (word b)).mono fun _ _ ⟨sure, x, trivia, value, behind, split⟩ =>
      ⟨sure, (x, trivia), ⟨value, behind⟩, split⟩
  refine (bracketed_spells one).mono fun _ w ⟨trivia, parts, last, between, all, closes, split⟩ => ?_
  rw [split, leads.current_of_same same]
  exact .array opens between (fun p among => (all p among).1) (fun p among => (all p among).2) closes

theorem valueFrom_spells (among : valueStart.contains b.current.kind = true) :
    Spells b (valueFrom value b.current.kind) fun _ => IsNodeValue := by
  unfold valueFrom
  split
  · next here => exact arrayOf_spells word here
  · next here => exact objectOf_spells word here
  · next here =>
    refine .ask_bind ?_
    split
    · next name =>
      refine (within_consumeAny_spells .keyword).mono fun _ w taken => ?_
      rw [taken]
      exact .keyword here name
    · next other =>
      refine shapeId_spells.mono fun _ w spelled => ?_
      obtain ⟨rest, member, id, behind, rfl⟩ := spelled
      exact .id id (eq_false_of_ne_true other) behind
  · next noArray noObject noName =>
    refine Spells.consumeAny.mono fun _ w taken => ?_
    have start : b.current.kind ∈ [TokenKind.lbracket, .lbrace, .string, .textBlock, .number, .identifier] := by
      simpa [valueStart] using among
    simp only [List.mem_cons, List.not_mem_nil, or_false] at start
    rw [taken]
    rcases start with here | here | here | here | here | here
    · exact (noArray here).elim
    · exact (noObject here).elim
    · exact .literal (.inr (.inl here))
    · exact .literal (.inr (.inr here))
    · exact .literal (.inl here)
    · exact (noName here).elim

theorem valueBody_spells : Spells b (valueBody value) fun _ => IsNodeValue := by
  unfold valueBody
  refine .look_bind fun _ found => ?_
  obtain ⟨-, rfl, among⟩ := expectAny_ok found
  exact valueFrom_spells word among

end

theorem nodeValueWithin_spells (n : Nat) (b : Buffer) : Spells b (nodeValueWithin n) fun _ => IsNodeValue := by
  induction n generalizing b with
  | zero =>
    unfold nodeValueWithin
    exact .within .nodeValue fun _ _ _ => .fail _
  | succ n ih =>
    unfold nodeValueWithin
    exact .within .nodeValue fun _ _ _ => valueBody_spells ih

/-- A clean run of a node value takes a node value. -/
theorem nodeValue_spells : Spells b nodeValue fun _ => IsNodeValue := by
  unfold nodeValue
  exact .ask_bind (nodeValueWithin_spells _ b)

end SmithyIdl.Grammar
