import SmithyIdl.Proofs.Buffer.Takes
import SmithyIdl.Proofs.Token.NodeValue

/-! # Runs on node values

Where the tokens of a node value come, just these are taken. The only thing that matters of what stands behind them is
that no shape id could go on with it. -/

namespace SmithyIdl

open Grammar (valueStart)

/-- The signs with which a shape id goes on. -/
def TokenKind.goesOn (kind : TokenKind) : Bool := kind = .dot || kind = .pound || kind = .dollar

theorem TokenKind.goesOn_eq_false {kind : TokenKind} :
    kind.goesOn = false ↔ kind ≠ .dot ∧ kind ≠ .pound ∧ kind ≠ .dollar := by
  simp [goesOn, and_assoc]

/-- With the kinds that a value starts with no shape id goes on, and none of them is skipped or ends a value. -/
theorem valueStart_other {kind : TokenKind} (h : valueStart.contains kind = true) :
    kind.isTrivia = false ∧ kind.goesOn = false ∧ kind ≠ .rbracket ∧ kind ≠ .rbrace := by
  revert h
  cases kind <;> decide

theorem goesOn_of_isTrivia {kind : TokenKind} (h : kind.isTrivia = true) : kind.goesOn = false := by
  revert h
  cases kind <;> decide

/-- A value starts with a token of one of the kinds that are asked for. -/
theorem IsNodeValue.start {w : List Token} (h : IsNodeValue w) :
    ∃ t ts, w = t :: ts ∧ valueStart.contains t.kind = true := by
  cases h with
  | literal kind => exact ⟨_, _, rfl, by rcases kind with h | h | h <;> rw [h] <;> decide⟩
  | keyword kind => exact ⟨_, _, rfl, by rw [kind]; decide⟩
  | id name _ _ =>
    refine ⟨_, _, rfl, ?_⟩
    cases name with
    | relative identifier => rw [identifier]; decide
    | absolute start => rw [start]; decide
  | array opens => exact ⟨_, _, rfl, by rw [opens]; decide⟩
  | object opens => exact ⟨_, _, rfl, by rw [opens]; decide⟩

/-- No identifier stands right behind another one. -/
def Buffer.Apart (b : Buffer) : Prop :=
  ∀ k, b.cursor + k < b.eof → (b.peek k).kind = .identifier → (b.peek (k + 1)).kind ≠ .identifier

namespace Grammar

open SmithyIdl.Parser

variable {b : Buffer} {d j k m : Nat} {w : List Token}

/-! ### Trivia and keywords -/

theorem whitespace_none (other : (b.peek k).kind.isTrivia = false) : Takes b d k k whitespace fun _ => True := by
  unfold whitespace
  refine .bind .current fun token same => ?_
  rw [same, other]
  exact .pure trivial

theorem whitespace_takes (trivia : AreTrivia w) (comes : b.Comes k w m) (room : d < b.maxDepth)
    (other : (b.peek m).kind.isTrivia = false) : Takes b d k m whitespace fun _ => True := by
  cases comes with
  | nil => exact whitespace_none other
  | cons here left rest =>
    unfold whitespace
    refine .bind .current fun token same => ?_
    rw [same, here, if_pos (trivia _ List.mem_cons_self)]
    exact .within room .whitespace (.shiftKinds (.cons here left rest) trivia other)

theorem keyword_takes (room : d < b.maxDepth) (left : b.cursor + k < b.eof) :
    Takes b d k (k + 1) keyword fun _ => True :=
  .within room .keyword (.consumeAny left)

/-! ### Shape ids -/

theorem nameParts_takes (parts : AreNameParts w) (comes : b.Comes k w m) (other : (b.peek m).kind ≠ .dot) :
    Takes b d k m (repeatWhile (·.isAt .dot) namespacePart) fun _ => True := by
  induction parts generalizing k with
  | nil =>
    cases comes
    refine .stop (fun behind => ?_) trivial
    dsimp only
    rw [Buffer.isAt, behind.current, decide_eq_false other]
  | cons sign identifier _ ih =>
    obtain _ | ⟨dot, left, _ | ⟨name, left', rest⟩⟩ := comes
    refine .again (fun behind => ?_) (.bind (.consumeAny left) fun _ _ => .consume left' (by rwa [name])) fun _ _ => ih rest
    dsimp only
    rw [Buffer.isAt, behind.current, dot, decide_eq_true sign]

theorem namespaceId_takes {first : Token} (start : first.kind = .identifier) (more : AreNameParts w)
    (comes : b.Comes k (first :: w) m) (room : d < b.maxDepth) (other : (b.peek m).kind ≠ .dot) :
    Takes b d k m namespaceId fun _ => True := by
  obtain _ | ⟨here, left, rest⟩ := comes
  unfold namespaceId
  refine .bind (.expect (by rwa [here])) fun _ _ => .within room .namespaceId ?_
  exact .bind (.consumeAny left) fun _ _ => nameParts_takes more rest other

theorem idMember_takes (member : IsIdMember w) (comes : b.Comes k w m) (room : d < b.maxDepth)
    (other : w = [] → (b.peek m).kind ≠ .dollar) : Takes b d k m idMember fun _ => True := by
  unfold idMember
  refine .bind (.isAt .dollar) fun here same => ?_
  rw [same]
  cases member with
  | none =>
    cases comes
    rw [decide_eq_false (other rfl)]
    exact .pure trivial
  | name sign identifier =>
    obtain _ | ⟨dollar, left, _ | ⟨name, left', ⟨⟩⟩⟩ := comes
    rw [dollar, decide_eq_true sign]
    refine .bind (.consumeAny left) fun _ _ => .bind (.expect (by rwa [name])) fun _ _ => ?_
    exact .within room .shapeIdMember (.consumeAny left')

theorem startsAbsoluteId_takes :
    Takes b d k k (ask startsAbsoluteId) (· = decide ((b.lookPast k isNamespacePart).kind = .pound)) :=
  .ask fun behind => by rw [startsAbsoluteId, behind.lookPast, Nat.add_zero]

/-- A look past the parts of a namespace gets to its end. -/
theorem isNamespacePart_of_mem {first : Token} (start : first.kind = .identifier) (more : AreNameParts w) :
    ∀ t ∈ first :: w, isNamespacePart t.kind = true := by
  refine List.forall_mem_cons.mpr ⟨by rw [start]; rfl, ?_⟩
  induction more with
  | nil => nofun
  | cons sign identifier _ ih =>
    exact List.forall_mem_cons.mpr ⟨by rw [sign]; rfl, List.forall_mem_cons.mpr ⟨by rw [identifier]; rfl, ih⟩⟩

section
variable {allowMember : Bool} (member : Takes b (d + 1) j m (if allowMember then idMember else pure ()) fun _ => True)
  (room : d + 1 < b.maxDepth)
include member room

/-- A name that starts no absolute id, and what comes of a member behind it. -/
theorem relativeId_takes (start : (b.peek k).kind = .identifier) (left : b.cursor + k < b.eof) (next : j = k + 1)
    (noNamespace : (b.lookPast k isNamespacePart).kind ≠ .pound) :
    Takes b d k m (shapeId allowMember) fun _ => True := by
  subst next
  dsimp only [shapeId]
  refine .bind (.expect start) fun _ _ => .bind startsAbsoluteId_takes fun absolute same => ?_
  rw [same, decide_eq_false noNamespace]
  exact .within (by omega) .shapeId (.bind (.consumeAny left) fun _ _ => member)

/-- A namespace and a name, and what comes of a member behind them. -/
theorem absoluteId_takes {first pound name : Token} (start : first.kind = .identifier) (more : AreNameParts w)
    (sign : pound.kind = .pound) (identifier : name.kind = .identifier)
    (comes : b.Comes k (first :: w ++ [pound, name]) j) : Takes b d k m (shapeId allowMember) fun _ => True := by
  obtain ⟨i, space, back⟩ := Buffer.Comes.append_iff.mp comes
  obtain _ | ⟨pound, left, _ | ⟨name, left', ⟨⟩⟩⟩ := back
  have starts : (b.peek k).kind = .identifier := by rwa [Buffer.Comes.peek space]
  have sign : (b.peek i).kind = .pound := by rwa [pound]
  dsimp only [shapeId]
  refine .bind (.expect starts) fun _ _ => .bind startsAbsoluteId_takes fun absolute same => ?_
  rw [same, space.lookPast (isNamespacePart_of_mem start more) (by rw [sign]; rfl), decide_eq_true sign]
  refine .within (by omega) .shapeId ?_
  refine .bind (namespaceId_takes start more space room (by rw [sign]; decide)) fun _ _ => ?_
  refine .bind (.consume left sign) fun _ _ => .bind (.expect (by rwa [name])) fun _ _ => ?_
  exact .bind (.consumeAny left') fun _ _ => member

end

theorem shapeId_takes (apart : b.Apart) {member : List Token} (id : IsShapeId w) (behind : IsIdMember member)
    (comes : b.Comes k (w ++ member) m) (room : d + 1 < b.maxDepth) (other : (b.peek m).kind.goesOn = false) :
    Takes b d k m (shapeId true) fun _ => True := by
  obtain ⟨noDot, noPound, noDollar⟩ := TokenKind.goesOn_eq_false.mp other
  obtain ⟨j, front, rest⟩ := Buffer.Comes.append_iff.mp comes
  have taken : Takes b (d + 1) j m idMember fun _ => True := idMember_takes behind rest room fun _ => noDollar
  cases id with
  | relative identifier =>
    obtain _ | ⟨here, left, ⟨⟩⟩ := front
    have start : (b.peek k).kind = .identifier := by rwa [here]
    -- The look ahead stops right behind the name: no second identifier stands there.
    have next : isNamespacePart (b.peek (k + 1)).kind = false ∧ (b.peek (k + 1)).kind ≠ .pound := by
      cases behind with
      | none =>
        cases rest
        exact ⟨by simp [isNamespacePart, noDot, apart k left start], noPound⟩
      | name sign _ =>
        rw [rest.peek, sign]
        decide
    have alone : b.Comes k [_] (k + 1) := .cons here left .nil
    refine relativeId_takes taken room start left rfl ?_
    rw [alone.lookPast (isNamespacePart_of_mem identifier .nil) next.1]
    exact next.2
  | absolute start more sign identifier => exact absoluteId_takes taken room start more sign identifier front

/-! ### Parts -/

/-- A part that reports nothing, with the trivia behind it. -/
theorem soundly_takes {part : Parser Unit} (taken : Takes b d k j part fun _ => True) (trivia : AreTrivia w)
    (comes : b.Comes j w m) (room : d < b.maxDepth) (other : (b.peek m).kind.isTrivia = false) :
    Takes b d k m (soundly part) (· = true) := by
  unfold soundly
  refine .bind .errorCount fun before same => .bind taken fun _ _ => .bind .errorCount fun after same' => ?_
  rw [same, same', if_neg (Nat.lt_irrefl _)]
  exact .bind (whitespace_takes trivia comes room other) fun _ _ => .pure rfl

/-- A token of this kind can stand behind a part and its trivia. -/
def EndsPart (kind : TokenKind) : Prop := kind.isTrivia = false ∧ kind.goesOn = false

section
variable {α : Type} {part : Parser Unit} {closing : TokenKind} {tokens : α → List Token} {parts : List α}
  (brackets : closing = .rbracket ∨ closing = .rbrace)
  (starts : ∀ a ∈ parts, ∃ t ts, tokens a = t :: ts ∧ valueStart.contains t.kind = true)
include brackets starts

/-- Whatever stands before parts and a closing bracket has ended. -/
theorem endsPart_of_comes (comes : b.Comes k (parts.flatMap tokens) m) (closed : (b.peek m).kind = closing) :
    EndsPart (b.peek k).kind := by
  cases parts with
  | nil =>
    cases comes
    rw [closed]
    rcases brackets with rfl | rfl <;> exact ⟨rfl, rfl⟩
  | cons a _ =>
    obtain ⟨t, ts, first, start⟩ := starts a List.mem_cons_self
    rw [List.flatMap_cons, first, List.cons_append] at comes
    rw [comes.peek]
    exact ⟨(valueStart_other start).1, (valueStart_other start).2.1⟩

variable (one : ∀ a ∈ parts, ∀ k m, b.Comes k (tokens a) m → EndsPart (b.peek m).kind →
  Takes b d k m (soundly part) (· = true))
include one

theorem partsUntil_takes (comes : b.Comes k (parts.flatMap tokens) m) (closed : (b.peek m).kind = closing) :
    Takes b d k m (partsUntil closing part) (· = true) := by
  unfold partsUntil
  induction parts generalizing k with
  | nil =>
    cases comes
    refine .stop (fun behind => ?_) rfl
    rw [beforePart, Buffer.isAt, behind.current, decide_eq_true closed, Bool.not_true, Bool.and_false]
  | cons a parts ih =>
    obtain ⟨⟨t, ts, first, start⟩, starts⟩ := List.forall_mem_cons.mp starts
    obtain ⟨here, one⟩ := List.forall_mem_cons.mp one
    rw [List.flatMap_cons] at comes
    obtain ⟨j, part, rest⟩ := Buffer.Comes.append_iff.mp comes
    -- The first part ends where the others start, so it is taken whole, and the loop goes on with them.
    have ends := endsPart_of_comes brackets starts rest closed
    refine .again (fun behind => ?_) (here k j part ends) fun sound sure => sure ▸ ih starts one rest
    rw [first] at part
    obtain _ | ⟨next, left, -⟩ := part
    have notClosed : t.kind ≠ closing := by
      obtain ⟨-, -, noBracket, noBrace⟩ := valueStart_other start
      rcases brackets with rfl | rfl <;> assumption
    rw [beforePart, Buffer.isAt, behind.current, behind.hasNext, next, decide_eq_true left, decide_eq_false notClosed]
    rfl

/-- Parts between brackets. -/
theorem bracketed_takes {opening last : Token} {trivia : List Token} (between : AreTrivia trivia)
    (closes : last.kind = closing) (room : d < b.maxDepth)
    (comes : b.Comes k (opening :: trivia ++ parts.flatMap tokens ++ [last]) m) : Takes b d k m (do
      consumeAny
      whitespace
      if ← partsUntil closing part then consume closing) fun _ => True := by
  obtain ⟨i, front, _ | ⟨closed, left, ⟨⟩⟩⟩ := Buffer.Comes.append_iff.mp comes
  obtain ⟨j, _ | ⟨-, left', space⟩, inside⟩ := Buffer.Comes.append_iff.mp front
  have closed : (b.peek i).kind = closing := by rwa [closed]
  have other := (endsPart_of_comes brackets starts inside closed).1
  refine .bind (.consumeAny left') fun _ _ => .bind (whitespace_takes between space room other) fun _ _ => ?_
  refine .bind (partsUntil_takes brackets starts one inside closed) fun sound sure => ?_
  rw [if_pos sure]
  exact .consume left closed

end

/-! ### Node values -/

/-- The token behind trivia, or behind nothing, is such that what stands before them has ended. -/
theorem goesOn_behind (trivia : AreTrivia w) (comes : b.Comes k w m) (other : (b.peek m).kind.goesOn = false) :
    (b.peek k).kind.goesOn = false := by
  cases comes with
  | nil => exact other
  | cons here => exact here ▸ goesOn_of_isTrivia (trivia _ List.mem_cons_self)

theorem objectKey_takes {key : Token} (kind : key.kind = .string ∨ key.kind = .identifier) (here : b.peek k = key)
    (left : b.cursor + k < b.eof) (room : d < b.maxDepth) : Takes b d k (k + 1) objectKey fun _ => True := by
  unfold objectKey
  refine .bind (.expectAny ?_) fun _ _ => .within room .nodeObjectKey (.consumeAny left)
  rw [here]
  rcases kind with h | h <;> rw [h] <;> decide

/-- The value is taken wherever its tokens come, with the given number of open nodes. -/
def TakesValue (b : Buffer) (d : Nat) (value : Parser Unit) (w : List Token) : Prop :=
  ∀ k m, b.Comes k w m → (b.peek m).kind.goesOn = false → Takes b d k m value fun _ => True

theorem objectEntry_takes {value : Parser Unit} {e : ObjectEntry} (framed : e.Framed) (word : IsNodeValue e.value)
    (inside : TakesValue b (d + 1) value e.value) (room : d + 1 < b.maxDepth) (comes : b.Comes k e.tokens m)
    (ends : EndsPart (b.peek m).kind) : Takes b d k m (soundly (objectEntry value)) (· = true) := by
  obtain ⟨j, comes, behind⟩ := Buffer.Comes.append_iff.mp comes
  obtain ⟨i, comes, valueComes⟩ := Buffer.Comes.append_iff.mp comes
  obtain ⟨h, _ | ⟨key, left, space⟩, _ | ⟨colon, left', space'⟩⟩ := Buffer.Comes.append_iff.mp comes
  have colon : (b.peek h).kind = .colon := by rw [colon, framed.colon]
  have start : (b.peek i).kind.isTrivia = false := by
    obtain ⟨t, ts, first, start⟩ := word.start
    rw [first] at valueComes
    rw [valueComes.peek]
    exact (valueStart_other start).1
  have entry : Takes b (d + 1) k j (entryOf value) fun _ => True := by
    unfold entryOf
    refine .bind (objectKey_takes framed.key key left room) fun _ _ => ?_
    refine .bind (whitespace_takes framed.behindKey space room (by rw [colon]; rfl)) fun _ _ => ?_
    refine .bind (.consume left' colon) fun _ _ => ?_
    refine .bind (whitespace_takes framed.behindColon space' room start) fun _ _ => ?_
    exact inside i j valueComes (goesOn_behind framed.behind behind ends.2)
  exact soundly_takes (entry.within (by omega) .nodeObjectEntry) framed.behind behind (by omega) ends.1

theorem ObjectEntry.start {e : ObjectEntry} (framed : e.Framed) :
    ∃ t ts, e.tokens = t :: ts ∧ valueStart.contains t.kind = true :=
  ⟨_, _, rfl, by rcases framed.key with h | h <;> rw [h] <;> decide⟩

theorem length_le_flatMap {α : Type} (tokens : α → List Token) {parts : List α} {a : α} (among : a ∈ parts) :
    (tokens a).length ≤ (parts.flatMap tokens).length := by
  obtain ⟨front, back, rfl⟩ := List.append_of_mem among
  simp only [List.flatMap_append, List.flatMap_cons, List.length_append]
  omega

section
variable {value : Parser Unit} {opening closing : Token} {trivia : List Token} (between : AreTrivia trivia)
  (room : d + 1 < b.maxDepth)
include between room

theorem arrayOf_takes {parts : List (List Token × List Token)} (values : ∀ p ∈ parts, IsNodeValue p.1)
    (behind : ∀ p ∈ parts, AreTrivia p.2) (closes : closing.kind = .rbracket)
    (inside : ∀ p ∈ parts, TakesValue b (d + 1) value p.1)
    (comes : b.Comes k (opening :: trivia ++ parts.flatMap (fun p => p.1 ++ p.2) ++ [closing]) m) :
    Takes b d k m (arrayOf value) fun _ => True := by
  have starts : ∀ p ∈ parts, ∃ t ts, p.1 ++ p.2 = t :: ts ∧ valueStart.contains t.kind = true := by
    intro p among
    obtain ⟨t, ts, first, start⟩ := (values p among).start
    exact ⟨t, ts ++ p.2, by rw [first, List.cons_append], start⟩
  have one : ∀ p ∈ parts, ∀ k m, b.Comes k (p.1 ++ p.2) m → EndsPart (b.peek m).kind →
      Takes b (d + 1) k m (soundly value) (· = true) := by
    intro p among k m comes ends
    obtain ⟨j, front, space⟩ := Buffer.Comes.append_iff.mp comes
    have taken := inside p among k j front (goesOn_behind (behind p among) space ends.2)
    exact soundly_takes taken (behind p among) space room ends.1
  exact .within (by omega) .nodeArray (bracketed_takes (.inl rfl) starts one between closes room comes)

theorem objectOf_takes {entries : List ObjectEntry} (framed : ∀ e ∈ entries, e.Framed)
    (values : ∀ e ∈ entries, IsNodeValue e.value) (closes : closing.kind = .rbrace)
    (inside : ∀ e ∈ entries, d + 2 < b.maxDepth ∧ TakesValue b (d + 2) value e.value)
    (comes : b.Comes k (opening :: trivia ++ entries.flatMap ObjectEntry.tokens ++ [closing]) m) :
    Takes b d k m (objectOf value) fun _ => True := by
  have starts : ∀ e ∈ entries, ∃ t ts, e.tokens = t :: ts ∧ valueStart.contains t.kind = true :=
    fun e among => ObjectEntry.start (framed e among)
  have one : ∀ e ∈ entries, ∀ k m, b.Comes k e.tokens m → EndsPart (b.peek m).kind →
      Takes b (d + 1) k m (soundly (objectEntry value)) (· = true) := fun e among k m comes ends =>
    objectEntry_takes (framed e among) (values e among) (inside e among).2 (inside e among).1 comes ends
  exact .within (by omega) .nodeObject (bracketed_takes (.inr rfl) starts one between closes room comes)

end

/-- A node value is taken where all shorter ones are. In it at most three more nodes are open for every token that is not
in an inner value: those of a value, an object and an entry for the brace, the key and the colon. -/
theorem valueFrom_takes {value : Parser Unit} (apart : b.Apart) (word : IsNodeValue w)
    (inside : ∀ v d, IsNodeValue v → v.length < w.length → d + 3 * v.length ≤ b.maxDepth → TakesValue b d value v)
    (room : d + 3 * w.length ≤ b.maxDepth + 1) (comes : b.Comes k w m) (other : (b.peek m).kind.goesOn = false) :
    Takes b d k m (valueFrom value (b.peek k).kind) fun _ => True := by
  cases word with
  | @literal t kind =>
    obtain _ | ⟨here, left, ⟨⟩⟩ := comes
    rw [here]
    rcases kind with h | h | h <;> rw [h] <;> exact .consumeAny left
  | keyword kind name =>
    obtain _ | ⟨here, left, ⟨⟩⟩ := comes
    rw [here, kind]
    refine .bind .current fun token same => ?_
    rw [same, here, if_pos name]
    rw [List.length_singleton] at room
    exact keyword_takes (by omega) left
  | @id first rest member name noKeyword behind =>
    have kind : first.kind = .identifier := by cases name <;> assumption
    rw [Buffer.Comes.peek comes, kind]
    refine .bind .current fun token same => ?_
    rw [same, Buffer.Comes.peek comes, if_neg (by rw [noKeyword]; exact Bool.false_ne_true)]
    rw [List.cons_append, List.length_cons] at room
    exact shapeId_takes apart name behind comes (by omega) other
  | @array opening closing trivia parts opens between values behind closes =>
    simp only [List.length_append, List.length_cons, List.length_nil] at room inside
    rw [Buffer.Comes.peek comes, opens]
    refine arrayOf_takes between (by omega) values behind closes (fun p among => ?_) comes
    have shorter := length_le_flatMap (fun p : List Token × List Token => p.1 ++ p.2) among
    rw [List.length_append] at shorter
    exact inside p.1 (d + 1) (values p among) (by omega) (by omega)
  | @object opening closing trivia entries opens between framed values closes =>
    simp only [List.length_append, List.length_cons, List.length_nil] at room inside
    rw [Buffer.Comes.peek comes, opens]
    refine objectOf_takes between (by omega) framed values closes (fun e among => ?_) comes
    have shorter := length_le_flatMap ObjectEntry.tokens among
    simp only [ObjectEntry.tokens, List.length_append, List.length_cons] at shorter
    exact ⟨by omega, inside e.value (d + 2) (values e among) (by omega) (by omega)⟩

theorem nodeValueWithin_takes (apart : b.Apart) (word : IsNodeValue w) {n : Nat} (fuel : w.length ≤ n)
    (room : d + 3 * w.length ≤ b.maxDepth) : TakesValue b d (nodeValueWithin n) w := by
  induction n generalizing w d with
  | zero =>
    obtain ⟨t, ts, rfl, -⟩ := word.start
    cases fuel
  | succ n ih =>
    intro k m comes other
    obtain ⟨t, ts, rfl, start⟩ := word.start
    rw [List.length_cons] at fuel room
    unfold nodeValueWithin valueBody
    refine .within (by omega) .nodeValue (.bind (.expectAny (by rwa [comes.peek])) fun kind same => ?_)
    rw [same]
    refine valueFrom_takes apart word (fun v d word shorter room => ih word ?_ room) ?_ comes other
    · rw [List.length_cons] at shorter
      omega
    · rw [List.length_cons]
      omega

end Grammar

end SmithyIdl
