import SmithyIdl.Proofs.Grammar.Spelled
import SmithyIdl.Proofs.Schema.Ends
import SmithyIdl.Proofs.Schema.Neighbours
import SmithyIdl.Proofs.Trivia.LineEnds

/-! # Last tokens

The name and the target of a member, and a node value, end with a token that is no trivia and no opening brace. So does
a statement, up to spaces. -/

set_option synthInstance.maxSize 2000

namespace SmithyIdl

open SmithyIdl.Parser

/-- The kinds that a part of a statement can end with. -/
def TokenKind.isLast (kind : TokenKind) : Bool := !kind.isTrivia && kind ≠ .lbrace

theorem TokenKind.isLast_iff {kind : TokenKind} : kind.isLast = true ↔ kind.isTrivia = false ∧ kind ≠ .lbrace := by
  simp [isLast]

/-- The word ends with a token that a part of a statement can end with. -/
def EndsPart (w : List Token) : Prop := ∃ init t, w = init ++ [t] ∧ t.kind.isLast = true

theorem EndsPart.single {t : Token} (h : t.kind.isLast = true) : EndsPart [t] := ⟨[], t, rfl, h⟩

theorem EndsPart.behind {w : List Token} (h : EndsPart w) (u : List Token) : EndsPart (u ++ w) := by
  obtain ⟨init, t, rfl, last⟩ := h
  exact ⟨u ++ init, t, by rw [List.append_assoc], last⟩

theorem IsShapeId.endsPart {w : List Token} (h : IsShapeId w) : EndsPart w := by
  cases h with
  | relative identifier => exact .single (by rw [identifier]; rfl)
  | absolute _ _ _ identifier => exact .behind ⟨[_], _, rfl, by rw [identifier]; rfl⟩ _

theorem IsNodeValue.endsPart {w : List Token} (h : IsNodeValue w) : EndsPart w := by
  cases h with
  | literal kind => rcases kind with kind | kind | kind <;> exact .single (by rw [kind]; rfl)
  | keyword kind => exact .single (by rw [kind]; rfl)
  | id name _ behind =>
    cases behind with
    | none => simpa using name.endsPart
    | name _ identifier => exact .behind ⟨[_], _, rfl, by rw [identifier]; rfl⟩ _
  | array _ _ _ _ closes => exact .behind (.single (by rw [closes]; rfl)) _
  | object _ _ _ _ closes => exact .behind (.single (by rw [closes]; rfl)) _

theorem Buffer.Leads.exists_rest {b b' : Buffer} (h : b.Leads b') : ∃ w, b.rest = w ++ b'.rest := by
  refine ⟨b.rest.take (b'.cursor - b.cursor), ?_⟩
  have behind : b'.rest = b.rest.drop (b'.cursor - b.cursor) := by
    rw [Buffer.rest, Buffer.rest, h.tokens, List.drop_drop, Nat.add_sub_cancel' h.cursor]
  rw [behind, List.take_append_drop]

namespace Parser

variable {α β : Type} {p : Parser α} {f : α → Parser β} {b b' : Buffer}

/-- The parser takes a part. -/
abbrev SpellsPart (b : Buffer) (p : Parser α) : Prop := Spells b p fun _ => EndsPart

/-- What is taken last ends a part. -/
theorem Spells.behind [Steady p] [∀ a, Steady (f a)] (next : ∀ a b₁, p.run b = .ok a b₁ → SpellsPart b₁ (f a)) :
    SpellsPart b (p >>= f) := by
  intro c b' run clean
  obtain ⟨a, b₁, first, rest⟩ := bind_eq_ok.mp run
  obtain ⟨-, clean₂⟩ := (Steady.ok first).clean (Steady.ok rest) clean
  obtain ⟨u, before⟩ := (Steady.ok first).exists_rest
  obtain ⟨w, split, ends⟩ := next a b₁ first rest clean₂
  exact ⟨u ++ w, by rw [before, split, List.append_assoc], ends.behind u⟩

/-- The last token of a part is the one before the cursor. -/
theorem Spells.exists_last [Steady p] {a : α} (h : SpellsPart b p) (run : p.run b = .ok a b')
    (clean : b'.errors = b.errors) {ts : Array Token} {v : View} (gathers : b'.Gathers ts v) :
    ∃ j, b'.cursor = j + 1 ∧ (kindAt ts j).isLast = true := by
  obtain ⟨w, split, init, t, rfl, last⟩ := h run clean
  have leads := Steady.ok run
  have before := leads.cursor
  have inside : b'.cursor < ts.size := by
    obtain ⟨_, found, -⟩ := gathers.shown.ends
    rw [← gathers.tokens]
    exact Nat.lt_of_le_of_lt gathers.shown.cursor (Array.getElem?_eq_some_iff.mp found).1
  have same : b.tree.tokens = ts := leads.tokens.symm.trans gathers.tokens
  rw [Buffer.rest, Buffer.rest, gathers.tokens, same] at split
  have length := congrArg List.length split
  simp only [List.length_drop, List.length_append, List.length_singleton, Array.length_toList] at length
  have found : ts[b.cursor + init.length]? = some t := by
    have here := congrArg (·[init.length]?) split
    simpa [List.getElem?_drop] using here
  refine ⟨b.cursor + init.length, by omega, ?_⟩
  rw [kindAt, found]
  exact last

theorem consumeAny_spellsPart (here : b.current.kind.isLast = true) : SpellsPart b consumeAny :=
  Spells.consumeAny.mono fun _ _ word => word ▸ .single here

end Parser

namespace Grammar

open SmithyIdl.Parser

variable {b : Buffer}

theorem shapeId_spellsPart : SpellsPart b (shapeId false) := by
  dsimp only [shapeId]
  refine .look_bind fun _ found => .ask_bind (.within .shapeId fun b₁ leads same => ?_)
  have name {b₂ : Buffer} (here : b₂.current.kind = .identifier) : SpellsPart b₂ (do
      consumeAny
      if false = true then idMember) := by
    refine (consumeAny_spellsPart (by rw [here]; rfl)).bind fun _ b₃ w ends _ => ?_
    exact .pure (by rwa [List.append_nil])
  split
  · exact .behind fun _ b₂ _ => .behind fun _ b₃ _ => .look_bind fun _ found => name (expect_ok found).2
  · refine name ?_
    rw [leads.current_of_same same]
    exact (expect_ok found).2

theorem memberName_spellsPart (here : b.current.kind = .identifier) : SpellsPart b memberName := by
  unfold memberName
  refine (within_consumeAny_spells .shapeMemberName).mono fun _ w word => ?_
  rw [word]
  exact .single (by rw [here]; rfl)

theorem memberTarget_spellsPart (elided : Bool) (here : (b.peek (if elided then 1 else 0)).kind = .identifier) :
    SpellsPart b (memberTarget elided) := by
  unfold memberTarget
  cases elided with
  | true =>
    refine .behind fun _ b₁ run => memberName_spellsPart ?_
    rw [Buffer.current, consumeAny_peek run]
    exact here
  | false => exact .behind fun _ _ _ => .behind fun _ _ _ => .behind fun _ _ _ => .behind fun _ _ _ => shapeId_spellsPart

theorem nodeValue_spellsPart : SpellsPart b nodeValue := nodeValue_spells.mono fun _ _ word => word.endsPart

end Grammar

/-! ### Rows up to spaces -/

namespace Schema

variable {r : Rows} {u : List Symbol}

/-- The rows without spaces. -/
def unspaced : Rows → Rows
  | .zero => .zero
  | .epsilon => .epsilon
  | .char s => if s = .node .spaces then .epsilon else .char s
  | .plus r q => .plus (unspaced r) (unspaced q)
  | .comp r q => .comp (unspaced r) (unspaced q)
  | .star r => .star (unspaced r)

/-- A row without its spaces. -/
def solid (u : List Symbol) : List Symbol := u.filter (· ≠ .node .spaces)

theorem solid_mem_unspaced (h : u ∈ r.matches') : solid u ∈ (unspaced r).matches' := by
  induction r generalizing u with
  | zero => cases h
  | epsilon =>
    obtain rfl := h
    exact rfl
  | char a =>
    obtain rfl := h
    by_cases space : a = .node .spaces
    · rw [unspaced, if_pos space, solid, List.filter_eq_nil_iff.mpr (by simpa using space)]
      exact rfl
    · rw [unspaced, if_neg space, solid, List.filter_eq_self.mpr (by simpa using space)]
      exact rfl
  | plus r q ihr ihq => exact h.imp ihr ihq
  | comp r q ihr ihq =>
    obtain ⟨v, hv, w, hw, rfl⟩ := h
    exact ⟨_, ihr hv, _, ihq hw, (List.filter_append ..).symm⟩
  | star r ih =>
    obtain ⟨L, rfl, all⟩ := Language.mem_kstar.mp h
    refine Language.mem_kstar.mpr ⟨L.map solid, List.filter_flatten .., fun w hw => ?_⟩
    obtain ⟨v, hv, rfl⟩ := List.mem_map.mp hw
    exact ih (all v hv)

theorem solid_cons_eq_nil {a : Symbol} : solid (a :: u) = [] ↔ a = .node .spaces ∧ solid u = [] := by
  simp [solid]

/-- The last symbol other than spaces stands behind the first symbol, or is the first one. -/
theorem solid_cons_last {a s : Symbol} (last : (solid (a :: u)).getLast? = some s) :
    (solid u).getLast? = some s ∨ solid u = [] ∧ a = s := by
  have split : solid (a :: u) = solid [a] ++ solid u := List.filter_append [a] u
  rw [split] at last
  rcases List.eq_nil_or_concat (solid u) with nothing | ⟨init, z, joined⟩
  · rw [nothing, List.append_nil] at last
    have here := List.mem_filter.mp (List.mem_of_getLast? last)
    exact .inr ⟨nothing, (List.mem_singleton.mp here.1).symm⟩
  · rw [joined] at last ⊢
    exact .inl (by simpa using last)

/-- Whether the last token below a symbol ends a part of a statement, where spaces behind it are passed over. -/
def endsPart : Symbol → Bool
  | .token kind => kind.isLast
  | .node kind => kind ∈ inLineKinds && kind ≠ .spaces
  | .absoluteId => true

theorem production_endsPart : ∀ k ∈ inLineKinds, k ≠ .spaces →
    (∀ s ∈ lasts (unspaced (production k)), endsPart s = true) ∧ (unspaced (production k)).matchEpsilon = false := by
  decide

end Schema

namespace Forest

open Schema

variable {ts : Array Token} {F : Forest} {s : Symbol}

theorem symbols_spaces : ∀ s ∈ symbols (production .spaces), s = .token .space := by decide

/-- Below spaces there are spaces only. -/
theorem kind_of_spaces (h : F.row ts ∈ (production .spaces).matches') :
    ∀ m ∈ F.tokens, kindAt ts m = .space := by
  have only : ∀ s ∈ F.row ts, s = .token .space := fun s hs => symbols_spaces s (mem_symbols h hs)
  clear h
  induction F with
  | nil => nofun
  | leaf id token rest ih =>
    obtain ⟨here, only⟩ := List.forall_mem_cons.mp only
    exact List.forall_mem_cons.mpr ⟨Symbol.token.inj here, ih only⟩
  | branch id label inner rest =>
    obtain ⟨here, -⟩ := List.forall_mem_cons.mp only
    unfold Symbol.ofNode at here
    split at here <;> cases here

/-- Without a symbol other than spaces there are spaces only. -/
theorem kind_of_solid_nil (conf : F.Conforms ts) (nothing : Schema.solid (F.row ts) = []) :
    ∀ m ∈ F.tokens, kindAt ts m = .space := by
  induction F with
  | nil => nofun
  | leaf id token rest => cases nothing
  | branch id label inner rest _ ih =>
    obtain ⟨row, below, behind⟩ := conf
    obtain ⟨here, nothing⟩ := solid_cons_eq_nil.mp nothing
    have kind := congrArg Symbol.kind here
    rw [Symbol.kind_ofNode, Symbol.kind] at kind
    intro m among
    rcases List.mem_append.mp among with among | among
    · exact kind_of_spaces (kind ▸ row) m among
    · exact ih behind nothing m among

/-- A row that ends with such a symbol ends with a token that ends a part of a statement, and spaces. -/
theorem exists_last_token (conf : F.Conforms ts) (last : (Schema.solid (F.row ts)).getLast? = some s)
    (ends : endsPart s = true) :
    ∃ front j spaces, F.tokens = front ++ j :: spaces ∧ (kindAt ts j).isLast = true ∧
      ∀ m ∈ spaces, kindAt ts m = .space := by
  induction F generalizing s with
  | nil => cases last
  | leaf id token rest ih =>
    rcases solid_cons_last last with behind | ⟨nothing, rfl⟩
    · obtain ⟨front, j, spaces, tokens, kind⟩ := ih conf behind ends
      exact ⟨token :: front, j, spaces, by simp [tokens], kind⟩
    · exact ⟨[], token, rest.tokens, rfl, ends, kind_of_solid_nil conf nothing⟩
  | branch id label inner rest ihi ihr =>
    obtain ⟨row, below, conf⟩ := conf
    rcases solid_cons_last last with behind | ⟨nothing, rfl⟩
    · obtain ⟨front, j, spaces, tokens, kind⟩ := ihr conf behind ends
      exact ⟨inner.tokens ++ front, j, spaces, by simp [tokens], kind⟩
    · have among : label.kind ∈ inLineKinds ∧ label.kind ≠ .spaces := by
        unfold Symbol.ofNode at ends
        split at ends
        · next absolute =>
          rw [absolute.1]
          decide
        · simpa [endsPart] using ends
      obtain ⟨lasts, some⟩ := production_endsPart _ among.1 among.2
      have within := solid_mem_unspaced row
      rcases List.eq_nil_or_concat (Schema.solid (inner.row ts)) with empty | ⟨init, z, joined⟩
      · rw [empty] at within
        exact absurd (matchEpsilon_of_nil within) (by simp [some])
      · have final : (Schema.solid (inner.row ts)).getLast? = .some z := by simp [joined]
        obtain ⟨front, j, spaces, tokens, kind, blank⟩ := ihi below final (lasts z (mem_lasts within final))
        refine ⟨front, j, spaces ++ rest.tokens, by simp [tokens], kind, fun m among => ?_⟩
        rcases List.mem_append.mp among with among | among
        · exact blank m among
        · exact kind_of_solid_nil conf nothing m among

end Forest

/-- Among trees that were added the last token but for spaces is found. -/
theorem Buffer.Gathers.exists_last {b : Buffer} {ts : Array Token} {v : View} {F : Forest} {s : Symbol}
    (h : b.Gathers ts (v.grow F)) (conf : F.Conforms ts) (last : (Schema.solid (F.row ts)).getLast? = some s)
    (ends : Schema.endsPart s = true) :
    ∃ j, j < b.cursor ∧ (kindAt ts j).isLast = true ∧ Only ts Grammar.isBlank (j + 1) b.cursor := by
  obtain ⟨front, j, spaces, tokens, kind, blank⟩ := Forest.exists_last_token conf last ends
  have whole := h.shown.tokens_whole h.alone
  rw [View.tokens_grow, tokens, ← List.append_assoc] at whole
  have lt : j < b.cursor := List.mem_range.mp (whole ▸ by simp)
  refine ⟨j, lt, kind, fun m le inside => ?_⟩
  have increasing : (v.whole.tokens ++ front ++ j :: spaces).Pairwise (· < ·) := whole ▸ List.pairwise_lt_range
  obtain ⟨-, -, before⟩ := List.pairwise_append.mp increasing
  have among : m ∈ v.whole.tokens ++ front ++ j :: spaces := whole ▸ List.mem_range.mpr inside
  -- What stands up to `j` is not behind it.
  rcases List.mem_append.mp among with among | among
  · exact absurd (before m among j List.mem_cons_self) (Nat.not_lt_of_le (Nat.le_of_succ_le le))
  · rcases List.mem_cons.mp among with rfl | among
    · exact absurd le (Nat.not_succ_le_self m)
    · rw [blank m among]
      rfl

end SmithyIdl
