import SmithyIdl.Proofs.Buffer.Runs
import SmithyIdl.Proofs.Token.Order
import SmithyIdl.Proofs.Token.Replaced

/-! # Other whitespace before a sign

Between the name of a property and the sign of a structure that is defined in place stands whitespace. Where two texts
have the same tokens but for it, those up to the name stand where they did, and of those behind the sign the same ones
begin a line. -/

namespace SmithyIdl

/-- The same token, which begins a line in both texts or in neither. -/
structure Token.Alike (t t' : Token) : Prop extends Token.Same t t' where
  begins : t'.start.column = 1 ↔ t.start.column = 1

/-- The name `n` has whitespace behind it, and then the sign `s` of a structure that is defined in place. -/
structure InlineSign (ts : Array Token) (n s : Nat) : Prop where
  name : kindAt ts n = .identifier
  less : n < s
  run : ∀ m, n < m → m < s → (kindAt ts m).isWhitespace = true
  sign : kindAt ts s = .walrus

instance (ts : Array Token) (n s : Nat) : Decidable (InlineSign ts n s) :=
  decidable_of_iff (kindAt ts n = .identifier ∧ n < s ∧ (∀ m < s, n < m → (kindAt ts m).isWhitespace = true) ∧
    kindAt ts s = .walrus)
    ⟨fun ⟨name, less, run, sign⟩ => ⟨name, less, fun m behind before => run m before behind, sign⟩,
      fun h => ⟨h.name, h.less, fun m before behind => h.run m behind before, h.sign⟩⟩

/-- In both of two texts the name `n` has such a sign, and the same comes behind them. -/
structure InlineSigns (ts ts' : Array Token) (n s s' : Nat) : Prop where
  sign : InlineSign ts n s
  sign' : InlineSign ts' n s'
  behind : List.Forall₂ Token.Alike (ts.toList.drop (s + 1)) (ts'.toList.drop (s' + 1))

/-- The second text has the tokens of the first one, but for the whitespace between the name `n` and the sign of a
    structure that is defined in place: this is the token `s` of the one and `s'` of the other. -/
structure RespacesSign (text text' : String) (n s s' : Nat) : Prop where
  sign : InlineSign (tokens text).toArray n s
  sign' : InlineSign (tokens text').toArray n s'
  before : List.Forall₂ Token.Same ((tokens text).take (n + 1)) ((tokens text').take (n + 1))
  behind : List.Forall₂ Token.Same ((tokens text).drop s) ((tokens text').drop s')

instance (text text' : String) (n s s' : Nat) : Decidable (RespacesSign text text' n s s') :=
  decidable_of_iff (InlineSign (tokens text).toArray n s ∧ InlineSign (tokens text').toArray n s' ∧
    List.Forall₂ Token.Same ((tokens text).take (n + 1)) ((tokens text').take (n + 1)) ∧
    List.Forall₂ Token.Same ((tokens text).drop s) ((tokens text').drop s'))
    ⟨fun ⟨sign, sign', before, behind⟩ => ⟨sign, sign', before, behind⟩, fun h => ⟨h.sign, h.sign', h.before, h.behind⟩⟩

/-! ### Places -/

/-- Behind a token both texts are at the start of a line, or neither is. -/
theorem Position.begins_advance {p p' : Position} {cs : List Char} (some : cs ≠ []) (column : 0 < p.column)
    (column' : 0 < p'.column) : (p'.advance cs).column = 1 ↔ (p.advance cs).column = 1 := by
  have wide : 0 < byteLength cs := by
    obtain ⟨c, ds, rfl⟩ := List.exists_cons_of_ne_nil some
    exact Nat.lt_of_lt_of_le c.utf8Size_pos (Nat.le_add_right ..)
  rw [advance_eq, advance_eq]
  split
  · dsimp only
    omega
  · exact .rfl

theorem Position.column_advance_pos {p : Position} (column : 0 < p.column) (cs : List Char) :
    0 < (p.advance cs).column := by
  rw [advance_eq]
  split
  · exact Nat.lt_of_lt_of_le column (Nat.le_add_right ..)
  · exact Nat.lt_of_lt_of_le Nat.one_pos (Nat.le_add_right ..)

/-- Behind the first one the same tokens are alike, wherever the texts stand. -/
theorem Scans.alike {o o' : Nat} {p p' : Position} {cs cs' : List Char} {ts ts' : List Token} (h : Scans o p cs ts)
    (h' : Scans o' p' cs' ts') (same : List.Forall₂ Token.Same ts ts') (column : 0 < p.column) (column' : 0 < p'.column) :
    List.Forall₂ Token.Alike ts.tail ts'.tail := by
  induction h generalizing o' p' cs' ts' with
  | nil o p =>
    obtain _ | ⟨-, ⟨⟩⟩ := same
    exact .nil
  | @cons o p c cs ts rest ih =>
    obtain _ | ⟨first, others⟩ := same
    obtain ⟨-, -, stop, ends⟩ := h'.first
    have here : (Token.scanned o p c cs).stop = p.advance (Token.scanned o p c cs).lexeme.toList := by
      rw [Token.scanned_lexeme]
      rfl
    have word : (Token.scanned o p c cs).lexeme.toList ≠ [] := by
      rw [Token.scanned_lexeme]
      exact List.cons_ne_nil _ _
    rw [first.lexeme] at stop
    rw [here] at rest ih
    rcases ends with rfl | ⟨_, scans⟩
    · cases others
      exact .nil
    · rw [stop] at scans
      have ih := ih scans others (Position.column_advance_pos column _) (Position.column_advance_pos column' _)
      cases others with
      | nil => exact .nil
      | cons second _ =>
        refine .cons ⟨second, ?_⟩ ih
        rw [rest.first.2.1, scans.first.2.1]
        exact Position.begins_advance word column column'

theorem column_pos {text : String} {t : Token} (among : t ∈ tokens text) : 0 < t.start.column := by
  obtain ⟨us, vs, -, stands⟩ := (tokens_follow text).exists_stands among
  rw [stands.start, Position.behind]
  exact Nat.lt_of_lt_of_le Nat.one_pos (Nat.le_add_right ..)

namespace InlineSign

variable {ts : Array Token} {n s : Nat} (h : InlineSign ts n s)
include h

/-- Behind the name comes whitespace or the sign. -/
theorem next : (kindAt ts (n + 1)).isWhitespace = true ∨ kindAt ts (n + 1) = .walrus := by
  rcases Nat.eq_or_lt_of_le (Nat.succ_le_of_lt h.less) with here | before
  · exact .inr ((show n + 1 = s from here) ▸ h.sign)
  · exact .inl (h.run _ (Nat.lt_succ_self n) before)

theorem lt_size : s < ts.size := by
  refine Nat.lt_of_not_le fun out => ?_
  have sign := h.sign
  rw [kindAt, Array.getElem?_eq_none out] at sign
  cases sign

end InlineSign

namespace InlineSigns

variable {ts ts' : Array Token} {n s s' : Nat} (h : InlineSigns ts ts' n s s')
include h

theorem kindAt_eq (j : Nat) : kindAt ts' (s' + j) = kindAt ts (s + j) := by
  cases j with
  | zero => exact h.sign'.sign.trans h.sign.sign.symm
  | succ j =>
    have both := rel_getElem? h.behind j
    rw [List.getElem?_drop, List.getElem?_drop, Nat.add_assoc, Nat.add_assoc, Nat.add_comm 1, Array.getElem?_toList,
      Array.getElem?_toList] at both
    rw [kindAt, kindAt]
    generalize ts[s + (j + 1)]? = t, ts'[s' + (j + 1)]? = t' at both
    cases both with
    | none => rfl
    | some alike => exact congrArg TokenContent.kind alike.content

/-- As many tokens are left. -/
theorem left_eq : ts'.size - s' = ts.size - s := by
  have length := h.behind.length_eq
  have made := h.sign.lt_size
  have made' := h.sign'.lt_size
  rw [List.length_drop, List.length_drop, Array.length_toList, Array.length_toList] at length
  omega

end InlineSigns

namespace RespacesSign

variable {text text' : String} {n s s' i : Nat} (h : RespacesSign text text' n s s')
include h

/-- Up to the name there are the same tokens in the same places. -/
theorem getElem?_eq (upTo : i ≤ n) : (tokens text')[i]? = (tokens text)[i]? := by
  have all := List.take_append_drop (n + 1) (tokens text)
  have all' := List.take_append_drop (n + 1) (tokens text')
  have stays : List.Forall₂ Displacement.zero.Tokens ((tokens text).take (n + 1)) ((tokens text').take (n + 1)) :=
    Scans.displaced h.before (all.symm ▸ tokens_scans text) (all'.symm ▸ tokens_scans text')
      (Displacement.offsets_zero.mpr rfl) (Displacement.positions_zero.mpr rfl)
  have equal : (tokens text).take (n + 1) = (tokens text').take (n + 1) :=
    List.forall₂_eq_eq_eq ▸ stays.imp fun _ _ h => (Displacement.tokens_zero.mp h).symm
  rw [← List.getElem?_take_of_lt (Nat.lt_succ_of_le upTo), ← equal, List.getElem?_take_of_lt (Nat.lt_succ_of_le upTo)]

/-- Behind the signs the same tokens begin a line. -/
theorem signs : InlineSigns (tokens text).toArray (tokens text').toArray n s s' := by
  have made : s < (tokens text).length := h.sign.lt_size
  have made' : s' < (tokens text').length := h.sign'.lt_size
  obtain ⟨cs, scans⟩ := (tokens_scans text).exists_drop (List.getElem?_eq_getElem made)
  obtain ⟨cs', scans'⟩ := (tokens_scans text').exists_drop (List.getElem?_eq_getElem made')
  have alike := scans.alike scans' h.behind (column_pos (List.getElem_mem made)) (column_pos (List.getElem_mem made'))
  rw [List.tail_drop, List.tail_drop] at alike
  exact ⟨h.sign, h.sign', alike⟩

end RespacesSign

/-! ### Looks -/

namespace Buffer

variable {b b' : Buffer} {kinds : TokenKind → Bool} {n s s' k k' j : Nat}

theorem EndsWithEof.kind_peek (ends : b.EndsWithEof) (k : Nat) : (b.peek k).kind = kindAt b.tree.tokens (b.cursor + k) := by
  rcases Nat.le_total (b.cursor + k) b.eof with inside | past
  · exact Buffer.kind_peek inside
  · obtain ⟨last, found, kind⟩ := ends
    rw [peek, Nat.min_eq_right past, found]
    rcases Nat.eq_or_lt_of_le past with here | out
    · rw [kindAt, ← here, found]
    · have none : b.tree.tokens[b.cursor + k]? = none :=
        Array.getElem?_eq_none (Nat.le_of_pred_lt out)
      rw [kindAt, none]
      exact kind

theorem EndsWithEof.lt_of_kindAt (ends : b.EndsWithEof) (other : kindAt b.tree.tokens k ≠ .eof) : k < b.eof := by
  refine Nat.lt_of_not_le fun past => other ?_
  obtain ⟨last, found, kind⟩ := ends
  rcases Nat.eq_or_lt_of_le past with rfl | out
  · rw [kindAt, found]
    exact kind
  · have none : b.tree.tokens[k]? = none := Array.getElem?_eq_none (Nat.le_of_pred_lt out)
    rw [kindAt, none]
    rfl

/-- A look goes past the tokens of its class. -/
theorem lookPast_over {k : Nat} (upTo : k ≤ j) (inside : b.cursor + j ≤ b.eof)
    (all : ∀ m, b.cursor + k ≤ m → m < b.cursor + j → kinds (kindAt b.tree.tokens m) = true) :
    b.lookPast k kinds = b.lookPast j kinds := by
  rcases Nat.eq_or_lt_of_le upTo with rfl | less
  · rfl
  · have here : b.cursor + k < b.cursor + j := Nat.add_lt_add_left less _
    have more : kinds (b.peek k).kind = true := by
      rw [Buffer.kind_peek (Nat.le_trans (Nat.le_of_lt here) inside)]
      exact all _ (Nat.le_refl _) here
    rw [lookPast, if_pos ⟨Nat.lt_of_lt_of_le here inside, more⟩]
    exact lookPast_over less inside fun m behind => all m (Nat.le_of_succ_le behind)
termination_by j - k

section
variable (h : InlineSigns b.tree.tokens b'.tree.tokens n s s') (ends : b.EndsWithEof) (ends' : b'.EndsWithEof)
include h ends ends'

/-- From the signs on, looks see the same kinds. -/
theorem kind_lookPast_behind {k k' j : Nat} (here : b.cursor + k = s + j) (here' : b'.cursor + k' = s' + j) :
    (b'.lookPast k' kinds).kind = (b.lookPast k kinds).kind := by
  have left := h.left_eq
  have seen : (b'.peek k').kind = (b.peek k).kind := by rw [ends.kind_peek, ends'.kind_peek, here, here', h.kindAt_eq]
  have same : (b'.cursor + k' < b'.eof ∧ kinds (b'.peek k').kind = true) ↔
      (b.cursor + k < b.eof ∧ kinds (b.peek k).kind = true) := by
    rw [seen, here, here', eof, eof]
    refine and_congr_left fun _ => ?_
    omega
  rw [lookPast.eq_def b, lookPast.eq_def b']
  by_cases more : b.cursor + k < b.eof ∧ kinds (b.peek k).kind = true
  · rw [if_pos more, if_pos (same.mpr more)]
    exact kind_lookPast_behind (j := j + 1) (by omega) (by omega)
  · rw [if_neg more, if_neg (mt same.mp more), seen]
termination_by b.eof - (b.cursor + k)

/-- Behind the name, looks past whitespace see the same kinds. -/
theorem kind_lookPast (white : ∀ kind : TokenKind, kind.isWhitespace = true → kinds kind = true)
    (behind : n < b.cursor + k) (upTo : b.cursor + k ≤ s) (behind' : n < b'.cursor + k') (upTo' : b'.cursor + k' ≤ s') :
    (b'.lookPast k' kinds).kind = (b.lookPast k kinds).kind := by
  have skipped {c : Buffer} {r k : Nat} (sign : InlineSign c.tree.tokens n r) (ends : c.EndsWithEof)
      (behind : n < c.cursor + k) (upTo : c.cursor + k ≤ r) :
      c.lookPast k kinds = c.lookPast (r - c.cursor) kinds := by
    have inside := ends.lt_of_kindAt (k := r) (by rw [sign.sign]; decide)
    have there : c.cursor + (r - c.cursor) = r := by omega
    refine lookPast_over (by omega) (by omega) fun m onward before => white _ (sign.run m (by omega) (by omega))
  rw [skipped h.sign ends behind upTo, skipped h.sign' ends' behind' upTo']
  exact kind_lookPast_behind h ends ends' (j := 0) (by omega) (by omega)

end

end Buffer

end SmithyIdl
