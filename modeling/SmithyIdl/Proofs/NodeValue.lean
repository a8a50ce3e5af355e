import SmithyIdl.Proofs.Grammar.Model
import SmithyIdl.Proofs.Grammar.Spelled
import SmithyIdl.Proofs.Grammar.Taken
import SmithyIdl.Proofs.Token.Adjacent

/-! # Node values are read exactly

A read of a node value that reports nothing takes the tokens of a node value. Where such tokens come, it takes all of
them and reports nothing, unless a shape id could go on behind them or they nest too deep. -/

namespace SmithyIdl

theorem drop_eq_extract {ts : List Token} {i j : Nat} (le : i ≤ j) : ts.drop i = ts.extract i j ++ ts.drop j := by
  have split := List.take_append_drop (j - i) (ts.drop i)
  rw [List.drop_drop, Nat.add_sub_cancel' le] at split
  rw [List.extract_eq_take_drop, split]

namespace Buffer

variable {b b' : Buffer} {v : View} {i j k : Nat} {text : String} {t : Token} {w us : List Token}

/-- The tokens before some others come. -/
theorem comes_of_drop (left : us ≠ []) (split : b.tree.tokens.toList.drop (b.cursor + k) = w ++ us) :
    b.Comes k w (k + w.length) := by
  induction w generalizing k with
  | nil => exact .nil
  | cons t w ih =>
    have here : b.tree.tokens.toList[b.cursor + k]? = some t := by
      rw [← List.head?_drop, split]
      rfl
    have rest : b.tree.tokens.toList.drop (b.cursor + (k + 1)) = w ++ us := by
      rw [← Nat.add_assoc, ← List.tail_drop, split]
      rfl
    have more := congrArg List.length rest
    have some := List.length_pos_iff.mpr left
    rw [List.length_drop, Array.length_toList, List.length_append] at more
    rw [List.length_cons, Nat.add_comm w.length, ← Nat.add_assoc]
    exact .cons (peek_of_getElem? here) (by rw [eof]; omega) (ih rest)

/-- No two identifiers of a text are next to each other. -/
theorem apart_of_tokens (same : b.tree.tokens = (tokens text).toArray) : b.Apart := by
  intro k left kind
  have place {j : Nat} (inside : b.cursor + j ≤ b.eof) : (tokens text)[b.cursor + j]? = some (b.peek j) := by
    have made : b.cursor + j < (tokens text).length := by
      rw [eof, same, List.size_toArray] at inside left
      omega
    obtain ⟨t, here⟩ : ∃ t, (tokens text)[b.cursor + j]? = some t := ⟨_, List.getElem?_eq_getElem made⟩
    rw [here, peek_of_getElem? (by rw [same]; exact here)]
  exact tokens_not_adjacent (place (Nat.le_of_lt left)) (place (j := k + 1) left) kind

/-- A parse can stand before every token of a text, with any number of open nodes. -/
theorem exists_shows_at (filename text : String) (maxDepth d : Nat) (inside : i < (tokens text).length) :
    ∃ b v, Shows b v ∧ b.tree.tokens = (tokens text).toArray ∧ b.cursor = i ∧ b.openNodes.length = d + 1 ∧
      b.maxDepth = maxDepth := by
  induction d with
  | zero =>
    induction i with
    | zero => exact ⟨_, _, Grammar.ofText_shows filename text maxDepth, rfl, rfl, rfl, rfl⟩
    | succ i ih =>
      obtain ⟨b, v, shown, same, cursor, deep, limit⟩ := ih (by omega)
      have more : b.hasNext = true := by
        rw [hasNext_iff, eof, same, cursor, List.size_toArray]
        omega
      obtain ⟨b', run, shown'⟩ := Parser.run_shift shown more
      have leads := Parser.Steady.ok run
      obtain ⟨-, t, -, rfl⟩ := Parser.shift_ok run
      exact ⟨_, _, shown', leads.tokens.trans same, congrArg (· + 1) cursor, deep, limit⟩
  | succ d ih =>
    obtain ⟨b, v, shown, same, cursor, deep, limit⟩ := ih
    obtain ⟨b', run, shown'⟩ := Parser.run_openNode shown .nodeValue
    have leads := Parser.Steady.ok run
    obtain ⟨-, -, cursor', -⟩ := Parser.openNode_ok run
    refine ⟨b', _, shown', leads.tokens.trans same, cursor'.trans cursor, ?_, leads.maxDepth.trans limit⟩
    rw [shown'.length_openNodes, View.enter_names, List.length_cons, ← shown.length_openNodes, deep]

end Buffer

theorem Parser.exists_ok_of_grows {α : Type} {p : Parser α} [Parser.Grows p] [Parser.Unfailing p] {b : Buffer} {v : View}
    (shown : b.Shows v) : ∃ a b', p.run b = .ok a b' ∧ b'.ShowsGrown v := by
  have ensures : p.Ensures b (fun _ b' => b'.ShowsGrown v) fun b' => b'.ShowsGrown v := Parser.Grows.grows shown
  rw [Parser.Ensures] at ensures
  cases run : p.run b with
  | ok a b' =>
    rw [run] at ensures
    exact ⟨a, b', rfl, ensures⟩
  | error e b' => exact absurd run Parser.Unfailing.not_error
  | fault why =>
    rw [run] at ensures
    exact ensures.elim

namespace Grammar

open SmithyIdl.Parser

variable {b : Buffer} {v : View} {text : String}

instance nodeValueWithin_unfailing (n : Nat) : Unfailing (nodeValueWithin n) := by
  cases n <;> exact Unfailing.within _ _

instance nodeValue_unfailing : Unfailing nodeValue := by
  unfold nodeValue
  infer_instance

/-- A node value that comes is taken. -/
theorem nodeValue_takes {w us : List Token} {t : Token} (same : b.tree.tokens = (tokens text).toArray)
    (split : b.rest = w ++ t :: us) (word : IsNodeValue w) (ends : t.kind.goesOn = false)
    (room : b.openNodes.length + 3 * w.length ≤ b.maxDepth) :
    Takes b b.openNodes.length 0 w.length (nodeValueWithin (depthLeft b)) fun _ => True := by
  have comes : b.Comes 0 w w.length := by
    simpa using Buffer.comes_of_drop (k := 0) (List.cons_ne_nil t us) split
  have behind : b.peek w.length = t := by
    refine Buffer.peek_of_getElem? ?_
    rw [← List.getElem?_drop, ← Buffer.rest, split, List.getElem?_append_right (Nat.le_refl _), Nat.sub_self]
    rfl
  rw [← behind] at ends
  exact nodeValueWithin_takes (b.apart_of_tokens same) word (by rw [depthLeft]; omega) room 0 _ comes ends

/-- Before any token of a text and with any number of open nodes, a read of a node value comes to an end. Where it
reports nothing, its tokens are those of a node value; and where these come, it reports nothing and takes them all, if no
shape id could go on behind them and enough nodes may be open. -/
theorem nodeValue_exact (shown : b.Shows v) (same : b.tree.tokens = (tokens text).toArray) :
    ∃ b', nodeValue.run b = .ok () b' ∧
      (b'.errors = b.errors → IsNodeValue ((tokens text).extract b.cursor b'.cursor)) ∧
      ∀ j t, IsNodeValue ((tokens text).extract b.cursor j) → (tokens text)[j]? = some t →
        t.kind ≠ .dot → t.kind ≠ .pound → t.kind ≠ .dollar →
        b.openNodes.length + 3 * (j - b.cursor) + 4 ≤ b.maxDepth → b'.errors = b.errors ∧ b'.cursor = j := by
  obtain ⟨⟨⟩, b', run, F, shown'⟩ := exists_ok_of_grows (p := nodeValue) shown
  have leads := Steady.ok run
  have all : b.tree.tokens.toList = tokens text := by rw [same, List.toList_toArray]
  refine ⟨b', run, fun clean => ?_, fun j t word place noDot noPound noDollar room => ?_⟩
  · obtain ⟨w, split, word⟩ := nodeValue_spells run clean
    rw [Buffer.rest, Buffer.rest, leads.tokens, all, drop_eq_extract leads.cursor] at split
    obtain rfl := (List.append_cancel_right split).symm
    exact word
  · have le : b.cursor ≤ j := by
      obtain ⟨_, _, some, -⟩ := word.start
      have lengths := congrArg List.length some
      rw [List.extract_eq_take_drop, List.length_take, List.length_cons] at lengths
      omega
    obtain ⟨made, found⟩ := List.getElem?_eq_some_iff.mp place
    have split : b.rest = (tokens text).extract b.cursor j ++ t :: (tokens text).drop (j + 1) := by
      rw [Buffer.rest, all, drop_eq_extract le, List.drop_eq_getElem_cons made, found]
    have long : ((tokens text).extract b.cursor j).length = j - b.cursor := by
      rw [List.extract_eq_take_drop, List.length_take, List.length_drop]
      omega
    have ends := TokenKind.goesOn_eq_false.mpr ⟨noDot, noPound, noDollar⟩
    have reads := (nodeValue_takes same split word ends (by omega)).ok (.start b) run
    exact ⟨reads.2.errors, by rw [reads.2.cursor, long, Nat.add_sub_cancel' le]⟩

theorem nodeValue_exact_array : ∃ b', nodeValue.run (.ofText "a.smithy" "[a]" 16) = .ok () b' ∧ b'.errors = 0 ∧
    b'.cursor = 3 := by
  obtain ⟨b', run, -, takes⟩ := nodeValue_exact (ofText_shows "a.smithy" "[a]" 16) rfl
  have row : (tokens "[a]").extract 0 3 =
      [⟨.plain .lbracket, "[", ⟨0, 1⟩, ⟨1, 1⟩, ⟨1, 2⟩⟩, ⟨.plain .identifier, "a", ⟨1, 2⟩, ⟨1, 2⟩, ⟨1, 3⟩⟩,
        ⟨.plain .rbracket, "]", ⟨2, 3⟩, ⟨1, 3⟩, ⟨1, 4⟩⟩] := by decide +kernel
  have name : IsNodeValue [⟨.plain .identifier, "a", ⟨1, 2⟩, ⟨1, 2⟩, ⟨1, 3⟩⟩] :=
    .id (.relative rfl) (by decide) .none
  have word : IsNodeValue ((tokens "[a]").extract 0 3) := by
    rw [row]
    exact @IsNodeValue.array _ _ [] [([_], [])] rfl nofun (by simpa using name) (by simp [AreTrivia]) rfl
  have ended : (tokens "[a]")[3]? = some ⟨.plain .eof, "", ⟨3, 3⟩, ⟨1, 4⟩, ⟨1, 4⟩⟩ := by decide +kernel
  exact ⟨b', run, takes 3 _ word ended (by decide) (by decide) (by decide) (by decide)⟩

end Grammar

end SmithyIdl
