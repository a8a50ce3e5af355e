import SmithyIdl.Proofs.Tree.Starts
import SmithyIdl.Proofs.Trivia.Respaced
import SmithyIdl.Proofs.Trivia.Trees

/-! # Structures defined in place

Whether the input or the output of an operation is defined in place is decided by a look past the whitespace behind the
name of the property. Documentation comments are no such whitespace, but whitespace is then read with them. -/

namespace SmithyIdl

/-- A property with a colon defines nothing in place. -/
theorem Schema.not_inline_of_colon {u : List Symbol} (h : u ∈ operationTarget.matches') (colon : .token .colon ∈ u) :
    .node .inlineStructure ∉ u := by
  obtain ⟨name, hname, _, ⟨white, hwhite, _, ⟨target, htarget, _, ⟨⟩, rfl⟩, rfl⟩, rfl⟩ := h
  have apart {s : Symbol} (other : s ∉ symbols (one .keyword) ++ symbols space)
      (among : s ∈ name ++ (white ++ (target ++ []))) : s ∈ target := by
    have := mem_symbols (s := s) hname
    have := mem_symbols (s := s) hwhite
    grind
  have colon := apart (by decide) colon
  intro inline
  have inline := apart (by decide) inline
  rcases htarget with htarget | htarget
  · exact absurd (mem_symbols htarget colon) (by decide)
  · exact absurd (mem_symbols htarget inline) (by decide)

/-- The sign of a structure is its first token. -/
theorem Forest.head?_of_inlineStructure {ts : Array Token} {F : Forest} {s : TokenId} (conf : F.Conforms ts)
    (row : F.row ts ∈ (Schema.production .inlineStructure).matches') (among : s ∈ F.tokens)
    (sign : kindAt ts s = .walrus) : F.tokens.head? = some s := by
  obtain ⟨_, rfl, behind, inside, all⟩ := row
  cases F with
  | nil => cases all
  | leaf id token rest =>
    obtain ⟨-, rfl⟩ := List.cons.inj all
    rcases List.mem_cons.mp among with rfl | among
    · rfl
    · have conf : rest.Conforms ts := conf
      exact absurd sign (kindAt_ne_walrus conf (fun _ => Schema.isSignless_of_matches rfl inside) among)
  | branch id label inner rest =>
    obtain ⟨here, -⟩ := List.cons.inj all
    unfold Symbol.ofNode at here
    split at here <;> cases here

namespace Grammar.Finished

variable {b : Buffer} {text : String} {F : Forest} (h : Finished b text F .nil)
  (conf : (Forest.branch SyntaxTree.root (.plain .idl) F .nil).Conforms (SmithyIdl.tokens text).toArray)
  (orderly : F.Orderly (SmithyIdl.tokens text).toArray)
include h conf orderly

/-- Behind the name of an input or output comes trivia and then a colon or the sign of a structure. -/
theorem exists_sign {id : NodeId}
    (kind : b.tree.kind? id = some .operationInput ∨ b.tree.kind? id = some .operationOutput) :
    ∃ before name run sign behind, SmithyIdl.tokens text = before ++ name :: run ++ sign :: behind ∧
      (Reading.firstToken? id).run' b.tree = .ok (some name) ∧ (∀ t ∈ run, t.kind.isTrivia = true) ∧
      (sign.kind = .colon ∧ (∀ c ∈ b.tree.childrenOf id, b.tree.kind? c ≠ some .inlineStructure) ∨
        sign.kind = .walrus ∧ (∀ t ∈ run, t.kind ≠ .docComment) ∧
          ∃ front c, b.tree.childrenOf id = front ++ [c] ∧ b.tree.kind? c = some .inlineStructure ∧
            (Reading.firstToken? c).run' b.tree = .ok (some sign)) := by
  obtain ⟨sort, mem, kind⟩ : ∃ sort ∈ [TreeKind.operationInput, .operationOutput], b.tree.kind? id = some sort :=
    kind.elim (fun kind => ⟨_, by simp, kind⟩) fun kind => ⟨_, by simp, kind⟩
  obtain ⟨upper, production, node⟩ : sort.isLower = false ∧ Schema.production sort = Schema.operationTarget ∧
      ∀ ts F, OrderlyNode ts sort F → Signed ts F := by
    rcases List.mem_cons.mp mem with rfl | mem
    · exact ⟨rfl, rfl, fun _ _ node => node⟩
    · obtain rfl := List.mem_singleton.mp mem
      exact ⟨rfl, rfl, fun _ _ node => node⟩
  obtain ⟨way, label, inner, place, short, -, row, said⟩ := h.exists_orderlyNode conf orderly kind upper
  obtain ⟨c, s, first, less, trivia, signed⟩ := node _ _ said
  have made : s < (SmithyIdl.tokens text).length := lt_of_kindAt (by rcases signed with ⟨sign, -⟩ | ⟨sign, -⟩ <;> simp [sign])
  have read {i : TokenId} (made : i < (SmithyIdl.tokens text).length) :
      b.tree.tokens[i]? = some (tokenAt (SmithyIdl.tokens text).toArray i) := by
    rw [h.tokens, List.getElem?_toArray]
    exact exists_tokenAt made
  have between {t : Token} (among : t ∈ (SmithyIdl.tokens text).extract (c + 1) s) :
      ∃ m, c < m ∧ m < s ∧ kindAt (SmithyIdl.tokens text).toArray m = t.kind := by
    obtain ⟨m, behind, before, found⟩ := mem_extract among
    exact ⟨m, behind, before, congrArg Token.kind (tokenAt_of_getElem? found)⟩
  refine ⟨_, _, _, _, _, cut_between (exists_tokenAt (Nat.lt_trans less made)) (exists_tokenAt made) less,
    place.firstToken (by simpa using first) (read (Nat.lt_trans less made)), fun t among => ?_, signed.imp ?_ ?_⟩
  · obtain ⟨m, behind, before, kind⟩ := between among
    exact kind ▸ trivia m behind before
  · rintro ⟨sign, colon⟩
    refine ⟨sign, fun e child inline => ?_⟩
    obtain ⟨symbol, mem, same⟩ := List.mem_map.mp
      ((SyntaxTree.map_symbol? (h.row?_eq place short)).symm ▸ List.mem_map_of_mem child)
    obtain rfl := (SyntaxTree.kind?_iff_of_symbol? (by decide) (by decide) same.symm).mp inline
    exact Schema.not_inline_of_colon (production ▸ row) colon mem
  · rintro ⟨sign, noDocs, front, e, within, rfl, head⟩
    have here : b.tree.At (⟨id, label, front, .nil⟩ :: way) (.branch e (.plain .inlineStructure) within .nil) e :=
      SyntaxTree.At.descend (Y := .nil) (by rwa [Forest.append_nil]) rfl
    refine ⟨sign, fun t among doc => ?_, front.roots, e, ?_, here.kind?_eq #[] rfl,
      here.firstToken (by simpa using head) (read made)⟩
    · obtain ⟨m, behind, before, kind⟩ := between among
      exact noDocs m behind before (kind.trans doc)
    · rw [place.children_eq, Forest.roots_append]
      rfl

/-- Every sign is that of a structure that is defined in place in an input or an output. -/
theorem exists_inline {s : TokenId} (sign : kindAt (SmithyIdl.tokens text).toArray s = .walrus) :
    ∃ id c, (b.tree.kind? id = some .operationInput ∨ b.tree.kind? id = some .operationOutput) ∧
      c ∈ b.tree.childrenOf id ∧ b.tree.kind? c = some .inlineStructure ∧
      (Reading.firstToken? c).run' b.tree = .ok (SmithyIdl.tokens text)[s]? := by
  have stands := h.stands
  rw [Forest.append_nil] at stands
  have conforms := h.conforms conf
  have here : (SmithyIdl.tokens text)[s]? = some (tokenAt (SmithyIdl.tokens text).toArray s) :=
    exists_tokenAt (lt_of_kindAt (by rw [sign]; decide))
  have found : b.tree.tokens[s]? = some (tokenAt (SmithyIdl.tokens text).toArray s) := by
    rw [h.tokens, List.getElem?_toArray, here]
  have below : s ∈ F.tokens := by
    rw [h.leaves]
    refine List.mem_range.mpr ?_
    exact Buffer.EndsWithEof.lt_of_kindAt h.shown.ends (by rw [h.tokens, sign]; decide)
  obtain ⟨l, -, leaf⟩ := h.placed.exists_leaf (i := s) (by simpa using below)
  have walrus := SyntaxTree.symbol?_of_leaf leaf found
  obtain ⟨top, -⟩ | ⟨c, k, x, up, sort, symbol, among⟩ := h.parent_cases conforms (SyntaxTree.kind?_of_symbol? walrus)
  · cases top
  cases symbol.symm.trans walrus
  rw [show (tokenAt (SmithyIdl.tokens text).toArray s).kind = .walrus from sign] at among
  obtain rfl := Schema.holder_of_walrus among
  obtain ⟨top, -⟩ | ⟨id, k, x, up', sort', symbol', among'⟩ := h.parent_cases conforms sort
  · cases top
  obtain rfl := (SyntaxTree.kind?_iff_of_symbol? (by decide) (by decide) symbol').mp sort
  refine ⟨id, c, ?_, stands.mem_childrenOf.mpr up', sort, ?_⟩
  · rw [sort', Option.some.injEq, Option.some.injEq]
    exact Schema.holder_of_inlineStructure among'
  · obtain ⟨way, label, inner, place, -, conf, row, -⟩ := h.exists_orderlyNode conf orderly sort rfl
    have child := stands.mem_childrenOf.mpr up
    rw [place.children_eq] at child
    have within := place.inside.2.1.mem_tokens (Forest.mem_ids_of_mem_roots child) leaf
    rw [place.firstToken (by simpa using Forest.head?_of_inlineStructure conf row within sign) found, here]

end Grammar.Finished

/-- In a file without errors, behind the name of an input or output comes trivia and then a colon, where nothing is
defined in place, or the sign of a structure that is defined in place. No documentation comment stands before the sign.
Any other trivia may stand there instead: the file then has no errors either, and the sign is still that of such a
structure. -/
theorem parse_defines_inline (filename text : String) (maxDepth : Nat) :
    ∃ m, parse filename text maxDepth = .ok m ∧ (m.hasErrors = .ok false →
      (∀ id, m.tree.kind? id = some .operationInput ∨ m.tree.kind? id = some .operationOutput →
        ∃ before name run sign behind, tokens text = before ++ name :: run ++ sign :: behind ∧
          m.read (Reading.firstToken? id) = .ok (some name) ∧ (∀ t ∈ run, t.kind.isTrivia = true) ∧
          (sign.kind = .colon ∧ (∀ c ∈ m.tree.childrenOf id, m.tree.kind? c ≠ some .inlineStructure) ∨
            sign.kind = .walrus ∧ (∀ t ∈ run, t.kind ≠ .docComment) ∧
              ∃ front c, m.tree.childrenOf id = front ++ [c] ∧ m.tree.kind? c = some .inlineStructure ∧
                m.read (Reading.firstToken? c) = .ok (some sign))) ∧
      ∀ text' n s s', RespacesSign text text' n s s' →
        ∃ m', parse filename text' maxDepth = .ok m' ∧ m'.hasErrors = .ok false ∧
          ∃ id c, (m'.tree.kind? id = some .operationInput ∨ m'.tree.kind? id = some .operationOutput) ∧
            c ∈ m'.tree.childrenOf id ∧ m'.tree.kind? c = some .inlineStructure ∧
            m'.read (Reading.firstToken? c) = .ok (tokens text')[s']?) := by
  obtain ⟨b, parsed, sound⟩ := exists_orderly filename text maxDepth
  refine ⟨_, parsed, fun clean => ⟨fun id kind => ?_, fun text' n s s' respaces => ?_⟩⟩
  · obtain ⟨F, finished, conf, orderly⟩ := sound clean
    exact finished.exists_sign conf orderly kind
  · obtain ⟨m', parsed', clean'⟩ := parse_respaced parsed clean respaces
    obtain ⟨b', again, sound'⟩ := exists_orderly filename text' maxDepth
    cases parsed'.symm.trans again
    obtain ⟨F', finished', conf', orderly'⟩ := sound' clean'
    exact ⟨_, parsed', clean', finished'.exists_inline conf' orderly' respaces.sign'.sign⟩

/-- Other whitespace, a comma and a comment may come before the sign. -/
example : RespacesSign "namespace a\noperation O \x7b\n input := \x7b\x7d\n\x7d\n"
    "namespace a\noperation O \x7b\n input, // in\n  := \x7b\x7d\n\x7d\n" 11 13 17 := by decide +kernel

end SmithyIdl
