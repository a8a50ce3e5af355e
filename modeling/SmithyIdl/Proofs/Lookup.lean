import SmithyIdl.Proofs.ErrorCount
import SmithyIdl.Proofs.Spans
import SmithyIdl.Proofs.Tree.Lookup

/-! # Looking up positions of a file

Every position inside a token leads to its leaf. The position where a token starts leads there too, unless some node
goes over lines and ends there: such a node includes its end, and comes first. -/

namespace SmithyIdl

namespace Grammar.Finished

variable {b : Buffer} {text : String} {F : Forest} {i : TokenId} {t : Token} {p : Position}

/-- The tree lays the tokens before the end, each of which has some before and behind it. -/
theorem exists_row (h : Finished b text F .nil) (place : (SmithyIdl.tokens text)[i]? = some t) (other : t.kind ≠ .eof) :
    ∃ us vs, us.length = i ∧ InOrder (us ++ t :: vs) ∧ F.tokens[i]? = some i ∧
      b.tree.Lays none (.branch SyntaxTree.root (.plain .idl) F .nil) [] (us ++ t :: vs) := by
  obtain ⟨init, last, all, eof, -, others⟩ := (tokens_cuts text).exists_last
  have last_out : b.eof = init.length := by simp [Buffer.eof, h.tokens, all]
  have inside : init[i]? = some t := by
    rw [all] at place
    rcases Nat.lt_or_ge i init.length with lt | ge
    · rwa [List.getElem?_append_left lt] at place
    · rw [List.getElem?_append_right ge] at place
      obtain rfl := List.mem_singleton.mp (List.mem_of_getElem? place)
      exact absurd eof other
  obtain ⟨lt, found⟩ := List.getElem?_eq_some_iff.mp inside
  have split : init = init.take i ++ t :: init.drop (i + 1) := by
    rw [← found, ← List.drop_eq_getElem_cons lt, List.take_append_drop]
  refine ⟨init.take i, init.drop (i + 1), List.length_take_of_le (Nat.le_of_lt lt), ?_, ?_, split ▸ h.lays all⟩
  · rw [← split]
    exact (h.lays all).follow.inOrder fun u hu => start_lt_stop (all ▸ List.mem_append_left _ hu) (others u hu)
  · rw [h.leaves, last_out, List.getElem?_range lt]

/-- A lookup from the root on takes the way down. -/
theorem findAt_run (h : Finished b text F .nil) (p : Position) :
    (Reading.findAt p.line p.column SyntaxTree.root).run' b.tree =
      .ok ((F.lookup (b.tree.covers p)).getD SyntaxTree.root) := by
  obtain ⟨init, last, all, -⟩ := (tokens_cuts text).exists_last
  have covers : ∀ id ∈ F.ids, Uncached.contains p.line p.column id b.tree = .ok (b.tree.covers p id) := by
    intro id among
    obtain ⟨parent, D, us, vs, ws, one, -, lays⟩ := (h.lays all).inner.exists_tree among
    exact lays.contains_run h.stands one
  obtain ⟨⟨kept, node, -⟩, inner, -⟩ := h.holds
  rw [(SyntaxTree.Agrees.findAt p.line p.column SyntaxTree.root).reads h.stands]
  change Uncached.findAtWithin p.line p.column b.tree.size SyntaxTree.root b.tree = _
  rw [← h.length_ids]
  exact SyntaxTree.findAtWithin_succ node rfl (fun id top => covers id (Forest.mem_ids_of_mem_roots top))
    (SyntaxTree.findAtWithin_run inner (Nat.le_refl _) covers)

/-- A position in a token leads to its leaf, or to a node that goes over lines and ends there. -/
theorem lookup (h : Finished b text F .nil) (place : (SmithyIdl.tokens text)[i]? = some t) (other : t.kind ≠ .eof)
    (start : t.start ≤ p) (stop : p < t.stop) :
    ∃ found < b.tree.size, (Reading.findAt p.line p.column SyntaxTree.root).run' b.tree = .ok found ∧
      (b.tree.tag? found = some (.inl i) ∧ (∀ id < b.tree.size, ¬ b.tree.EndsAcross id p) ∨
        b.tree.tag? found ≠ some (.inl i) ∧ b.tree.EndsAcross found p) := by
  obtain ⟨us, vs, rfl, row, leaf, lays⟩ := h.exists_row place other
  have made {id : NodeId} : id ∈ (Forest.branch SyntaxTree.root (.plain .idl) F .nil).ids ↔ id < b.tree.size := by
    simpa using h.ids.mem_iff.trans List.mem_range
  obtain ⟨found, down, outcome⟩ := lays.finds start stop h.stands row (by simpa using leaf)
  refine ⟨found, made.mp (Forest.mem_ids_of_lookup down), ?_, ?_⟩
  · rw [h.findAt_run]
    rw [Forest.lookup] at down
    split at down
    · exact congrArg Except.ok (Option.some.inj down)
    · cases down
  · rcases outcome with ⟨leaf, none⟩ | across
    · exact .inl ⟨leaf, fun id small => none id (made.mpr small)⟩
    · refine .inr ⟨fun leaf => ?_, across⟩
      have token : b.tree.tokens[us.length]? = some t := by simpa [h.tokens] using place
      exact ne_of_gt stop (across.of_leaf h.stands leaf token)

/-- No node ends inside a token. -/
theorem not_endsAcross (h : Finished b text F .nil) (place : (SmithyIdl.tokens text)[i]? = some t) (other : t.kind ≠ .eof)
    (start : t.start < p) (stop : p < t.stop) {id : NodeId} (made : id < b.tree.size) : ¬ b.tree.EndsAcross id p := by
  intro across
  obtain ⟨us, vs, -, row, -, lays⟩ := h.exists_row place other
  have among : id ∈ (Forest.branch SyntaxTree.root (.plain .idl) F .nil).ids := by
    simpa using h.ids.mem_iff.mpr (List.mem_range.mpr made)
  obtain ⟨u, hu, rfl⟩ := lays.exists_stop h.stands among across
  obtain ⟨-, later, before⟩ := row.append
  rcases List.mem_append.mp hu with hu | hu
  · exact lt_irrefl _ (lt_of_lt_of_le start (before u hu t List.mem_cons_self))
  · exact lt_irrefl _ (lt_of_lt_of_le stop (later.first_stop_le rfl hu))

end Grammar.Finished

/-! ### Files -/

/-- A position leads to the leaf of a token. -/
def ParsedModel.LeadsTo (m : ParsedModel) (p : Position) (i : TokenId) : Prop :=
  ∃ leaf, m.read (Reading.findAt p.line p.column SyntaxTree.root) = .ok leaf ∧
    m.tree.nodes[leaf]?.bind Node.token? = some i

instance (m : ParsedModel) (p : Position) (i : TokenId) : Decidable (m.LeadsTo p i) :=
  match read : m.read (Reading.findAt p.line p.column SyntaxTree.root) with
  | .ok leaf => decidable_of_iff (m.tree.nodes[leaf]?.bind Node.token? = some i) (by simp [ParsedModel.LeadsTo, read])
  | .error _ => .isFalse (by simp [ParsedModel.LeadsTo, read])

/-- Every position between the ends of a token leads to its leaf, and with them the positions of all its bytes but the
    first. -/
theorem parse_leads_inside (filename text : String) {maxDepth : Nat} (enough : 5 ≤ maxDepth) :
    ∃ m, parse filename text maxDepth = .ok m ∧ ∀ i t, (tokens text)[i]? = some t → t.kind ≠ .eof →
      (∀ p, t.start < p → p < t.stop → m.LeadsTo p i) ∧
      ∀ k, t.range.start < k → k < t.range.stop → m.LeadsTo (.ofOffset text.toList k) i := by
  obtain ⟨b, F, L, run, finished, below, -⟩ := Grammar.model_run filename text maxDepth
  obtain rfl := below (by omega) (by omega)
  refine ⟨_, parse_of_run run finished.finish, fun i t place other => ?_⟩
  have inside (p : Position) (start : t.start < p) (stop : p < t.stop) :
      ParsedModel.LeadsTo ⟨filename, b.tree⟩ p i := by
    obtain ⟨found, made, read, ⟨leaf, -⟩ | ⟨-, across⟩⟩ := finished.lookup place other (le_of_lt start) stop
    · exact ⟨found, read, SyntaxTree.token?_eq_some_iff.mpr leaf⟩
    · exact absurd across (finished.not_endsAcross place other start stop made)
  refine ⟨inside, fun k start stop => ?_⟩
  obtain ⟨start, stop⟩ := ofOffset_inside (List.mem_of_getElem? place) start stop
  exact inside _ start stop

theorem parse_leads_inside_default :
    5 ≤ defaultMaxDepth ∧ ∃ m, parse "a.smithy" "$a: \"é\r\n\"\n" defaultMaxDepth = .ok m ∧
      ∀ i t, (tokens "$a: \"é\r\n\"\n")[i]? = some t → t.kind ≠ .eof →
        (∀ p, t.start < p → p < t.stop → m.LeadsTo p i) ∧
        ∀ k, t.range.start < k → k < t.range.stop → m.LeadsTo (.ofOffset "$a: \"é\r\n\"\n".toList k) i :=
  ⟨by decide, parse_leads_inside "a.smithy" "$a: \"é\r\n\"\n" (by decide)⟩

/-- The position where a token starts leads to its leaf exactly if no node goes over lines and ends there. Otherwise it
    leads to a node that does. -/
theorem parse_leads_start (filename text : String) {maxDepth : Nat} (enough : 5 ≤ maxDepth) :
    ∃ m, parse filename text maxDepth = .ok m ∧ ∀ i t, (tokens text)[i]? = some t → t.kind ≠ .eof →
      (m.LeadsTo t.start i ↔ ∀ id < m.tree.size, ¬ m.tree.EndsAcross id t.start) ∧
      (¬ m.LeadsTo t.start i → ∃ id < m.tree.size,
        m.read (Reading.findAt t.start.line t.start.column SyntaxTree.root) = .ok id ∧
          m.tree.EndsAcross id t.start) := by
  obtain ⟨b, F, L, run, finished, below, -⟩ := Grammar.model_run filename text maxDepth
  obtain rfl := below (by omega) (by omega)
  refine ⟨_, parse_of_run run finished.finish, fun i t place other => ?_⟩
  have wide := start_lt_stop (List.mem_of_getElem? place) other
  obtain ⟨found, made, read, outcome⟩ := finished.lookup place other (le_refl _) wide
  have leads : ParsedModel.LeadsTo ⟨filename, b.tree⟩ t.start i ↔ b.tree.tag? found = some (.inl i) := by
    rw [← SyntaxTree.token?_eq_some_iff]
    refine ⟨fun ⟨leaf, read', token⟩ => ?_, fun token => ⟨found, read, token⟩⟩
    obtain rfl : found = leaf := Except.ok.inj (read.symm.trans read')
    exact token
  rw [leads]
  rcases outcome with ⟨leaf, none⟩ | ⟨other, across⟩
  · exact ⟨iff_of_true leaf none, fun missed => absurd leaf missed⟩
  · exact ⟨iff_of_false other fun none => none found made across, fun _ => ⟨found, made, read, across⟩⟩

theorem parse_leads_start_default :
    5 ≤ defaultMaxDepth ∧ ∃ m, parse "a.smithy" "namespace a\nstring A\n" defaultMaxDepth = .ok m ∧
      ∀ i t, (tokens "namespace a\nstring A\n")[i]? = some t → t.kind ≠ .eof →
        (m.LeadsTo t.start i ↔ ∀ id < m.tree.size, ¬ m.tree.EndsAcross id t.start) ∧
        (¬ m.LeadsTo t.start i → ∃ id < m.tree.size,
          m.read (Reading.findAt t.start.line t.start.column SyntaxTree.root) = .ok id ∧
            m.tree.EndsAcross id t.start) :=
  ⟨by decide, parse_leads_start "a.smithy" "namespace a\nstring A\n" (by decide)⟩

/-- Whether the position where an identifier starts is missed. -/
def missesIdentifier (filename text : String) (i : TokenId) : Bool :=
  match parse filename text, (tokens text)[i]? with
  | .ok m, some t => t.kind = .identifier ∧ ¬ m.LeadsTo t.start i
  | _, _ => false

/-- The first token of a line is missed: the line break before it goes over lines and includes its end. -/
theorem not_leads_start : ¬ ∀ filename text m i t, parse filename text = .ok m → (tokens text)[i]? = some t →
    t.kind = .identifier → m.LeadsTo t.start i := by
  intro always
  have missed : missesIdentifier "a.smithy" "namespace a\nstring A\n" 4 = true := by decide +kernel
  unfold missesIdentifier at missed
  split at missed
  · next m t parsed place =>
    obtain ⟨kind, misses⟩ := of_decide_eq_true missed
    exact misses (always _ _ m 4 t parsed place kind)
  · cases missed

end SmithyIdl
