import SmithyIdl.Proofs.Tree.Edit

/-! # Places in a forest

Every name of a forest stands at one place: between the trees before and behind it, at the end of a way that leads
down from the top. In a tree that holds the forest the parent and the ancestors of the node are read off the way,
and what changes at the place alone changes nothing around it. -/

namespace SmithyIdl

namespace Forest

variable {F D A B : Forest} {way : List Frame} {i d : NodeId}

theorem exists_place (h : i ∈ F.ids) : ∃ A way D B, F = A ++ plug way D ++ B ∧ D.roots = [i] := by
  induction F with
  | nil => cases h
  | leaf id token rest ih =>
    rcases List.mem_cons.mp h with rfl | h
    · exact ⟨nil, [], leaf i token nil, rest, rfl, rfl⟩
    · obtain ⟨A, way, D, B, rfl, one⟩ := ih h
      exact ⟨leaf id token A, way, D, B, rfl, one⟩
  | branch id label inner rest ihInner ihRest =>
    rcases List.mem_cons.mp h with rfl | h
    · exact ⟨nil, [], branch i label inner nil, rest, rfl, rfl⟩
    rcases List.mem_append.mp h with h | h
    · obtain ⟨A, way, D, B, rfl, one⟩ := ihInner h
      exact ⟨nil, way ++ [⟨id, label, A, B⟩], D, rest, by simp [plug_append], one⟩
    · obtain ⟨A, way, D, B, rfl, one⟩ := ihRest h
      exact ⟨branch id label inner A, way, D, B, rfl, one⟩

/-- A name at the top has a tree of its own. -/
theorem exists_root (h : i ∈ F.roots) : ∃ A D B, F = A ++ D ++ B ∧ D.roots = [i] := by
  induction F with
  | nil => cases h
  | leaf id token rest ih =>
    rcases List.mem_cons.mp h with rfl | h
    · exact ⟨nil, leaf i token nil, rest, rfl, rfl⟩
    · obtain ⟨A, D, B, rfl, one⟩ := ih h
      exact ⟨leaf id token A, D, B, rfl, one⟩
  | branch id label inner rest _ ih =>
    rcases List.mem_cons.mp h with rfl | h
    · exact ⟨nil, branch i label inner nil, rest, rfl, rfl⟩
    · obtain ⟨A, D, B, rfl, one⟩ := ih h
      exact ⟨branch id label inner A, D, B, rfl, one⟩

/-- What is plugged into a way stands below the top of the way. -/
theorem roots_plug (way : List Frame) (D : Forest) :
    (plug way D).roots = D.roots ∧ way = [] ∨ ∃ f ∈ way, (plug way D).roots = [f.id] := by
  induction way generalizing D with
  | nil => exact .inl ⟨rfl, rfl⟩
  | cons f way ih =>
    rcases ih (branch f.id f.label (f.before ++ D ++ f.after) nil) with ⟨same, rfl⟩ | ⟨g, hg, same⟩
    · exact .inr ⟨f, List.mem_cons_self, same⟩
    · exact .inr ⟨g, List.mem_cons_of_mem _ hg, same⟩

/-- In a single tree every name is the top or below it. -/
theorem exists_place_of_one (one : D.roots = [d]) (h : i ∈ D.ids) :
    ∃ way E, D = plug way E ∧ E.roots = [i] ∧ (i = d ∨ d ∈ way.map Frame.id) := by
  obtain ⟨A, way, E, B, rfl, oneE⟩ := exists_place h
  have tops : A.roots ++ (plug way E).roots ++ B.roots = [d] := by simpa using one
  rcases roots_plug way E with ⟨same, rfl⟩ | ⟨f, hf, same⟩
  · have top : A.roots ++ [i] ++ B.roots = [d] := by rw [← tops, same, oneE]
    have alone : A.roots.length + (B.roots.length + 1) = 1 := by simpa using congrArg List.length top
    obtain rfl := eq_nil_of_roots (List.eq_nil_of_length_eq_zero (by omega : A.roots.length = 0))
    obtain rfl := eq_nil_of_roots (List.eq_nil_of_length_eq_zero (by omega : B.roots.length = 0))
    exact ⟨[], E, by simp, oneE, .inl (by simpa using top)⟩
  · have top : A.roots ++ [f.id] ++ B.roots = [d] := by rw [← tops, same]
    have alone : A.roots.length + (B.roots.length + 1) = 1 := by simpa using congrArg List.length top
    obtain rfl := eq_nil_of_roots (List.eq_nil_of_length_eq_zero (by omega : A.roots.length = 0))
    obtain rfl := eq_nil_of_roots (List.eq_nil_of_length_eq_zero (by omega : B.roots.length = 0))
    obtain rfl : f.id = d := by simpa using top
    exact ⟨way, E, by simp, oneE, .inr (List.mem_map_of_mem hf)⟩

/-- Names around a place and at it. -/
theorem ids_place (A B D : Forest) (way : List Frame) : (A ++ plug way D ++ B).ids.Perm
    (A.ids ++ B.ids ++ (way.map Frame.id ++ sideIds way ++ D.ids)) := by
  have inner := ids_plug way D
  rw [List.perm_iff_count] at inner ⊢
  intro a
  have here := inner a
  simp only [ids_append, List.count_append] at here ⊢
  omega

end Forest

namespace SyntaxTree

variable {t t' : SyntaxTree} {D E : Forest} {way : List Frame} {d : NodeId}

theorem Holds.parent?_of_place (h : t.Holds none (Forest.plug way D)) (one : D.roots = [d]) :
    t.parent? d = way.head?.map Frame.id := by
  have above := h.focus.parent_of_one one
  rw [parent?]
  cases found : t.nodes[d]? with
  | none => simp [found] at above
  | some n => simpa [found] using above

theorem Holds.climb_of_place (h : t.Holds none (Forest.plug way D)) (one : D.roots = [d]) {n : Nat}
    (hn : way.length ≤ n) : t.climb n d = way.map Frame.id := by
  have above := h.parent?_of_place one
  cases way with
  | nil =>
    cases n with
    | zero => rfl
    | succ n =>
      rw [SyntaxTree.climb, above]
      rfl
  | cons f way =>
    obtain ⟨n, rfl⟩ := Nat.exists_eq_add_of_le' (Nat.le_trans (Nat.le_add_left 1 way.length) hn)
    have rest := Holds.climb (c := way) h (n := n) (Nat.le_of_succ_le_succ hn)
    rw [SyntaxTree.climb, above]
    simp only [List.head?_cons, Option.map_some, List.map_cons, rest]

/-- Only what stands at the place is changed, and it keeps its names at the top and its tokens. -/
theorem Holds.refocus (h : t.Holds none (Forest.plug way D)) (roots : E.roots = D.roots) (tokens : E.tokens = D.tokens)
    (path : ∀ i ∈ way.map Frame.id, t'.nodes[i]? = t.nodes[i]?)
    (sides : ∀ i ∈ Forest.sideIds way, t'.nodes[i]? = t.nodes[i]?)
    (inside : t'.Holds (way.head?.map Frame.id) E) : t'.Holds none (Forest.plug way E) := by
  induction way generalizing D E with
  | nil => exact inside
  | cons f way ih =>
    obtain ⟨⟨kept, node, right⟩, inner, -⟩ := Holds.focus (c := way) h
    obtain ⟨before, after⟩ := holds_append.mp inner
    refine ih h rfl (by simp [tokens]) (fun i hi => path i (List.mem_cons_of_mem _ hi))
      (fun i hi => sides i (by simp [hi])) ⟨⟨kept, ?_, ?_⟩, ?_, trivial⟩
    · rw [path f.id List.mem_cons_self, node]
      simp [roots]
    · simpa [tokens] using right
    · refine holds_append.mpr ⟨holds_append.mpr ⟨?_, inside⟩, ?_⟩
      · exact (holds_append.mp before).1.of_same fun i hi => sides i (by simp [hi])
      · exact after.of_same fun i hi => sides i (by simp [hi])

end SyntaxTree

end SmithyIdl
