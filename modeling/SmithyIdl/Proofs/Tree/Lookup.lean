import SmithyIdl.Proofs.Token.Order
import SmithyIdl.Proofs.Tree.Spans
import SmithyIdl.Proofs.Tree.Uncached

/-! # Looking up a position

A stretch holds the positions from its start on and before its end, and its end too if it goes over lines. A lookup
goes down from a node to the first child whose stretch holds the position. All nodes above the leaf of a token hold
the positions in it, nodes without tokens hold none, and of the nodes before the leaf only those do that go over lines
and end where the token starts. -/

namespace SmithyIdl

theorem Reading.within_iff {a b p : Position} (ordered : a ≤ b) :
    within a b p.line p.column = true ↔ a ≤ p ∧ (p < b ∨ p = b ∧ a.line ≠ b.line) := by
  obtain ⟨line, column⟩ := p
  obtain ⟨bLine, bColumn⟩ := b
  rw [Position.le_iff] at ordered
  simp only [within, Position.le_iff, Position.lt_iff, Position.mk.injEq] at ordered ⊢
  split
  · simp only [Bool.and_eq_true, decide_eq_true_eq]
    omega
  · simp only [Bool.or_eq_true, Bool.and_eq_true, decide_eq_true_eq]
    omega

namespace Uncached

/-- Whether a line and a column lie inside a node. -/
def contains (line column : Nat) (id : NodeId) : Uncached Bool := do
  return Reading.within (← start id) (← stop id) line column

/-- The search for a line and a column, at most the given number of steps down. -/
def findAtWithin (line column : Nat) : Nat → NodeId → Uncached NodeId
  | 0, id => pure id
  | n + 1, id => do
    match ← (← look (·.children.toList) id).findM? (contains line column) with
    | some child => findAtWithin line column n child
    | none => pure id

/-- The narrowest node around a line and a column. -/
def findAt (line column : Nat) (id : NodeId) : Uncached NodeId := do
  findAtWithin line column (← read).size id

end Uncached

namespace SyntaxTree

/-! ### Readers -/

namespace Agrees

theorem children (id : NodeId) : Agrees (Reading.children id) (Uncached.look (·.children.toList) id) := by
  have children := look (g := (·.children.toList)) (fun _ => rfl) id
  rwa [map_eq_pure_bind] at children

theorem contains (line column : Nat) (id : NodeId) :
    Agrees (Reading.contains line column id) (Uncached.contains line column id) :=
  (start id).bind fun _ => (stop id).bind fun _ => pure _

theorem findM? {α : Type} {g : α → Reading Bool} {z : α → Uncached Bool} [∀ a, Still (g a)]
    (h : ∀ a, Agrees (g a) (z a)) (l : List α) : Agrees (l.findM? g) (l.findM? z) := by
  induction l with
  | nil => exact pure none
  | cons a l ih =>
    rw [List.findM?, List.findM?]
    refine (h a).bind fun found => ?_
    cases found with
    | true => exact pure (some a)
    | false => exact ih

theorem findAtWithin (line column n : Nat) (id : NodeId) :
    Agrees (Reading.findAtWithin line column n id) (Uncached.findAtWithin line column n id) := by
  induction n generalizing id with
  | zero => exact pure id
  | succ n ih =>
    refine (children id).bind fun below => (findM? (contains line column) below).bind fun found => ?_
    cases found with
    | none => exact pure id
    | some child => exact ih child

theorem findAt (line column : Nat) (id : NodeId) :
    Agrees (Reading.findAt line column id) (Uncached.findAt line column id) where
  blind {t t'} same := by
    change Uncached.findAtWithin line column t'.size id t' = Uncached.findAtWithin line column t.size id t
    rw [same.size_eq, (findAtWithin line column t.size id).blind same]
  reads {t F} stands := (findAtWithin line column t.size id).reads stands

end Agrees

end SyntaxTree

/-! ### The way down -/

namespace Forest

/-- The node that a way down ends at, which takes the first tree at each level whose top is among the nodes given. -/
def lookup (holds : NodeId → Bool) : Forest → Option NodeId
  | nil => none
  | leaf id _ rest => if holds id then some id else rest.lookup holds
  | branch id _ inner rest => if holds id then some ((inner.lookup holds).getD id) else rest.lookup holds

variable (holds : NodeId → Bool) (F G : Forest)

theorem lookup_append : (F ++ G).lookup holds = (F.lookup holds).or (G.lookup holds) := by
  induction F with
  | nil => rfl
  | leaf id token rest ih =>
    rw [leaf_append, lookup, lookup, ih]
    split <;> rfl
  | branch id label inner rest _ ih =>
    rw [branch_append, lookup, lookup, ih]
    split <;> rfl

variable {holds F} in
theorem mem_ids_of_lookup {i : NodeId} (found : F.lookup holds = some i) : i ∈ F.ids := by
  induction F with
  | nil => cases found
  | leaf id token rest ih =>
    rw [lookup] at found
    split at found
    · cases found
      exact List.mem_cons_self
    · exact List.mem_cons_of_mem _ (ih found)
  | branch id label inner rest ihInner ihRest =>
    rw [lookup] at found
    split at found
    · cases below : inner.lookup holds with
      | none =>
        rw [below] at found
        cases found
        exact List.mem_cons_self
      | some j =>
        rw [below] at found
        cases found
        exact List.mem_cons_of_mem _ (List.mem_append_left _ (ihInner below))
    · exact List.mem_cons_of_mem _ (List.mem_append_right _ (ihRest found))

end Forest

namespace SyntaxTree

variable {t : SyntaxTree} {parent : Option NodeId} {F G D : Forest} {d id : NodeId} {before : List Char}
  {ts : List Token} {p : Position}

theorem findM?_run {holds : NodeId → Bool} {z : NodeId → Uncached Bool} {l : List NodeId}
    (reads : ∀ i ∈ l, z i t = .ok (holds i)) : l.findM? z t = .ok (l.find? holds) := by
  induction l with
  | nil => rfl
  | cons i l ih =>
    rw [List.findM?, Uncached.run_bind_of_ok (reads i List.mem_cons_self), List.find?_cons]
    cases holds i with
    | true => rfl
    | false => exact ih fun j hj => reads j (List.mem_cons_of_mem _ hj)

section
variable {holds : NodeId → Bool} {line column n : Nat}

/-- A lookup from a node on, if one among its children takes the way down. -/
theorem findAtWithin_succ {m : Node} (node : t.nodes[id]? = some m) (children : m.children.toList = F.roots)
    (reads : ∀ i ∈ F.roots, Uncached.contains line column i t = .ok (holds i))
    (inside : (F.roots.find? holds).mapM (Uncached.findAtWithin line column n · t) = .ok (F.lookup holds)) :
    Uncached.findAtWithin line column (n + 1) id t = .ok ((F.lookup holds).getD id) := by
  rw [Uncached.findAtWithin, Uncached.run_bind_of_ok (Uncached.look_run node)]
  simp only [children]
  rw [Uncached.run_bind_of_ok (findM?_run reads)]
  cases found : F.roots.find? holds with
  | none =>
    rw [found] at inside
    obtain none : none = F.lookup holds := Except.ok.inj inside
    rw [← none]
    rfl
  | some child =>
    rw [found] at inside
    cases run : Uncached.findAtWithin line column n child t with
    | error why => simp [run] at inside
    | ok i =>
      obtain some : some i = F.lookup holds := by simpa [run] using inside
      rw [← some]
      exact run

/-- A lookup among trees next to each other takes the way down. -/
theorem findAtWithin_run (h : t.Holds parent F) (deep : F.ids.length ≤ n)
    (reads : ∀ i ∈ F.ids, Uncached.contains line column i t = .ok (holds i)) :
    (F.roots.find? holds).mapM (Uncached.findAtWithin line column n · t) = .ok (F.lookup holds) := by
  induction F generalizing parent n with
  | nil => rfl
  | leaf id token rest ih =>
    obtain ⟨⟨kept, node, -⟩, beside⟩ := h
    obtain ⟨n, rfl⟩ := Nat.exists_eq_add_of_le' (show 1 ≤ n from Nat.le_trans (Nat.le_add_left ..) deep)
    rw [Forest.roots_leaf, List.find?_cons, Forest.lookup]
    cases holds id with
    | true =>
      have here : Uncached.findAtWithin line column (n + 1) id t = .ok ((Forest.nil.lookup holds).getD id) :=
        findAtWithin_succ node rfl nofun rfl
      simp [here, Forest.lookup]
    | false => exact ih beside (Nat.le_of_succ_le deep) fun i hi => reads i (List.mem_cons_of_mem _ hi)
  | branch id label inner rest ihInner ihRest =>
    obtain ⟨⟨kept, node, -⟩, below, beside⟩ := h
    rw [Forest.ids_branch, List.length_cons, List.length_append] at deep
    obtain ⟨n, rfl⟩ := Nat.exists_eq_add_of_le' (show 1 ≤ n by omega)
    have within : ∀ i ∈ inner.ids, Uncached.contains line column i t = .ok (holds i) := fun i hi =>
      reads i (List.mem_cons_of_mem _ (List.mem_append_left _ hi))
    rw [Forest.roots_branch, List.find?_cons, Forest.lookup]
    cases holds id with
    | true =>
      have here : Uncached.findAtWithin line column (n + 1) id t = .ok ((inner.lookup holds).getD id) :=
        findAtWithin_succ node rfl (fun i hi => within i (Forest.mem_ids_of_mem_roots hi))
          (ihInner below (by omega) within)
      simp [here]
    | false =>
      exact ihRest beside (by omega) fun i hi => reads i (List.mem_cons_of_mem _ (List.mem_append_right _ hi))

end

/-! ### Stretches -/

/-- Whether the stretch of a node holds a position. -/
def covers (t : SyntaxTree) (p : Position) (id : NodeId) : Bool :=
  match Uncached.contains p.line p.column id t with
  | .ok inside => inside
  | .error _ => false

/-- A node goes over lines and ends at a position. -/
def EndsAcross (t : SyntaxTree) (id : NodeId) (p : Position) : Prop :=
  ∃ start, (Reading.start id).run' t = .ok start ∧ (Reading.stop id).run' t = .ok p ∧ start.line ≠ p.line

/-- A node goes from one position to another. -/
structure Reaches (t : SyntaxTree) (id : NodeId) (a b : Position) : Prop where
  start : Uncached.start id t = .ok a
  stop : Uncached.stop id t = .ok b

namespace Reaches

variable {a b : Position} (h : t.Reaches id a b)
include h

theorem contains_run : Uncached.contains p.line p.column id t = .ok (Reading.within a b p.line p.column) := by
  rw [Uncached.contains, Uncached.run_bind_of_ok h.start, Uncached.run_bind_of_ok h.stop]
  rfl

theorem covers_iff (ordered : a ≤ b) : t.covers p id = true ↔ a ≤ p ∧ (p < b ∨ p = b ∧ a.line ≠ b.line) := by
  rw [covers, h.contains_run]
  exact Reading.within_iff ordered

theorem endsAcross_iff (stands : t.Stands F) : t.EndsAcross id p ↔ b = p ∧ a.line ≠ b.line := by
  rw [EndsAcross, (Agrees.start id).reads stands, (Agrees.stop id).reads stands, h.start, h.stop]
  constructor
  · rintro ⟨start, first, last, across⟩
    cases first
    cases last
    exact ⟨rfl, across⟩
  · rintro ⟨rfl, across⟩
    exact ⟨a, rfl, rfl, across⟩

end Reaches

namespace Lays

section
variable (stands : t.Stands G) (h : t.Lays parent D before ts) (one : D.roots = [d])
include h one

theorem leaves_eq : t.leaves d = D.tokens := by
  have leaves := flatMap_leavesWithin h.holds h.fits
  rwa [one, List.flatMap_singleton] at leaves

/-- A tree without tokens starts and ends at one place. -/
theorem reaches_of_nil (none : ts = []) : ∃ a, t.Reaches d a a := by
  obtain rfl := none
  have none : t.leaves d = [] := (h.leaves_eq one).trans (List.map_eq_nil_iff.mp h.tokens)
  obtain ⟨kept, cached, -⟩ := exists_node_of_one h.holds one
  obtain ⟨m, node, -⟩ := Option.map_eq_some_iff.mp cached
  have empty : Uncached.emptyPosition d t = .ok ((m.mark?.map Mark.position).getD .nowhere) :=
    Uncached.run_bind_of_ok (Uncached.look_run node)
  have first : Uncached.firstToken? d t = .ok .none := by
    rw [Uncached.firstToken?_run node, none]
    rfl
  have last : Uncached.lastToken? d t = .ok .none := by
    rw [Uncached.lastToken?, Uncached.run_bind_of_ok (Uncached.tokenIds_run node), none]
    rfl
  refine ⟨(m.mark?.map Mark.position).getD .nowhere, ?_, ?_⟩
  · rw [Uncached.start, Uncached.run_bind_of_ok first]
    exact empty
  · rw [Uncached.stop, Uncached.run_bind_of_ok last]
    exact empty

include stands

/-- A tree with tokens goes from the start of the first to the end of the last. -/
theorem reaches_of_cons {u v : Token} (first : ts.head? = some u) (last : ts.getLast? = some v) :
    t.Reaches d u.start v.stop := by
  have some : ts ≠ [] := by
    rintro rfl
    cases first
  obtain ⟨-, -, start, stop⟩ := h.takes one some
  obtain ⟨us, front⟩ := List.head?_eq_some_iff.mp first
  obtain ⟨vs, back⟩ := List.getLast?_eq_some_iff.mp last
  have starts : u.start = .behind before := Follow.first (front ▸ h.follow) |>.1
  have ends : v.stop = .behind (before ++ lexemes ts) := back ▸ (Follow.last (back ▸ h.follow)).1
  rw [(Agrees.start d).reads stands, ← starts] at start
  rw [(Agrees.stop d).reads stands, ← ends] at stop
  exact ⟨start, stop⟩

theorem contains_run : Uncached.contains p.line p.column d t = .ok (t.covers p d) := by
  have reaches : ∃ a b, t.Reaches d a b := by
    by_cases none : ts = []
    · obtain ⟨a, here⟩ := h.reaches_of_nil one none
      exact ⟨a, a, here⟩
    · exact ⟨_, _, h.reaches_of_cons stands one (List.head?_eq_some_head none) (List.getLast?_eq_some_getLast none)⟩
  obtain ⟨a, b, here⟩ := reaches
  rw [covers, here.contains_run]

theorem endsAcross_iff : t.EndsAcross d p ↔
    ∃ u ∈ ts.head?, ∃ v ∈ ts.getLast?, v.stop = p ∧ u.start.line ≠ p.line := by
  by_cases none : ts = []
  · obtain ⟨a, here⟩ := h.reaches_of_nil one none
    rw [here.endsAcross_iff stands]
    simp [none]
  · have first := List.head?_eq_some_head none
    have last := List.getLast?_eq_some_getLast none
    rw [(h.reaches_of_cons stands one first last).endsAcross_iff stands, first, last]
    simp only [Option.mem_some_iff, exists_eq_left']
    exact and_congr_right fun stop => by rw [stop]

section
variable (row : InOrder ts)
include row

theorem covers_iff : t.covers p d = true ↔
    ∃ u ∈ ts.head?, ∃ v ∈ ts.getLast?, u.start ≤ p ∧ (p < v.stop ∨ v.stop = p ∧ u.start.line ≠ p.line) := by
  by_cases none : ts = []
  · obtain ⟨a, here⟩ := h.reaches_of_nil one none
    rw [here.covers_iff (le_refl a)]
    simp only [none, List.head?_nil, Option.not_mem_none, false_and, exists_false, iff_false, not_and, not_or]
    exact fun from_a => ⟨not_lt_of_ge from_a, fun _ same => same rfl⟩
  · have first := List.head?_eq_some_head none
    have last := List.getLast?_eq_some_getLast none
    have ordered := le_trans (le_of_lt (row.wide _ (List.head_mem none))) (row.le_last last (List.head_mem none))
    rw [(h.reaches_of_cons stands one first last).covers_iff ordered, first, last]
    simp only [Option.mem_some_iff, exists_eq_left']
    refine and_congr_right fun _ => or_congr_right ?_
    rw [eq_comm]
    exact and_congr_right fun stop => by rw [stop]

/-- A tree up to a position covers it only if it goes over lines and ends there. -/
theorem covers_iff_endsAcross (upTo : ∀ u ∈ ts, u.stop ≤ p) : t.covers p d = true ↔ t.EndsAcross d p := by
  rw [h.covers_iff stands one row, h.endsAcross_iff stands one]
  refine exists_congr fun u => and_congr_right fun first => exists_congr fun v => and_congr_right fun last => ?_
  have among := List.mem_of_mem_head? first
  have start := le_trans (le_of_lt (row.wide u among)) (upTo u among)
  have stop := upTo v (List.mem_of_mem_getLast? last)
  exact ⟨fun ⟨_, inside⟩ => inside.resolve_left (not_lt_of_ge stop), fun across => ⟨start, .inr across⟩⟩

/-- The trees around a token cover the positions in it, and end behind them. -/
theorem covers_of_mem {u : Token} (among : u ∈ ts) (start : u.start ≤ p) (stop : p < u.stop) :
    t.covers p d = true ∧ ¬ t.EndsAcross d p := by
  have some := List.ne_nil_of_mem among
  have first := List.head?_eq_some_head some
  have last := List.getLast?_eq_some_getLast some
  have inside := lt_of_lt_of_le stop (row.le_last last among)
  rw [h.covers_iff stands one row, h.endsAcross_iff stands one, first, last]
  simp only [Option.mem_some_iff, exists_eq_left']
  exact ⟨⟨le_trans (row.first_le first among) start, .inl inside⟩, fun ⟨ends, _⟩ => ne_of_gt inside ends⟩

end

end

section
variable (stands : t.Stands G)
include stands

theorem exists_stop (h : t.Lays parent F before ts) {i : NodeId} (among : i ∈ F.ids) (across : t.EndsAcross i p) :
    ∃ u ∈ ts, u.stop = p := by
  obtain ⟨parent', D, us, vs, ws, one, rfl, lays⟩ := h.exists_tree among
  obtain ⟨u, -, v, last, stop, -⟩ := (lays.endsAcross_iff stands one).mp across
  exact ⟨v, List.mem_append_left _ (List.mem_append_right _ (List.mem_of_mem_getLast? last)), stop⟩

/-- Of a tree up to a position, the top ends there if a node below does. -/
theorem endsAcross_top (h : t.Lays parent D before ts) (one : D.roots = [d]) (row : InOrder ts)
    (upTo : ∀ u ∈ ts, u.stop ≤ p) {i : NodeId} (among : i ∈ D.ids) (across : t.EndsAcross i p) : t.EndsAcross d p := by
  obtain ⟨parent', E, us, vs, ws, one', rfl, lays⟩ := h.exists_tree among
  obtain ⟨u, first, v, last, stop, lines⟩ := (lays.endsAcross_iff stands one').mp across
  have inside {w : Token} (hw : w ∈ vs) : w ∈ us ++ vs ++ ws := List.mem_append_left _ (List.mem_append_right _ hw)
  have among_u := inside (List.mem_of_mem_head? first)
  have some := List.ne_nil_of_mem among_u
  have first' := List.head?_eq_some_head some
  have last' := List.getLast?_eq_some_getLast some
  refine (h.endsAcross_iff stands one).mpr ⟨_, first', _, last', le_antisymm (upTo _ (List.getLast_mem some)) ?_, ?_⟩
  · exact stop ▸ row.le_last last' (inside (List.mem_of_mem_getLast? last))
  · -- The line where the whole tree starts is not behind the line where the lower one does.
    have sooner := row.first_le first' among_u
    have later := lt_of_lt_of_le (row.wide u among_u) (upTo u among_u)
    rw [Position.le_iff] at sooner
    rw [Position.lt_iff] at later
    omega

/-- A lookup among trees up to a position finds a node that goes over lines and ends there, if there is one. -/
theorem lookup_before (h : t.Lays parent F before ts) (row : InOrder ts) (upTo : ∀ u ∈ ts, u.stop ≤ p) :
    (F.lookup (t.covers p) = none → ∀ i ∈ F.ids, ¬ t.EndsAcross i p) ∧
      ∀ i, F.lookup (t.covers p) = some i → t.EndsAcross i p := by
  induction F generalizing parent before ts with
  | nil => exact ⟨nofun, nofun⟩
  | leaf id token rest ih =>
    obtain ⟨us, vs, rfl, first, second⟩ := append (F := .leaf id token .nil) h
    obtain ⟨row₁, row₂, -⟩ := row.append
    have top := first.covers_iff_endsAcross stands rfl row₁ fun u hu => upTo u (List.mem_append_left _ hu)
    obtain ⟨none, some⟩ := ih second row₂ fun u hu => upTo u (List.mem_append_right _ hu)
    rw [Forest.lookup]
    split
    · next holds => exact ⟨nofun, fun i found => Option.some.inj found ▸ top.mp holds⟩
    · next holds =>
      refine ⟨fun missed i among => ?_, some⟩
      rcases List.mem_cons.mp among with rfl | among
      · exact mt top.mpr holds
      · exact none missed i among
  | branch id label inner rest ihInner ihRest =>
    obtain ⟨us, vs, rfl, first, second⟩ := append (F := .branch id label inner .nil) h
    obtain ⟨row₁, row₂, -⟩ := row.append
    have upTo₁ : ∀ u ∈ us, u.stop ≤ p := fun u hu => upTo u (List.mem_append_left _ hu)
    have top := first.covers_iff_endsAcross stands rfl row₁ upTo₁
    obtain ⟨none, some⟩ := ihRest second row₂ fun u hu => upTo u (List.mem_append_right _ hu)
    rw [Forest.lookup]
    split
    · next holds =>
      refine ⟨nofun, fun i found => ?_⟩
      cases below : inner.lookup (t.covers p) with
      | none => exact (by simpa [below] using found : id = i) ▸ top.mp holds
      | some j => exact (by simpa [below] using found : j = i) ▸ (ihInner first.inner row₁ upTo₁).2 j below
    · next holds =>
      refine ⟨fun missed i among => ?_, some⟩
      rw [Forest.ids_branch, ← List.cons_append] at among
      rcases List.mem_append.mp among with among | among
      · exact fun across => holds (top.mpr (first.endsAcross_top stands rfl row₁ upTo₁ (by simpa using among) across))
      · exact none missed i among

end

end Lays

/-! ### Positions in a token -/

/-- A lookup of a position in a token gives its leaf. It gives another node only if some node goes over lines and ends at
    the position, and then one of this kind. -/
def Finds (t : SyntaxTree) (F : Forest) (p : Position) (i : TokenId) : Prop :=
  ∃ found, F.lookup (t.covers p) = some found ∧
    (t.tag? found = some (.inl i) ∧ (∀ j ∈ F.ids, ¬ t.EndsAcross j p) ∨ t.EndsAcross found p)

namespace Finds

variable {i : TokenId} {label : Label}

theorem leaf (node : t.tag? id = some (.inl i)) (top : t.covers p id = true ∧ ¬ t.EndsAcross id p) :
    t.Finds (.leaf id i .nil) p i := by
  refine ⟨id, by rw [Forest.lookup, if_pos top.1], .inl ⟨node, fun j hj => ?_⟩⟩
  rw [show j = id by simpa using hj]
  exact top.2

theorem branch (h : t.Finds F p i) (top : t.covers p id = true ∧ ¬ t.EndsAcross id p) :
    t.Finds (.branch id label F .nil) p i := by
  obtain ⟨found, run, outcome⟩ := h
  refine ⟨found, by rw [Forest.lookup, if_pos top.1, run, Option.getD_some], outcome.imp_left fun ⟨node, others⟩ => ?_⟩
  refine ⟨node, fun j hj => ?_⟩
  rcases List.mem_cons.mp (by simpa using hj : j ∈ id :: F.ids) with rfl | hj
  · exact top.2
  · exact others j hj

theorem append (h : t.Finds F p i) (behind : ∀ j ∈ G.ids, ¬ t.EndsAcross j p) : t.Finds (F ++ G) p i := by
  obtain ⟨found, run, outcome⟩ := h
  refine ⟨found, by rw [Forest.lookup_append, run, Option.some_or], outcome.imp_left fun ⟨node, others⟩ => ?_⟩
  rw [Forest.ids_append]
  exact ⟨node, fun j hj => (List.mem_append.mp hj).elim (others j) (behind j)⟩

/-- Trees before are passed by, or one of them is found that goes over lines and ends at the position. -/
theorem behind (stands : t.Stands G) (h : t.Lays parent F before ts) (row : InOrder ts) (upTo : ∀ u ∈ ts, u.stop ≤ p)
    (there : t.Finds D p i) : t.Finds (F ++ D) p i := by
  obtain ⟨found, run, outcome⟩ := there
  obtain ⟨missed, caught⟩ := h.lookup_before stands row upTo
  rw [Finds, Forest.lookup_append, Forest.ids_append]
  cases here : F.lookup (t.covers p) with
  | some other => exact ⟨other, rfl, .inr (caught other here)⟩
  | none =>
    refine ⟨found, by rw [Option.none_or, run], outcome.imp_left fun ⟨node, others⟩ => ⟨node, fun j hj => ?_⟩⟩
    exact (List.mem_append.mp hj).elim (missed here j) (others j)

end Finds

/-- A token in front of others stands in the first tree or in the trees behind it. -/
theorem Lays.split (h : t.Lays parent (D ++ F) before ts) {us vs : List Token} {u : Token} (all : ts = us ++ u :: vs) :
    (∃ xs ys, t.Lays parent D before xs ∧ t.Lays parent F (before ++ lexemes xs) (ys ++ u :: vs) ∧ us = xs ++ ys) ∨
      ∃ xs ys, t.Lays parent D before (us ++ u :: xs) ∧ t.Lays parent F (before ++ lexemes (us ++ u :: xs)) ys ∧
        vs = xs ++ ys := by
  obtain ⟨xs, ys, both, first, second⟩ := h.append
  rw [all] at both
  rcases List.append_eq_append_iff.mp both with ⟨as, rfl, right⟩ | ⟨as, rfl, rfl⟩
  · cases as with
    | nil =>
      obtain rfl : u :: vs = ys := right
      exact .inl ⟨us, [], by simpa using first, by simpa using second, by simp⟩
    | cons a as =>
      obtain ⟨rfl, rfl⟩ := List.cons.inj right
      exact .inr ⟨as, ys, first, second, rfl⟩
  · exact .inl ⟨xs, as, first, second, rfl⟩

section
variable {us vs : List Token} {u : Token} {i : TokenId} (start : u.start ≤ p) (stop : p < u.stop)
include start stop

/-- The position stands in a token of the first tree, or of those behind it. -/
theorem Lays.finds_cons (stands : t.Stands G) (h : t.Lays parent (D ++ F) before (us ++ u :: vs))
    (row : InOrder (us ++ u :: vs)) (place : (D ++ F).tokens[us.length]? = some i)
    (inside : ∀ {before us vs}, t.Lays parent D before (us ++ u :: vs) → InOrder (us ++ u :: vs) →
      D.tokens[us.length]? = some i → t.Finds D p i)
    (beside : ∀ {before us vs}, t.Lays parent F before (us ++ u :: vs) → InOrder (us ++ u :: vs) →
      F.tokens[us.length]? = some i → t.Finds F p i) : t.Finds (D ++ F) p i := by
  rw [Forest.tokens_append] at place
  rcases h.split rfl with ⟨xs, ys, first, second, rfl⟩ | ⟨xs, ys, first, second, rfl⟩
  · rw [List.append_assoc] at row
    obtain ⟨row₁, row₂, touch⟩ := row.append
    have length : D.tokens.length = xs.length := by simpa using congrArg List.length first.tokens
    rw [List.length_append, List.getElem?_append_right (by omega), length, Nat.add_sub_cancel_left] at place
    refine .behind stands first row₁ (fun w hw => ?_) (beside second row₂ place)
    exact le_trans (touch w hw u (by simp)) start
  · rw [← List.cons_append, ← List.append_assoc] at row
    obtain ⟨row₁, row₂, touch⟩ := row.append
    have length : D.tokens.length = (us ++ u :: xs).length := by simpa using congrArg List.length first.tokens
    rw [List.length_append, List.length_cons] at length
    rw [List.getElem?_append_left (by omega)] at place
    refine (inside first row₁ place).append fun j hj across => ?_
    obtain ⟨w, hw, rfl⟩ := second.exists_stop stands hj across
    exact lt_asymm (lt_of_lt_of_le stop (touch u (by simp) w hw)) (row₂.wide w hw)

/-- A position in a token leads to its leaf. -/
theorem Lays.finds (stands : t.Stands G) (h : t.Lays parent F before (us ++ u :: vs)) (row : InOrder (us ++ u :: vs))
    (place : F.tokens[us.length]? = some i) : t.Finds F p i := by
  induction F generalizing parent before us vs with
  | nil => cases place
  | leaf id token rest ih =>
    refine finds_cons (D := .leaf id token .nil) start stop stands h row place (fun first row place => ?_) ih
    obtain rfl := List.mem_singleton.mp (List.mem_of_getElem? place)
    obtain ⟨⟨kept, node, -⟩, -⟩ := first.holds
    refine .leaf ?_ (first.covers_of_mem stands rfl row (by simp) start stop)
    rw [tag?, node]
    rfl
  | branch id label inner rest ihInner ihRest =>
    refine finds_cons (D := .branch id label inner .nil) start stop stands h row place (fun first row place => ?_) ihRest
    rw [Forest.tokens_branch, Forest.tokens_nil, List.append_nil] at place
    exact (ihInner first.inner row place).branch (first.covers_of_mem stands rfl row (by simp) start stop)

end

/-- A leaf ends where its token does. -/
theorem EndsAcross.of_leaf (stands : t.Stands F) {i : TokenId} {u : Token} (leaf : t.tag? id = some (.inl i))
    (found : t.tokens[i]? = some u) (across : t.EndsAcross id p) : u.stop = p := by
  obtain ⟨n, node, content⟩ : ∃ n, t.nodes[id]? = some n ∧ n.content = .leaf i := by
    obtain ⟨n, node, tag⟩ := Option.map_eq_some_iff.mp leaf
    refine ⟨n, node, ?_⟩
    rw [Node.tag] at tag
    split at tag <;> cases tag
    assumption
  have leaves : t.leaves id = [i] := stands.leaves_of_leaf (by rw [node, Option.map_some, content])
  have token : Uncached.token i t = .ok u := by rw [Uncached.token, found]
  have last : Uncached.lastToken? id t = .ok (some u) := by
    rw [Uncached.lastToken?, Uncached.run_bind_of_ok (Uncached.tokenIds_run node), leaves]
    change some <$> Uncached.token i t = _
    rw [token]
    rfl
  obtain ⟨-, -, stop, -⟩ := across
  rw [(Agrees.stop id).reads stands, Uncached.stop, Uncached.run_bind_of_ok last] at stop
  exact Except.ok.inj stop

end SyntaxTree

end SmithyIdl
