import SmithyIdl.Proofs.Buffer.Moves
import SmithyIdl.Proofs.Trivia.Orders

/-! # Documentation comments that are handed on

Documentation comments stand where they were read until what they document adopts them. Meanwhile two views belong to
the buffer: the one that it shows, and the one without the comments, which is what stays behind when they are adopted. -/

namespace SmithyIdl

open SmithyIdl.Parser

namespace View

variable {v v' : View} {docs : Option NodeId} {D F : Forest}

/-- Without the documentation comments, which are the tree `D` and the last items, the view is `v'`. -/
def Sheds (docs : Option NodeId) (D : Forest) (v v' : View) : Prop :=
  match docs with
  | none => D = .nil ∧ v' = v
  | some d => DocsOut (fun _ => True) d D v.spine v'.spine ∧ v'.loose = v.loose

namespace Sheds

theorem names (h : Sheds docs D v v') : v'.names = v.names := by
  cases docs with
  | none => rw [h.2]
  | some d =>
    obtain ⟨-, -, -, -, -, names, -⟩ := h.1.split (X := .nil) rfl
    exact names

theorem loose (h : Sheds docs D v v') : v'.loose = v.loose := by
  cases docs with
  | none => rw [h.2]
  | some d => exact h.2

theorem enter (h : Sheds docs D v v') (id : NodeId) (kind : TreeKind) :
    Sheds docs D (v.enter id (.plain kind)) (v'.enter id (.plain kind)) := by
  cases docs with
  | none => exact ⟨h.1, h.2 ▸ rfl⟩
  | some d => exact ⟨.deeper rfl rfl h.1, h.2⟩

theorem leave (h : Sheds docs D v v') : Sheds docs D v.leave v'.leave := by
  have names := h.names
  cases docs with
  | none => exact ⟨h.1, h.2 ▸ rfl⟩
  | some d =>
    obtain ⟨out, loose⟩ := h
    obtain ⟨n, _ | ⟨g, outer⟩, L⟩ := v
    · obtain ⟨n', outer', L'⟩ := v'
      obtain rfl := List.map_eq_nil_iff.mp (List.cons.inj names).2
      exact ⟨out, loose⟩
    · obtain ⟨n', g', outer', spine, left⟩ := out.leave id
      obtain ⟨m, outer'', L'⟩ := v'
      obtain ⟨rfl, rfl⟩ := List.cons.inj spine
      exact ⟨left, loose⟩

/-- A node of trivia that was added last. -/
theorem last (v : View) (d : NodeId) : Sheds (some d) (.branch d (.plain .whitespace) F .nil)
    (v.grow (.branch d (.plain .whitespace) F .nil)) v := by
  have out : DocsOut (fun _ => True) d (.branch d (.plain .whitespace) F .nil)
      (v.grow (.branch d (.plain .whitespace) F .nil)).spine
      ({ v.inner with children := v.inner.children ++ Forest.plug [] .nil ++ .nil } :: v.outer) :=
    .here (by simp [grow]) trivial rfl rfl
  rw [Forest.plug_nil, Forest.append_nil, Forest.append_nil] at out
  exact ⟨out, rfl⟩

/-- A tree beside does not matter. -/
theorem aside (h : Sheds docs D v v') (T : Forest) :
    Sheds docs D { v with loose := T ++ v.loose } { v' with loose := T ++ v'.loose } := by
  cases docs with
  | none => exact ⟨h.1, h.2 ▸ rfl⟩
  | some d => exact ⟨h.1, congrArg (T ++ ·) h.2⟩

/-- A node that was just opened adopts the documentation comments; the items keep their order. -/
theorem adopted (h : Sheds docs D v v') {b b' : Buffer} {id : NodeId} {kind : TreeKind}
    (shown : b.Shows (v.enter id (.plain kind))) (run : (adoptDocs docs).run b = .ok () b') :
    b'.Shows ((v'.enter id (.plain kind)).grow D) ∧
      ((v'.enter id (.plain kind)).grow D).whole.items = v.whole.items := by
  cases docs with
  | none =>
    obtain ⟨rfl, rfl⟩ := h
    cases run
    rw [View.grow_nil]
    exact ⟨shown, v'.items_enter id kind⟩
  | some d =>
    obtain ⟨outer, b₁, spine, run₁, shown₁, -, items⟩ := run_adoptDocs shown (h.enter id kind).1 rfl
    obtain rfl : b₁ = b' := (Outcome.ok.inj (run₁.symm.trans run)).2
    obtain ⟨-, rfl⟩ := List.cons.inj spine
    have same : (v'.enter id (.plain kind)) = ⟨⟨id, .plain kind, .nil⟩, v'.spine, v.loose⟩ := by
      rw [View.enter, h.2]
    rw [same]
    exact ⟨shown₁, items.trans (v.items_enter id kind)⟩

end Sheds

end View

/-- Documentation comments, which begin with the token `k`, wait for what comes; before them, `j` is the last token that
    is no trivia. -/
structure Buffer.Due (b : Buffer) (ts : Array Token) (v v' : View) (docs : Option NodeId) (j k : TokenId) : Prop where
  gathers : b.Gathers ts v
  docs : ∃ D, v.Sheds docs D v' ∧ D.IsDocs k b.cursor
  trail : Trail ts j k b.cursor

namespace Buffer.Due

variable {b b' : Buffer} {ts : Array Token} {v v' : View} {docs : Option NodeId} {j k : TokenId}

theorem start (gathers : b.Gathers ts v) (trail : Trail ts j b.cursor b.cursor) : b.Due ts v v none j b.cursor :=
  ⟨gathers, ⟨.nil, ⟨rfl, rfl⟩, .inl ⟨rfl, rfl⟩⟩, trail⟩

theorem enter (h : b.Due ts v v' docs j k) {id : NodeId} {kind : TreeKind}
    (gathers : b'.Gathers ts (v.enter id (.plain kind))) (same : b'.cursor = b.cursor) :
    b'.Due ts (v.enter id (.plain kind)) (v'.enter id (.plain kind)) docs j k := by
  obtain ⟨D, sheds, spans⟩ := h.docs
  exact ⟨gathers, ⟨D, sheds.enter id kind, same ▸ spans⟩, same ▸ h.trail⟩

theorem leave (h : b.Due ts v v' docs j k) (gathers : b'.Gathers ts v.leave) (same : b'.cursor = b.cursor) :
    b'.Due ts v.leave v'.leave docs j k := by
  obtain ⟨D, sheds, spans⟩ := h.docs
  exact ⟨gathers, ⟨D, sheds.leave, same ▸ spans⟩, same ▸ h.trail⟩

end Buffer.Due

end SmithyIdl
