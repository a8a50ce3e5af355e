import SmithyIdl.Proofs.Buffer.Runs

/-! # Every moment of a run

What a parser ensures speaks of the buffer that it leaves. A traced parser notes the buffers on the way as well, one
behind each single step: taking a token, adding an error node, opening and closing a node. Without its notes it is the
parser that it traces. -/

namespace SmithyIdl

/-- A step of a buffer, with the buffers that it goes through. -/
def Traced (α : Type) := Buffer → List Buffer × Outcome α

namespace Traced

open SmithyIdl.Parser (Recovery Closed)

variable {α β : Type}

instance : Monad Traced where
  pure a := fun b => ([], .ok a b)
  bind p f := fun b =>
    match p b with
    | (notes, .ok a b) => (notes ++ (f a b).1, (f a b).2)
    | (notes, .error cause b) => (notes, .error cause b)
    | (notes, .fault why) => (notes, .fault why)

/-- A single step: only the buffer that it leaves is noted. -/
def note (p : Parser α) : Traced α := fun b => ((p.run b).buffer?.toList, p.run b)

/-- Catches a failure. -/
def attempt (p : Traced α) : Traced (Except SyntaxError α) := fun b =>
  match p b with
  | (notes, .ok a b) => (notes, .ok (.ok a) b)
  | (notes, .error cause b) => (notes, .ok (.error cause) b)
  | (notes, .fault why) => (notes, .fault why)

/-- Consumes up to `n` tokens, one by one, as long as they are in a class. -/
def shifts (kinds : Token → Bool) : Nat → Traced Unit
  | 0 => pure ()
  | n + 1 => do
    if ← note (Parser.ask fun b => b.hasNext && kinds b.current) then
      note Parser.shift
      shifts kinds n

/-- Consumes tokens as long as they are in a class. -/
def shiftWhile (kinds : Token → Bool) : Traced Unit := fun b => shifts kinds b.remaining b

/-- The tokens that an error node takes behind the one in the way. -/
def recover : Recovery → Traced Unit
  | .statement => shiftWhile (!Parser.startsStatement ·)
  | .endOfText => shiftWhile fun _ => true
  | .none => pure ()

/-- Records an error in a node of its own. -/
def report (e : SyntaxError) (recovery : Recovery) : Traced Unit := do
  let node ← note (Parser.addError (Parser.markOf e))
  if ← note Parser.hasNext then
    note (Parser.push node)
    note Parser.shift
    recover recovery
    note Parser.pop

/-- Fails where too many nodes are open. -/
def limited (p : Traced α) : Traced α := do
  if ← note (Parser.ask Buffer.isTooDeep) then note (Parser.fail .tooDeep) else p

/-- Runs a step, and records its failure. -/
def recovering (recovery : Recovery) (p : Traced α) : Traced (Option α) := do
  match ← attempt p with
  | .ok a => return some a
  | .error e =>
    report e recovery
    return none

/-- Runs a step inside a new node. -/
def scope (kind : TreeKind) (body : Traced α) (recovery : Recovery) : Traced (Closed α) := do
  let node ← note (Parser.openNode kind)
  let value ← recovering recovery (limited body)
  note (Parser.closeNode node)
  return ⟨node, value⟩

/-! ### What is traced -/

/-- The traced parser, without its notes. -/
def parser (p : Traced α) : Parser α := fun b => (p b).2

variable {p : Traced α} {f : α → Traced β}

theorem bind_apply (p : Traced α) (f : α → Traced β) (b : Buffer) : (p >>= f) b = match p b with
    | (notes, .ok a b) => (notes ++ (f a b).1, (f a b).2)
    | (notes, .error cause b) => (notes, .error cause b)
    | (notes, .fault why) => (notes, .fault why) := rfl

theorem bind_of_ok {b b' : Buffer} {notes : List Buffer} {a : α} (run : p b = (notes, .ok a b')) :
    (p >>= f) b = (notes ++ (f a b').1, (f a b').2) := by
  rw [bind_apply, run]

theorem note_of_ok {q : Parser α} {b b' : Buffer} {a : α} (run : q.run b = .ok a b') : note q b = ([b'], .ok a b') := by
  rw [note, run]
  rfl

theorem note_of_error {q : Parser α} {b b' : Buffer} {cause : SyntaxError} (run : q.run b = .error cause b') :
    note q b = ([b'], .error cause b') := by
  rw [note, run]
  rfl

@[simp] theorem parser_pure (a : α) : (pure a : Traced α).parser = pure a := rfl

@[simp] theorem parser_note (p : Parser α) : (note p).parser = p := rfl

@[simp] theorem parser_bind : (p >>= f).parser = p.parser >>= fun a => (f a).parser := by
  funext b
  rw [parser, bind_apply]
  change _ = (p b).2.andThen fun a => (f a).parser
  obtain ⟨notes, out⟩ := p b
  cases out <;> rfl

@[simp] theorem parser_ite {c : Prop} [Decidable c] {q : Traced α} :
    (if c then p else q).parser = if c then p.parser else q.parser := by
  split <;> rfl

@[simp] theorem parser_attempt : (attempt p).parser = Parser.attempt p.parser := by
  funext b
  rw [parser, attempt, Parser.attempt, parser]
  obtain ⟨notes, out⟩ := p b
  cases out <;> rfl

/-- As many tokens as are left are enough. -/
theorem parser_shifts (kinds : Token → Bool) {n : Nat} {b : Buffer} (enough : b.remaining ≤ n) :
    (shifts kinds n).parser.run b = (Parser.shiftWhile kinds).run b := by
  change _ = Parser.foldBelow (fun _ b => b.hasNext && kinds b.current) (fun _ => Parser.shift) b.remaining () b
  induction n generalizing b with
  | zero =>
    have ended : b.hasNext = false := by
      rw [Buffer.remaining] at enough
      simpa [Buffer.hasNext] using Nat.sub_eq_zero_iff_le.mp (Nat.le_zero.mp enough)
    rw [Parser.foldBelow, if_neg (by simp [ended])]
    rfl
  | succ n ih =>
    rw [shifts, parser_bind, parser_note, Parser.run_bind_of_ok (Parser.run_ask _ b), Parser.foldBelow, parser_ite,
      Parser.run_ite]
    cases more : b.hasNext && kinds b.current with
    | false => rfl
    | true =>
      rw [if_pos rfl, if_pos rfl, parser_bind, parser_note, Parser.run_bind]
      cases taken : Parser.shift.run b with
      | ok _ b' =>
        have fewer := Parser.shift_remaining taken
        rw [Parser.run] at taken
        simp only [taken, fewer, if_true]
        exact ih (by omega)
      | error cause b' =>
        rw [Parser.run] at taken
        simp only [taken]
        rfl
      | fault why =>
        rw [Parser.run] at taken
        simp only [taken]
        rfl

@[simp] theorem parser_shiftWhile (kinds : Token → Bool) : (shiftWhile kinds).parser = Parser.shiftWhile kinds :=
  funext fun b => parser_shifts kinds (Nat.le_refl b.remaining)

@[simp] theorem parser_recover (recovery : Recovery) : (recover recovery).parser = Parser.recover recovery := by
  cases recovery <;> simp [recover, Parser.recover]

@[simp] theorem parser_report (e : SyntaxError) (recovery : Recovery) :
    (report e recovery).parser = Parser.report e recovery := by
  simp [report, Parser.report]

theorem parser_scope (kind : TreeKind) (body : Traced α) (recovery : Recovery) :
    (scope kind body recovery).parser = Parser.scope kind body.parser recovery := by
  have caught : (recovering recovery (limited body)).parser =
      Parser.recovering recovery (Parser.limited body.parser) := by
    simp only [recovering, limited, Parser.recovering, Parser.limited, parser_bind, parser_attempt, parser_note,
      parser_ite]
    congr 1
    funext r
    cases r <;> simp
  simp [scope, Parser.scope, caught]

end Traced

/-! ### Moments -/

/-- The root is the outermost open node, and no tree stands alone. -/
structure View.Rooted (v : View) : Prop where
  root : v.names.getLast? = some (SyntaxTree.root, .plain .idl)
  loose : v.loose = .nil

theorem View.Rooted.grow {v : View} (h : v.Rooted) (F : Forest) : (v.grow F).Rooted := ⟨h.root, h.loose⟩

theorem View.Rooted.enter {v : View} (h : v.Rooted) (id : NodeId) (label : Label) : (v.enter id label).Rooted :=
  ⟨by rw [View.enter_names, List.getLast?_cons, h.root, Option.getD_some], h.loose⟩

namespace Buffer

variable {b b' b'' : Buffer} {v : View} {ms ms' : List Buffer}

/-- Every node and every token before the cursor stands below the root, which is open. -/
def Rooted (b : Buffer) : Prop := ∃ v, b.Shows v ∧ v.Rooted

theorem ShowsGrown.rooted (h : b.ShowsGrown v) (rooted : v.Rooted) : b.Rooted := by
  obtain ⟨F, h⟩ := h
  exact ⟨_, h, rooted.grow F⟩

/-- The buffers `ms` come one after the other behind `b`, every node is below the root in each of them, and the last
    one is `b'`. -/
def Passes : Buffer → List Buffer → Buffer → Prop
  | b, [], b' => b' = b
  | b, m :: ms, b' => b.Leads m ∧ m.Rooted ∧ m.Passes ms b'

namespace Passes

theorem append (h : b.Passes ms b') (h' : b'.Passes ms' b'') : b.Passes (ms ++ ms') b'' := by
  induction ms generalizing b with
  | nil => exact h ▸ h'
  | cons m ms ih => exact ⟨h.1, h.2.1, ih h.2.2⟩

theorem rooted (h : b.Passes ms b') : ∀ m ∈ ms, m.Rooted := by
  induction ms generalizing b with
  | nil => exact nofun
  | cons m ms ih => exact List.forall_mem_cons.mpr ⟨h.2.1, ih h.2.2⟩

theorem getLast? (h : b.Passes ms b') : (b :: ms).getLast? = some b' := by
  induction ms generalizing b with
  | nil => rw [h, List.getLast?_singleton]
  | cons m ms ih => rw [List.getLast?_cons_cons, ih h.2.2]

theorem leads (h : b.Passes ms b') : ∀ m ∈ ms, b.Leads m := by
  induction ms generalizing b with
  | nil => exact nofun
  | cons m ms ih => exact List.forall_mem_cons.mpr ⟨h.1, fun m' among => h.1.trans (ih h.2.2 m' among)⟩

theorem pairwise (h : b.Passes ms b') : (b :: ms).Pairwise Leads := by
  induction ms generalizing b with
  | nil => exact List.pairwise_singleton ..
  | cons m ms ih => exact List.pairwise_cons.mpr ⟨h.leads, ih h.2.2⟩

end Passes

end Buffer

/-! ### What a traced parser ensures -/

namespace Traced

open SmithyIdl.Parser (Recovery Closed Steady)

variable {α β : Type} {p : Traced α} {f : α → Traced β} {b b' : Buffer} {v : View} {Q Q' : α → Buffer → Prop}
  {E E' : Buffer → Prop}

/-- No fault, and from `b` to the end all moments are passed as they should be. -/
def Ensures (p : Traced α) (b : Buffer) (Q : α → Buffer → Prop) (E : Buffer → Prop) : Prop :=
  (p b).2.Meets (fun a b' => b.Passes (p b).1 b' ∧ Q a b') fun b' => b.Passes (p b).1 b' ∧ E b'

namespace Ensures

theorem pure {a : α} (h : Q a b) : (Pure.pure a : Traced α).Ensures b Q E := ⟨rfl, h⟩

theorem run_cases (h : p.Ensures b Q E) : (∃ ms a b', p b = (ms, .ok a b') ∧ b.Passes ms b' ∧ Q a b') ∨
    ∃ ms cause b', p b = (ms, .error cause b') ∧ b.Passes ms b' ∧ E b' := by
  rw [Ensures] at h
  generalize p b = r at h
  obtain ⟨ms, out⟩ := r
  cases out with
  | ok a b' => exact .inl ⟨ms, a, b', rfl, h⟩
  | error cause b' => exact .inr ⟨ms, cause, b', rfl, h⟩
  | fault why => exact h.elim

theorem of_ok {ms : List Buffer} {a : α} (run : p b = (ms, .ok a b')) (passes : b.Passes ms b') (h : Q a b') :
    p.Ensures b Q E := by
  rw [Ensures, run]
  exact ⟨passes, h⟩

theorem of_error {ms : List Buffer} {cause : SyntaxError} (run : p b = (ms, .error cause b'))
    (passes : b.Passes ms b') (h : E b') : p.Ensures b Q E := by
  rw [Ensures, run]
  exact ⟨passes, h⟩

theorem mono (h : p.Ensures b Q E) (ok : ∀ a b', Q a b' → Q' a b') (err : ∀ b', E b' → E' b') :
    p.Ensures b Q' E' := by
  obtain ⟨ms, a, b', run, passes, hQ⟩ | ⟨ms, cause, b', run, passes, hE⟩ := h.run_cases
  · exact of_ok run passes (ok a b' hQ)
  · exact of_error run passes (err b' hE)

theorem bind {R : β → Buffer → Prop} (h : p.Ensures b Q E) (next : ∀ a b', Q a b' → (f a).Ensures b' R E) :
    (p >>= f).Ensures b R E := by
  obtain ⟨ms, a, b₁, run, passes, hQ⟩ | ⟨ms, cause, b', run, passes, hE⟩ := h.run_cases
  · obtain ⟨ms', c, b', run', passes', hR⟩ | ⟨ms', cause, b', run', passes', hE⟩ := (next a b₁ hQ).run_cases
    · exact of_ok (by rw [bind_of_ok run, run']) (passes.append passes') hR
    · exact of_error (by rw [bind_of_ok run, run']) (passes.append passes') hE
  · exact of_error (by rw [bind_apply, run]) passes hE

theorem ite {c : Prop} [Decidable c] {q : Traced α} (pos : c → p.Ensures b Q E) (neg : ¬ c → q.Ensures b Q E) :
    (if c then p else q).Ensures b Q E := by
  by_cases hc : c
  · rw [if_pos hc]
    exact pos hc
  · rw [if_neg hc]
    exact neg hc

theorem attempt (h : p.Ensures b Q E) :
    (Traced.attempt p).Ensures b (fun r b' => match r with
      | .ok a => Q a b'
      | .error _ => E b') fun _ => False := by
  obtain ⟨ms, a, b', run, passes, hQ⟩ | ⟨ms, cause, b', run, passes, hE⟩ := h.run_cases
  · exact of_ok (by rw [Traced.attempt, run]) passes hQ
  · exact of_ok (by rw [Traced.attempt, run]) passes hE

/-- A single step that succeeds. -/
theorem step {q : Parser α} [Steady q] {a : α} (run : q.run b = .ok a b') (rooted : b'.Rooted) (h : Q a b') :
    (note q).Ensures b Q E :=
  of_ok (note_of_ok run) ⟨Steady.ok run, rooted, rfl⟩ h

/-- Goes on behind a single step. -/
theorem after {q : Parser α} [Steady q] {R : β → Buffer → Prop} {a : α} (run : q.run b = .ok a b')
    (rooted : b'.Rooted) (h : (f a).Ensures b' R E) : (note q >>= f).Ensures b R E := by
  have first : (note q).Ensures b (fun x m => x = a ∧ m = b') E := step run rooted ⟨rfl, rfl⟩
  refine first.bind fun x m same => ?_
  obtain ⟨rfl, rfl⟩ := same
  exact h

/-- The parser that is traced ensures the same. -/
theorem parser (h : p.Ensures b Q E) : p.parser.Ensures b Q E := by
  rw [Parser.Ensures, Parser.run, Traced.parser]
  obtain ⟨ms, a, b', run, -, hQ⟩ | ⟨ms, cause, b', run, -, hE⟩ := h.run_cases
  · rw [run]
    exact hQ
  · rw [run]
    exact hE

theorem exists_passes {R : Buffer → Prop} (h : p.Ensures b (fun _ => R) R) :
    ∃ b', (p b).2.buffer? = some b' ∧ b.Passes (p b).1 b' ∧ R b' := by
  obtain ⟨ms, a, b', run, passes, hR⟩ | ⟨ms, cause, b', run, passes, hR⟩ := h.run_cases
  · exact ⟨b', by rw [run]; rfl, by rwa [run], hR⟩
  · exact ⟨b', by rw [run]; rfl, by rwa [run], hR⟩

end Ensures

/-- At the end the innermost open node has further children, and on the way no tree stands outside of the root. -/
structure Grows (p : Traced α) : Prop where
  ensures : ∀ {b : Buffer} {v : View}, b.Shows v → v.Rooted →
    p.Ensures b (fun _ b' => b'.ShowsGrown v) fun b' => b'.ShowsGrown v

namespace Grows

theorem pure (a : α) : Grows (Pure.pure a) := ⟨fun h _ => .pure h.grown⟩

theorem note (q : Parser α) [Parser.Grows q] : Grows (note q) where
  ensures {b v} h rooted := by
    have grown := Parser.Grows.grows (p := q) h
    rw [Parser.Ensures] at grown
    cases run : q.run b with
    | ok a b' =>
      rw [run] at grown
      exact .step run (grown.rooted rooted) grown
    | error cause b' =>
      rw [run] at grown
      exact .of_error (note_of_error run) ⟨Steady.error run, grown.rooted rooted, rfl⟩ grown
    | fault why =>
      rw [run] at grown
      exact grown.elim

theorem bind (h : Grows p) (next : ∀ a, Grows (f a)) : Grows (p >>= f) where
  ensures shown rooted := (h.ensures shown rooted).bind fun a b' grown => by
    obtain ⟨F, shown'⟩ := grown
    exact ((next a).ensures shown' (rooted.grow F)).mono (fun _ _ => .trans) fun _ => .trans

theorem attempt (h : Grows p) : Grows (attempt p) where
  ensures shown rooted :=
    (h.ensures shown rooted).attempt.mono (fun r b' grown => by cases r <;> exact grown) fun _ never => never.elim

theorem limited (h : Grows p) : Grows (limited p) :=
  .bind (.note (Parser.ask Buffer.isTooDeep)) fun deep => by
    cases deep with
    | true => exact .note (Parser.fail .tooDeep)
    | false => exact h

end Grows

/-! ### Steps -/

section
variable (h : b.Shows v) (rooted : v.Rooted)
include h rooted

theorem shifts_ensures (kinds : Token → Bool) (n : Nat) :
    (shifts kinds n).Ensures b (fun _ b' => b'.ShowsGrown v) E := by
  induction n generalizing b v with
  | zero => exact .pure h.grown
  | succ n ih =>
    refine .after (Parser.run_ask _ b) ⟨v, h, rooted⟩ (.ite (fun more => ?_) fun _ => .pure h.grown)
    obtain ⟨b', run, shown⟩ := Parser.run_shift h (Bool.and_eq_true_iff.mp more).1
    have rooted' := rooted.grow (.leaf b.tree.size b.cursor .nil)
    exact .after run ⟨_, shown, rooted'⟩ ((ih shown rooted').mono (fun _ _ => .trans) fun _ hE => hE)

theorem recover_ensures (recovery : Recovery) :
    (recover recovery).Ensures b (fun _ b' => b'.ShowsGrown v) E := by
  cases recovery with
  | statement => exact shifts_ensures h rooted _ b.remaining
  | endOfText => exact shifts_ensures h rooted _ b.remaining
  | none => exact .pure h.grown

/-- The error node is open while tokens are taken into it. -/
theorem report_ensures (e : SyntaxError) (recovery : Recovery) :
    (report e recovery).Ensures b (fun _ b' => b'.ShowsGrown v) E := by
  obtain ⟨b₁, run₁, shown₁⟩ := Parser.run_addError h (Parser.markOf e)
  have rooted₁ : b₁.Rooted := ⟨_, shown₁, rooted.grow _⟩
  refine .after run₁ rooted₁ (.after (Parser.run_hasNext b₁) rooted₁ (.ite (fun next => ?_) fun _ => ?_))
  · have inside := rooted.enter b.tree.size (.error (Parser.markOf e))
    obtain ⟨b₂, run₂, shown₂, same⟩ := Parser.run_push shown₁
    obtain ⟨b₃, run₃, shown₃⟩ := Parser.run_shift shown₂ (same.trans next)
    refine .after run₂ ⟨_, shown₂, inside⟩ (.after run₃ ⟨_, shown₃, inside.grow _⟩ ?_)
    refine (recover_ensures shown₃ (inside.grow _) recovery).bind fun _ b₄ grown => ?_
    obtain ⟨F, shown₄⟩ := grown.trans
    obtain ⟨b₅, run₅, shown₅⟩ := Parser.run_pop shown₄ (v.enter_names _ _)
    rw [View.enter_grow_leave] at shown₅
    exact .step run₅ ⟨_, shown₅, rooted.grow _⟩ ⟨_, shown₅⟩
  · exact .pure ⟨_, shown₁⟩

theorem recovering_ensures (grows : Grows p) (recovery : Recovery) :
    (recovering recovery p).Ensures b (fun _ b' => b'.ShowsGrown v) E := by
  refine ((grows.ensures h rooted).attempt.mono (fun _ _ h' => h') fun _ never => never.elim).bind fun r b₁ grown => ?_
  cases r with
  | ok a => exact .pure grown
  | error e =>
    obtain ⟨F, shown⟩ := grown
    exact (report_ensures shown (rooted.grow F) e recovery).bind fun _ b₂ grown' => .pure grown'.trans

/-- Whatever happens inside a scope, its node is closed at the end. -/
theorem scope_ensures (grows : Grows p) (kind : TreeKind) (recovery : Recovery) :
    (scope kind p recovery).Ensures b (fun _ b' => b'.ShowsGrown v) E := by
  obtain ⟨b₁, run₁, shown₁⟩ := Parser.run_openNode h kind
  have inside := rooted.enter b.tree.size (.plain kind)
  refine .after run₁ ⟨_, shown₁, inside⟩ ?_
  refine (recovering_ensures shown₁ inside grows.limited recovery).bind fun value b₂ grown => ?_
  obtain ⟨F, shown₂⟩ := grown
  obtain ⟨b₃, run₃, shown₃⟩ := Parser.run_closeNode shown₂ (v.enter_names _ _)
  rw [View.enter_grow_leave] at shown₃
  exact .after run₃ ⟨_, shown₃, rooted.grow _⟩ (.pure ⟨_, shown₃⟩)

end

end Traced

end SmithyIdl
