import SmithyIdl.Proofs.Tree.Links

/-! # Reading without keeping

What can be read of a tree, by readers that look at the links and the tokens alone and have nowhere to keep what they
found. In a standing tree the readers that keep tokens give the same. -/

namespace SmithyIdl

/-- A reader that keeps nothing. -/
abbrev Uncached := ReaderT SyntaxTree (Except Fault)

namespace Uncached

/-- Something about a node that has to exist. -/
def look {α : Type} (g : Node → α) (id : NodeId) : Uncached α := fun t =>
  match t.nodes[id]? with
  | some n => .ok (g n)
  | none => .error (.outOfBounds t.size id)

/-- A token, which has to exist. -/
def token (id : TokenId) : Uncached Token := fun t =>
  match t.tokens[id]? with
  | some token => .ok token
  | none => .error (.outOfBounds t.tokens.size id)

/-- The names of the tokens below a node, in order. -/
def tokenIds (id : NodeId) : Uncached (List TokenId) := do
  look (fun _ => ()) id
  return (← read).leaves id

/-- The tokens below a node, in order. -/
def tokens (id : NodeId) : Uncached (List Token) := do (← tokenIds id).mapM token

/-- The first token below a node. -/
def firstToken? (id : NodeId) : Uncached (Option Token) := do (← tokenIds id).head?.mapM token

/-- The last token below a node. -/
def lastToken? (id : NodeId) : Uncached (Option Token) := do (← tokenIds id).getLast?.mapM token

/-- What a node is. -/
def kind (id : NodeId) : Uncached TreeKind := look Node.kind id

/-- The token of a leaf. -/
def leafToken? (id : NodeId) : Uncached (Option Token) := do (← look Node.token? id).mapM token

/-- The characters of the tokens below a node. -/
def text (id : NodeId) : Uncached String := do return String.join ((← tokens id).map Token.lexeme)

/-- Where a node without tokens stands: where its error was met. -/
def emptyPosition (id : NodeId) : Uncached Position := do
  return ((← look Node.mark? id).map Mark.position).getD .nowhere

/-- Where a node starts. -/
def start (id : NodeId) : Uncached Position := do
  match ← firstToken? id with
  | some token => return token.start
  | none => emptyPosition id

/-- Where a node ends. -/
def stop (id : NodeId) : Uncached Position := do
  match ← lastToken? id with
  | some token => return token.stop
  | none => emptyPosition id

/-- The stretch of the text that a node takes. -/
def range (id : NodeId) : Uncached ByteRange := do
  match ← firstToken? id, ← lastToken? id with
  | some first, some last => return first.range.cover last.range
  | _, _ => return .empty (((← look Node.mark? id).map Mark.offset).getD 0)

/-- What an error node reports. -/
def problem? (id : NodeId) : Uncached (Option Problem) := do return (← look Node.mark? id).map Mark.problem

/-- The nodes of a kind below a node, in the order of the text. -/
def descendantsOfKind (kind : TreeKind) (id : NodeId) : Uncached (List NodeId) := do
  look (fun _ => ()) id
  let t ← read
  return (t.descendants id).filter fun i => t.kind? i = some kind

/-- The error nodes from a node on, in the order of the text. -/
def errors (id : NodeId) : Uncached (List NodeId) := do
  look (fun _ => ()) id
  let t ← read
  return (id :: t.descendants id).filter fun i => t.kind? i = some .error

/-- Whether there are error nodes from a node on. -/
def hasErrors (id : NodeId) : Uncached Bool := do return !(← errors id).isEmpty

variable {α β : Type} {t : SyntaxTree} {i : NodeId} {n : Node}

theorem run_bind_of_ok {r : Uncached α} {f : α → Uncached β} {a : α} (h : r t = .ok a) : (r >>= f) t = f a t := by
  change (r t >>= fun a => f a t) = f a t
  rw [h]
  rfl

theorem look_run {g : Node → α} (found : t.nodes[i]? = some n) : look g i t = .ok (g n) := by rw [look, found]

theorem tokenIds_run (found : t.nodes[i]? = some n) : tokenIds i t = .ok (t.leaves i) := run_bind_of_ok (look_run found)

theorem firstToken?_run (found : t.nodes[i]? = some n) :
    firstToken? i t = (t.leaves i).head?.mapM (token · t) := by
  unfold firstToken?
  rw [run_bind_of_ok (tokenIds_run found)]
  cases t.leaves i <;> rfl

end Uncached

namespace SyntaxTree

variable {t t' : SyntaxTree} {F : Forest}

namespace Alike

theorem leavesWithin_eq (h : t.Alike t') (n : Nat) : t'.leavesWithin n = t.leavesWithin n := by
  induction n with
  | zero => rfl
  | succ n ih =>
    funext i
    rw [leavesWithin, leavesWithin, h.map_eq fun _ => rfl, ih]

theorem leaves_eq (h : t.Alike t') (i : NodeId) : t'.leaves i = t.leaves i := by
  rw [leaves, leaves, h.size_eq, h.leavesWithin_eq]

theorem childrenOf_eq (h : t.Alike t') (i : NodeId) : t'.childrenOf i = t.childrenOf i := by
  rw [childrenOf, childrenOf, h.map_eq fun _ => rfl]

theorem descendantsWithin_eq (h : t.Alike t') (n : Nat) : t'.descendantsWithin n = t.descendantsWithin n := by
  induction n with
  | zero => rfl
  | succ n ih =>
    funext i
    rw [descendantsWithin, descendantsWithin, h.childrenOf_eq, ih]

theorem descendants_eq (h : t.Alike t') (i : NodeId) : t'.descendants i = t.descendants i := by
  rw [descendants, descendants, h.size_eq, h.descendantsWithin_eq]

theorem kind?_eq (h : t.Alike t') (i : NodeId) : t'.kind? i = t.kind? i := h.map_eq (fun _ => rfl) i

theorem ancestors_eq (h : t.Alike t') (i : NodeId) : t'.ancestors i = t.ancestors i := by
  rw [ancestors, ancestors, h.size_eq]
  exact climb_congr (h.parent?_eq i) fun j _ => h.parent?_eq j

end Alike

theorem descendantsOfKind_gone {id : NodeId} (gone : t.nodes[id]? = none) (kind : TreeKind) :
    Reading.descendantsOfKind kind id t = .error (.outOfBounds t.size id) := by
  have node : Reading.node id t = .error (.outOfBounds t.size id) := by rw [Reading.node, gone]
  simp only [Reading.descendantsOfKind, Reading.descendants, bind, StateT.bind, Except.bind, node]

/-- In a standing tree `r` gives what `x` gives, which does not depend on what is kept. -/
structure Agrees {α : Type} (r : Reading α) (x : Uncached α) : Prop where
  blind : ∀ {t t'}, t.Alike t' → x t' = x t
  reads : ∀ {t F}, t.Stands F → r.run' t = x t

namespace Agrees

variable {α β : Type} {r : Reading α} {x : Uncached α} {f : α → Reading β} {y : α → Uncached β}

theorem pure (a : α) : Agrees (Pure.pure a) (Pure.pure a) := ⟨fun _ => rfl, fun _ => rfl⟩

theorem bind [Still r] (h : Agrees r x) (h' : ∀ a, Agrees (f a) (y a)) : Agrees (r >>= f) (x >>= y) where
  blind same := by
    change (x _ >>= fun a => y a _) = (x _ >>= fun a => y a _)
    rw [h.blind same]
    exact congrArg _ (funext fun a => (h' a).blind same)
  reads {t F} stands := by
    have here := h.reads stands
    change ((r t >>= fun (a, t') => f a t') >>= fun (b, _) => Pure.pure b) = (x t >>= fun a => y a t)
    change (r t >>= fun (a, _) => Pure.pure a) = x t at here
    cases run : r t with
    | error why =>
      rw [run] at here
      rw [← here]
      rfl
    | ok found =>
      obtain ⟨a, t'⟩ := found
      have fills := Still.fills (r := r) run
      rw [run] at here
      rw [← here]
      exact ((h' a).reads (stands.filled fills)).trans ((h' a).blind fills.alike)

theorem map [Still r] (g : α → β) (h : Agrees r x) : Agrees (g <$> r) (g <$> x) := by
  rw [map_eq_pure_bind, map_eq_pure_bind]
  exact h.bind fun a => pure (g a)

theorem mapM {g : α → Reading β} {z : α → Uncached β} [∀ a, Still (g a)] (h : ∀ a, Agrees (g a) (z a)) (l : List α) :
    Agrees (l.mapM g) (l.mapM z) := by
  induction l with
  | nil =>
    rw [List.mapM_nil, List.mapM_nil]
    exact pure []
  | cons a l ih =>
    rw [List.mapM_cons, List.mapM_cons]
    exact (h a).bind fun b => ih.bind fun bs => pure (b :: bs)

theorem bind_map [Still r] {γ : Type} {g : α → γ} {z : Uncached γ} {f : γ → Reading β} {y : γ → Uncached β}
    (h : Agrees (g <$> r) z) (h' : ∀ c, Agrees (f c) (y c)) : Agrees (r >>= fun a => f (g a)) (z >>= y) := by
  have := bind h h'
  rwa [bind_map_left] at this

theorem optionMapM {g : α → Reading β} {z : α → Uncached β} [∀ a, Still (g a)] (h : ∀ a, Agrees (g a) (z a))
    (o : Option α) : Agrees (o.mapM g) (o.mapM z) := by
  cases o with
  | none => exact pure none
  | some a => exact (h a).map some

/-- All of a node but what it keeps is there for both. -/
theorem look {g : Node → α} (blind : ∀ n, g (n.withCache none) = g n) (id : NodeId) :
    Agrees (g <$> Reading.node id) (Uncached.look g id) where
  blind {t t'} same := by
    have node := same.map_eq blind id
    rw [Uncached.look, Uncached.look, same.size_eq]
    cases here : t.nodes[id]? <;> cases there : t'.nodes[id]? <;> simp_all
  reads {t F} _ := by
    change ((g <$> Reading.node id) t >>= fun (a, _) => Pure.pure a) = _
    rw [Uncached.look]
    cases found : t.nodes[id]? <;> simp only [Functor.map, StateT.map, Reading.node, found] <;> rfl

theorem token (id : TokenId) : Agrees (Reading.token id) (Uncached.token id) where
  blind same := by rw [Uncached.token, Uncached.token, same.tokens]
  reads {t F} _ := by
    change (Reading.token id t >>= fun (a, _) => Pure.pure a) = _
    rw [Uncached.token, Reading.token]
    cases t.tokens[id]? <;> rfl

/-- What is kept at a node, or found below it, are the tokens of its leaves. -/
theorem tokenIds (id : NodeId) : Agrees (Array.toList <$> Reading.tokenIds id) (Uncached.tokenIds id) where
  blind {t t'} same := by
    change (Uncached.look (fun _ => ()) id t' >>= fun _ => Except.ok (t'.leaves id)) =
      (Uncached.look (fun _ => ()) id t >>= fun _ => Except.ok (t.leaves id))
    rw [(look (g := fun _ => ()) (fun _ => rfl) id).blind same, same.leaves_eq]
  reads {t F} stands := by
    change ((Array.toList <$> Reading.tokenIds id) t >>= fun (a, _) => Pure.pure a) =
      (Uncached.look (fun _ => ()) id t >>= fun _ => Except.ok (t.leaves id))
    rw [Uncached.look]
    simp only [Functor.map, StateT.map]
    cases found : t.nodes[id]? with
    | none =>
      rw [Reading.tokenIds, found]
      rfl
    | some n =>
      obtain ⟨-, way, D, -, -, place⟩ := stands.exists_at (Array.getElem?_eq_some_iff.mp found).1
      obtain ⟨t', run, -⟩ := reads_tokenIds place.inside place.one place.size_ids place.nodup_ids
      rw [run, place.leaves_eq]
      rfl

/-! ### Readers of tokens -/

theorem tokens (id : NodeId) : Agrees (Reading.tokens id) (Uncached.tokens id) :=
  (tokenIds id).bind_map fun _ => mapM token _

theorem firstToken? (id : NodeId) : Agrees (Reading.firstToken? id) (Uncached.firstToken? id) := by
  have same : Reading.firstToken? id = Reading.tokenIds id >>= fun ids => ids.toList.head?.mapM Reading.token := by
    refine congrArg _ (funext fun ids => ?_)
    rw [← Array.getElem?_toList, ← List.head?_eq_getElem?]
    cases ids.toList.head? <;> rfl
  rw [same]
  exact (tokenIds id).bind_map fun ids => optionMapM token ids.head?

theorem lastToken? (id : NodeId) : Agrees (Reading.lastToken? id) (Uncached.lastToken? id) := by
  have same : Reading.lastToken? id = Reading.tokenIds id >>= fun ids => ids.toList.getLast?.mapM Reading.token := by
    refine congrArg _ (funext fun ids => ?_)
    rw [Array.getLast?_toList]
    cases ids.back? <;> rfl
  rw [same]
  exact (tokenIds id).bind_map fun ids => optionMapM token ids.getLast?

theorem text (id : NodeId) : Agrees (Reading.text id) (Uncached.text id) := (tokens id).bind fun _ => pure _

/-- What is done with the mark of a node. -/
theorem mark (id : NodeId) (g : Option Mark → α) : Agrees (do return g (← Reading.node id).mark?)
    (do return g (← Uncached.look Node.mark? id)) :=
  (look (fun _ => rfl) id).bind_map fun _ => pure _

theorem problem? (id : NodeId) : Agrees (Reading.problem? id) (Uncached.problem? id) :=
  mark id (Option.map Mark.problem)

theorem kind (id : NodeId) : Agrees (Reading.kind id) (Uncached.kind id) := look (fun _ => rfl) id

theorem leafToken? (id : NodeId) : Agrees (Reading.leafToken? id) (Uncached.leafToken? id) := by
  have same : Reading.leafToken? id = Reading.node id >>= fun n => n.token?.mapM Reading.token := by
    refine congrArg _ (funext fun n => ?_)
    cases n.token? <;> rfl
  rw [same]
  exact (look (fun _ => rfl) id).bind_map fun ref => optionMapM token ref

theorem start (id : NodeId) : Agrees (Reading.start id) (Uncached.start id) :=
  (firstToken? id).bind fun
    | some token => pure token.start
    | none => mark id fun mark => (mark.map Mark.position).getD .nowhere

theorem stop (id : NodeId) : Agrees (Reading.stop id) (Uncached.stop id) :=
  (lastToken? id).bind fun
    | some token => pure token.stop
    | none => mark id fun mark => (mark.map Mark.position).getD .nowhere

theorem range (id : NodeId) : Agrees (Reading.range id) (Uncached.range id) := by
  have empty := mark id fun mark => ByteRange.empty ((mark.map Mark.offset).getD 0)
  refine (firstToken? id).bind fun first => (lastToken? id).bind fun last => ?_
  cases first with
  | none => exact empty
  | some first =>
    cases last with
    | none => exact empty
    | some last => exact pure _

/-! ### Readers of nodes -/

/-- A list of nodes of a tree that does not depend on what is kept. -/
theorem nodes (id : NodeId) {g : SyntaxTree → List NodeId} {r : Reading (List NodeId)}
    (blind : ∀ {t t'}, t.Alike t' → g t' = g t)
    (some : ∀ {t n}, t.nodes[id]? = some n → r t = .ok (g t, t))
    (none : ∀ {t}, t.nodes[id]? = none → r t = .error (.outOfBounds t.size id)) :
    Agrees r (do Uncached.look (fun _ => ()) id; return g (← read)) where
  blind {t t'} same := by
    change (Uncached.look (fun _ => ()) id t' >>= fun _ => Except.ok (g t')) =
      (Uncached.look (fun _ => ()) id t >>= fun _ => Except.ok (g t))
    rw [(look (g := fun _ => ()) (fun _ => rfl) id).blind same, blind same]
  reads {t F} _ := by
    change (r t >>= fun (a, _) => Pure.pure a) = (Uncached.look (fun _ => ()) id t >>= fun _ => Except.ok (g t))
    rw [Uncached.look]
    cases found : t.nodes[id]? with
    | none =>
      rw [none found]
      rfl
    | some n =>
      rw [some found]
      rfl

theorem descendantsOfKind (kind : TreeKind) (id : NodeId) :
    Agrees (Reading.descendantsOfKind kind id) (Uncached.descendantsOfKind kind id) :=
  nodes id (g := fun t => (t.descendants id).filter fun i => t.kind? i = some kind)
    (fun same => by simp only [same.descendants_eq, same.kind?_eq]) (fun found => descendantsOfKind_run found kind)
    fun gone => descendantsOfKind_gone gone kind

theorem errors (id : NodeId) : Agrees (Reading.errors id) (Uncached.errors id) :=
  nodes id (g := fun t => (id :: t.descendants id).filter fun i => t.kind? i = some .error)
    (fun same => by simp only [same.descendants_eq, same.kind?_eq]) errors_run fun {t} gone => by
      change (Reading.descendantsOfKind .error id t >>= _) = _
      rw [descendantsOfKind_gone gone]
      rfl

theorem hasErrors (id : NodeId) : Agrees (Reading.hasErrors id) (Uncached.hasErrors id) :=
  (errors id).bind fun _ => pure _

end Agrees

end SyntaxTree

end SmithyIdl
