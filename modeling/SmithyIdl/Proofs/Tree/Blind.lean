import SmithyIdl.Proofs.Tree.Edited
import SmithyIdl.Proofs.Tree.Lookup
import SmithyIdl.Proofs.Tree.Session

/-! # What is kept cannot be seen

Standing trees that differ only in the tokens kept at their nodes give the same answers to all questions. Edits refuse
the same in both and leave trees that again differ in nothing else, so no session tells them apart. -/

namespace SmithyIdl.SyntaxTree

theorem Agrees.tokenIdsArray (id : NodeId) : Agrees (Reading.tokenIds id) (List.toArray <$> Uncached.tokenIds id) := by
  have same : Reading.tokenIds id = List.toArray <$> Array.toList <$> Reading.tokenIds id := by
    rw [← comp_map]
    exact (id_map _).symm
  rw [same]
  exact (tokenIds id).map List.toArray

/-- A reader gives what one gives that has nowhere to keep anything. -/
class Blind {α : Type} (r : Reading α) : Prop where
  agrees : ∃ x, Agrees r x

namespace Blind

variable {α β : Type} {r : Reading α} {f : α → Reading β} {t t' : SyntaxTree} {F F' : Forest}

theorem reads [Blind r] (stands : t.Stands F) (stands' : t'.Stands F') (same : t.Alike t') : r.run' t' = r.run' t := by
  obtain ⟨x, h⟩ := agrees (r := r)
  rw [h.reads stands', h.blind same, h.reads stands]

/-! ### Readers in turn -/

instance pure (a : α) : Blind (Pure.pure a : Reading α) := ⟨_, .pure a⟩

instance bind [Still r] [Blind r] [∀ a, Blind (f a)] : Blind (r >>= f) := by
  obtain ⟨x, h⟩ := agrees (r := r)
  choose y h' using fun a => agrees (r := f a)
  exact ⟨_, h.bind h'⟩

/-- For a reader that goes on by cases on what it has read. -/
theorem bind_of [Still r] (h : Blind r) (h' : ∀ a, Blind (f a)) : Blind (r >>= f) := inferInstance

instance map {g : α → β} [Still r] [Blind r] : Blind (g <$> r) := inferInstanceAs (Blind (r >>= fun a => Pure.pure (g a)))

instance mapM {g : α → Reading β} [∀ a, Still (g a)] [∀ a, Blind (g a)] (l : List α) : Blind (l.mapM g) := by
  choose z h using fun a => agrees (r := g a)
  exact ⟨_, .mapM h l⟩

instance option {g : α → Reading β} [∀ a, Still (g a)] [∀ a, Blind (g a)] (o : Option α) : Blind (o.mapM g) := by
  choose z h using fun a => agrees (r := g a)
  exact ⟨_, .optionMapM h o⟩

/-- For a reader that goes on with less than it has read. -/
theorem bind_map [Still r] {γ : Type} {g : α → γ} {f : γ → Reading β} (h : Blind (g <$> r)) (h' : ∀ c, Blind (f c)) :
    Blind (r >>= fun a => f (g a)) := by
  obtain ⟨x, h⟩ := h.agrees
  choose y h' using fun c => (h' c).agrees
  exact ⟨_, h.bind_map h'⟩

/-- Of a node all but what it keeps may be used. -/
theorem bind_node {id : NodeId} {f : Node → Reading β} (blind : ∀ n, f (n.withCache none) = f n) (h : ∀ n, Blind (f n)) :
    Blind (Reading.node id >>= f) := by
  have node : Blind (Node.withCache none <$> Reading.node id) := ⟨_, .look (fun _ => rfl) id⟩
  have same : f = fun n => f (n.withCache none) := funext fun n => (blind n).symm
  rw [same]
  exact bind_map node h

/-- Of the tree all but what is kept may be used. -/
theorem get_map {g : SyntaxTree → α} (blind : ∀ {t t'}, t.Alike t' → g t' = g t) :
    Blind (g <$> (MonadState.get : Reading SyntaxTree)) :=
  ⟨fun t => .ok (g t), fun same => congrArg _ (blind same), fun _ => rfl⟩

/-! ### What is read of one node -/

variable (id : NodeId)

instance tokenIds : Blind (Reading.tokenIds id) := ⟨_, .tokenIdsArray id⟩

instance tokens : Blind (Reading.tokens id) := ⟨_, .tokens id⟩

instance tokenCount : Blind (Reading.tokenCount id) := inferInstanceAs (Blind (Array.size <$> Reading.tokenIds id))

instance kind : Blind (Reading.kind id) := ⟨_, .kind id⟩

instance leafToken? : Blind (Reading.leafToken? id) := ⟨_, .leafToken? id⟩

instance problem? : Blind (Reading.problem? id) := ⟨_, .problem? id⟩

instance text : Blind (Reading.text id) := ⟨_, .text id⟩

instance start : Blind (Reading.start id) := ⟨_, .start id⟩

instance stop : Blind (Reading.stop id) := ⟨_, .stop id⟩

instance range : Blind (Reading.range id) := ⟨_, .range id⟩

instance brief : Blind (Reading.brief id) := bind_of inferInstance inferInstance

/-! ### Relatives -/

instance parent? : Blind (Reading.parent? id) := ⟨_, .look (fun _ => rfl) id⟩

instance children : Blind (Reading.children id) := ⟨_, .children id⟩

instance ancestors : Blind (Reading.ancestors id) :=
  bind_node (fun _ => rfl) fun _ => get_map fun same => same.ancestors_eq id

instance ofKind (kind : TreeKind) (ids : List NodeId) : Blind (Reading.ofKind kind ids) :=
  get_map fun same => by simp only [same.kind?_eq]

instance childrenOfKind (kind : TreeKind) : Blind (Reading.childrenOfKind kind id) :=
  bind_of inferInstance inferInstance

instance descendantsOfKind (kind : TreeKind) : Blind (Reading.descendantsOfKind kind id) := ⟨_, .descendantsOfKind kind id⟩

instance errors : Blind (Reading.errors id) := ⟨_, .errors id⟩

instance hasErrors : Blind (Reading.hasErrors id) := ⟨_, .hasErrors id⟩

instance findAt (line column : Nat) : Blind (Reading.findAt line column id) := ⟨_, .findAt line column id⟩

/-! ### Questions -/

instance briefs (ids : List NodeId) : Blind (Reading.briefs ids) := mapM ids

set_option synthInstance.maxSize 256 in
instance info : Blind (Reading.info id) :=
  bind_of inferInstance fun _ => bind_node (fun _ => rfl) fun _ => inferInstance

instance errorInfo : Blind (Reading.errorInfo id) := bind_of inferInstance inferInstance

instance heading : Blind (Reading.heading id) := bind_of inferInstance inferInstance

variable {id} in
instance dumpLines (n depth : Nat) : Blind (Reading.dumpLines n depth id) := by
  induction n generalizing depth id with
  | zero => exact pure []
  | succ n ih =>
    refine bind_of inferInstance fun token => ?_
    cases token with
    | some token => exact pure _
    | none => exact bind_of inferInstance fun _ => bind_of inferInstance fun children => by cases children <;> infer_instance

instance dump : Blind (Reading.dump id) :=
  bind_map (f := fun n => do return String.join ((← Reading.dumpLines n 0 id).map (· ++ "\n")))
    (get_map fun same => same.size_eq) inferInstance

instance ask (q : Query) : Blind (Reading.ask id q) := by
  cases q <;> unfold Reading.ask <;> infer_instance

end Blind

/-! ### Edits -/

theorem exists_of_bind {ε α β : Type} {x : Except ε α} {g : α → Except ε β} {b : β} (h : x >>= g = .ok b) :
    ∃ a, x = .ok a ∧ g a = .ok b := by
  cases x with
  | error why => cases h
  | ok a => exact ⟨a, rfl, h⟩

namespace Alike

variable {t t' u u' : SyntaxTree} {p c : NodeId} (same : t.Alike t')
include same

theorem modify {g : Node → Node} (blind : ∀ n, (g n).withCache none = g (n.withCache none)) (i : NodeId) :
    (t.modify i g).Alike (t'.modify i g) := by
  refine ⟨same.tokens, fun j => ?_⟩
  have step : Node.withCache none ∘ g = g ∘ Node.withCache none := funext blind
  rw [modify_getElem?, modify_getElem?]
  split
  · rw [Option.map_map, Option.map_map, step, ← Option.map_map, same.nodes j, Option.map_map]
  · exact same.nodes j

theorem add (content : NodeContent) : (t.add content).2.Alike (t'.add content).2 := by
  refine ⟨same.tokens, fun i => ?_⟩
  rcases Nat.lt_trichotomy i t.size with old | rfl | out
  · rw [add_getElem?_of_lt content old, add_getElem?_of_lt content (same.size_eq ▸ old)]
    exact same.nodes i
  · rw [add_getElem?_size, ← same.size_eq, add_getElem?_size]
  · rw [Array.getElem?_eq_none, Array.getElem?_eq_none]
    · exact Nat.le_trans (Nat.le_of_eq (size_add content)) out
    · exact Nat.le_trans (Nat.le_of_eq ((size_add content).trans (congrArg (· + 1) same.size_eq))) out

theorem link (p c : NodeId) : (t.link p c).Alike (t'.link p c) := by
  have moved := (same.modify (g := Node.withParent (some p)) (fun _ => rfl) c).modify (g := Node.mapChildren (·.push c))
    (fun n => by obtain ⟨_ | _, _, _⟩ := n <;> rfl) p
  exact (forget p).symm.trans (moved.trans (forget p))

theorem unlink (p c : NodeId) : (t.unlink p c).Alike (t'.unlink p c) := by
  have moved := (same.modify (g := Node.mapChildren (·.erase c)) (fun n => by obtain ⟨_ | _, _, _⟩ := n <;> rfl) p).modify
    (g := Node.withParent none) (fun _ => rfl) c
  exact (forget p).symm.trans (moved.trans (forget p))

theorem refusal?_eq : t'.refusal? p c = t.refusal? p c := by
  rw [refusal?, refusal?, same.map_eq fun _ => rfl, same.map_eq fun _ => rfl, same.size_eq, same.ancestors_eq]

theorem append (run : t.append p c = .ok u) (run' : t'.append p c = .ok u') : u.Alike u' := by
  obtain ⟨-, -, -, rfl⟩ := append_eq_ok.mp run
  obtain ⟨-, -, -, rfl⟩ := append_eq_ok.mp run'
  exact same.link p c

theorem appendLeaves {tokens : List TokenId}
    (run : tokens.foldlM (fun t token => SyntaxTree.appendLeaf t p token) t = .ok u)
    (run' : tokens.foldlM (fun t token => SyntaxTree.appendLeaf t p token) t' = .ok u') : u.Alike u' := by
  induction tokens generalizing t t' with
  | nil =>
    cases run
    cases run'
    exact same
  | cons token tokens ih =>
    rw [List.foldlM_cons] at run run'
    obtain ⟨v, first, rest⟩ := exists_of_bind run
    obtain ⟨v', first', rest'⟩ := exists_of_bind run'
    change (t'.add (.leaf token)).2.append p t'.size = .ok v' at first'
    rw [same.size_eq] at first'
    exact ih ((same.add (.leaf token)).append first first') rest rest'

/-- A new node has the same name in both trees. -/
theorem newLeaves {kind : TreeKind} {tokens : List TokenId}
    (run : tokens.foldlM (fun v token => SyntaxTree.appendLeaf v t.size token) (t.addNode kind).2 = .ok u)
    (run' : tokens.foldlM (fun v token => SyntaxTree.appendLeaf v t'.size token) (t'.addNode kind).2 = .ok u') :
    u.Alike u' := by
  rw [same.size_eq] at run'
  exact (same.add _).appendLeaves run run'

end Alike

/-- Both are the same answer or the same fault, and behind the answer the trees differ only in what they keep. -/
inductive Twins {α : Type} : Except Fault (α × SyntaxTree) → Except Fault (α × SyntaxTree) → Prop where
  | refused (why : Fault) : Twins (.error why) (.error why)
  | given {t t' : SyntaxTree} (a : α) (same : t.Alike t') : Twins (.ok (a, t)) (.ok (a, t'))

namespace Twins

variable {α β : Type} {t t' : SyntaxTree} {F F' : Forest} {p c : NodeId}

theorem map {x x' : Except Fault (α × SyntaxTree)} (h : Twins x x') (g : α → β) :
    Twins (x.map fun (a, t) => (g a, t)) (x'.map fun (a, t) => (g a, t)) := by
  cases h with
  | refused why => exact .refused why
  | given a same => exact .given (g a) same

theorem made (same : t.Alike t') (content : NodeContent) :
    Twins (.ok (TreeReply.made (t.add content).1, (t.add content).2))
      (.ok (TreeReply.made (t'.add content).1, (t'.add content).2)) := by
  rw [show (t'.add content).1 = (t.add content).1 from same.size_eq]
  exact .given _ (same.add content)

theorem append (same : t.Alike t') (a : α) : Twins ((t.append p c).map (a, ·)) ((t'.append p c).map (a, ·)) := by
  rw [SyntaxTree.append, SyntaxTree.append, same.refusal?_eq]
  cases t.refusal? p c with
  | some why => exact .refused why
  | none => exact .given a (same.link p c)

theorem remove (same : t.Alike t') : Twins (t.remove p c) (t'.remove p c) := by
  rw [SyntaxTree.remove, SyntaxTree.remove, same.map_eq fun _ => rfl, same.size_eq]
  cases t.nodes[p]?.map (·.children.contains c) with
  | none => exact .refused _
  | some among =>
    cases among with
    | false => exact .given false same
    | true => exact .given true (same.unlink p c)

/-- Readers give the same, and do not change more than what is kept. -/
theorem read {r : Reading α} [Still r] [Blind r] (stands : t.Stands F) (stands' : t'.Stands F') (same : t.Alike t') :
    Twins (r t) (r t') := by
  have reads := Blind.reads (r := r) stands stands' same
  change (r t' >>= fun (a, _) => Pure.pure a) = (r t >>= fun (a, _) => Pure.pure a) at reads
  cases run : r t with
  | error why =>
    cases run' : r t' with
    | error why' =>
      rw [run, run'] at reads
      cases reads
      exact .refused why
    | ok => 
      rw [run, run'] at reads
      cases reads
  | ok given =>
    cases run' : r t' with
    | error why' =>
      rw [run, run'] at reads
      cases reads
    | ok given' =>
      rw [run, run'] at reads
      obtain ⟨a, u⟩ := given
      obtain ⟨a', u'⟩ := given'
      cases reads
      exact .given a ((Still.keeps run).symm.trans (same.trans (Still.keeps run')))

/-- No request tells the trees apart. -/
theorem request (stands : t.Stands F) (stands' : t'.Stands F') (same : t.Alike t') (r : TreeRequest) :
    Twins (r.outcome t) (r.outcome t') := by
  cases r with
  | leaf token => exact made same _
  | node kind => exact made same _
  | error mark => exact made same _
  | nodeWithTokens kind tokens =>
    obtain ⟨u, filled⟩ := newLeaves_ok t kind tokens
    obtain ⟨u', filled'⟩ := newLeaves_ok t' kind tokens
    rw [TreeRequest.outcome, TreeRequest.outcome, filled, filled', same.size_eq]
    exact .given _ (same.newLeaves filled filled')
  | append parent child => exact append same TreeReply.done
  | remove parent child => exact (remove same).map TreeReply.flag
  | ask node query => exact read (r := TreeReply.answer <$> Reading.ask node query) stands stands' same
  | parentOf node => exact read (r := TreeReply.parent <$> Reading.parent? node) stands stands' same
  | same node other => exact .given _ same
  | dump => exact read (r := TreeReply.answer <$> Reading.ask root .dump) stands stands' same

end Twins

/-- No session of requests tells the trees apart. -/
theorem answers_eq {t t' : SyntaxTree} {F F' : Forest} (stands : t.Stands F) (stands' : t'.Stands F') (same : t.Alike t')
    (rs : List TreeRequest) : (TreeRequest.answers t' rs).1 = (TreeRequest.answers t rs).1 := by
  induction rs generalizing t t' F F' with
  | nil => rfl
  | cons r rs ih =>
    obtain ⟨G, next⟩ := stands.next (.request r)
    obtain ⟨G', next'⟩ := stands'.next (.request r)
    rw [TreeStep.next, TreeRequest.answer_eq] at next next'
    rw [TreeRequest.answers, TreeRequest.answers, TreeRequest.answer_eq, TreeRequest.answer_eq]
    have twins := Twins.request stands stands' same r
    generalize r.outcome t = x, r.outcome t' = x' at twins next next'
    cases twins with
    | refused why => exact congrArg (_ :: ·) (ih next next' same)
    | given reply alike => exact congrArg (reply :: ·) (ih next next' alike)

end SmithyIdl.SyntaxTree
