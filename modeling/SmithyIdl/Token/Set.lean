import SmithyIdl.Token.Kind

/-!
# Sets of token kinds

A set holds one bit for each kind, so two sets with the same members are equal
(`TokenSet.ext_contains`).
-/

namespace SmithyIdl

/-- A set of token kinds; bit `i` belongs to the kind with index `i`. -/
structure TokenSet where
  bits : BitVec 24
deriving DecidableEq

namespace TokenSet

def empty : TokenSet := ⟨0#24⟩

/-- The set of one kind. -/
def single (k : TokenKind) : TokenSet := ⟨1#24 <<< k.index⟩

def union (s t : TokenSet) : TokenSet := ⟨s.bits ||| t.bits⟩

instance : Union TokenSet := ⟨union⟩

def ofList (ks : List TokenKind) : TokenSet := ks.foldr (fun k s => single k ∪ s) empty

def contains (s : TokenSet) (k : TokenKind) : Bool := s.bits.getLsbD k.index

/-- The members, in the order of the kinds. -/
def toList (s : TokenSet) : List TokenKind := TokenKind.all.filter s.contains

def size (s : TokenSet) : Nat := s.toList.length

def isEmpty (s : TokenSet) : Bool := s.bits == 0#24

@[simp] theorem contains_empty (k : TokenKind) : empty.contains k = false := by
  simp [contains, empty]

@[simp] theorem contains_union (s t : TokenSet) (k : TokenKind) :
    (s ∪ t).contains k = (s.contains k || t.contains k) := by
  simp [contains, Union.union, union]

@[simp] theorem contains_single (k l : TokenKind) : (single k).contains l = decide (k = l) := by
  cases k <;> cases l <;> rfl

@[simp] theorem contains_ofList (ks : List TokenKind) (k : TokenKind) :
    (ofList ks).contains k = decide (k ∈ ks) := by
  induction ks with
  | nil => simp [ofList]
  | cons l ks ih =>
    have step : ofList (l :: ks) = single l ∪ ofList ks := rfl
    simp [step, ih, eq_comm]

@[simp] theorem mem_toList {s : TokenSet} {k : TokenKind} : k ∈ s.toList ↔ s.contains k = true := by
  simp [toList, TokenKind.mem_all]

/-- Sets with the same members are equal. -/
theorem ext_contains {s t : TokenSet} (h : ∀ k, s.contains k = t.contains k) : s = t := by
  obtain ⟨s⟩ := s
  obtain ⟨t⟩ := t
  congr 1
  apply BitVec.eq_of_getLsbD_eq
  intro i hi
  have kind : ∃ k : TokenKind, k.index = i := by
    refine ⟨TokenKind.all.get ⟨i, by simpa [TokenKind.all] using hi⟩, ?_⟩
    revert i
    decide
  obtain ⟨k, rfl⟩ := kind
  exact h k

/-- Spaces, line breaks, commas and comments. -/
def whitespace : TokenSet := ofList [.space, .newline, .comma, .comment]

/-- Whitespace and documentation comments. -/
def trivia : TokenSet := whitespace ∪ single .docComment

/-- The written form: the names of the members between braces. -/
def describe (s : TokenSet) : String :=
  "\x7b" ++ ", ".intercalate (s.toList.map TokenKind.name) ++ "\x7d"

end TokenSet

end SmithyIdl
