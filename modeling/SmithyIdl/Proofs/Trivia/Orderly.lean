import SmithyIdl.Proofs.Trivia.Trail

/-! # Trees with orderly trivia

Where spaces, comments and documentation comments stand in a tree without errors: what documents a statement or a
member is its first child, line breaks stand between statements, and no documentation comment stands before the sign of
an inline structure. -/

namespace SmithyIdl

/-- Whether no statements, members or operations can stand below a node. Of these nothing is said. -/
@[reducible]
def TreeKind.isLower : TreeKind → Bool
  | idl | shapeSection | shapeStatements | shapeOrApplyStatement | shapeStatement | shapeBody | enumStatement
  | enumMembers | enumMember | listStatement | listMembers | listMember | mapStatement | mapMembers
  | structureStatement | structureMembers | structureMember | unionStatement | unionMembers | unionMember | shapeMember
  | operationStatement | operationBody | operationInput | operationOutput | inlineStructure => false
  | _ => true

/-- Whether nothing is said of the children of a node. -/
@[reducible]
def TreeKind.isPlain : TreeKind → Bool
  | shapeStatements | shapeStatement | enumMember | shapeMember | operationInput | operationOutput => false
  | _ => true

namespace Schema

/-- A statement with the end of its line. -/
def line : Rows := sequence [one .shapeOrApplyStatement, blanks, one .lineBreak]

/-- A statement that ends with the text. -/
def lastLine : Rows := sequence [one .shapeOrApplyStatement, blanks]

/-- Statements with the ends of their lines. The last line may end with the text. -/
def lines : Rows := line.star * optional lastLine

end Schema

/-- The node of the tokens from `k` up to `i`, if there are any. -/
def Forest.IsDocs (D : Forest) (k i : TokenId) : Prop :=
  D = .nil ∧ k = i ∨
    ∃ d inner, D = .branch d (.plain .whitespace) inner .nil ∧ k < i ∧ inner.tokens = List.range' k (i - k)

/-- The children of a node begin with the documentation comments of a trail, and go on with the token behind it. -/
structure Documented (ts : Array Token) (F : Forest) (j k i : TokenId) : Prop where
  trail : Trail ts j k i
  first : (kindAt ts i).isTrivia = false
  starts : ∃ D rest, F = D ++ rest ∧ D.IsDocs k i ∧ rest.tokens.head? = some i

/-- Behind the name `c` of a property comes a colon, or the sign of an inline structure without documentation comments
    before it. -/
def Signed (ts : Array Token) (F : Forest) : Prop :=
  ∃ c s, F.tokens.head? = some c ∧ c < s ∧ (∀ m, c < m → m < s → (kindAt ts m).isTrivia = true) ∧
    (kindAt ts s = .colon ∧ .token .colon ∈ F.row ts ∨
      kindAt ts s = .walrus ∧ (∀ m, c < m → m < s → kindAt ts m ≠ .docComment) ∧
        ∃ front id inner, F = front ++ .branch id (.plain .inlineStructure) inner .nil ∧ inner.tokens.head? = some s)

/-- What is said of a node with these children. -/
def OrderlyNode (ts : Array Token) : TreeKind → Forest → Prop
  | .shapeStatements, F => F.row ts ∈ Schema.lines.matches'
  | .shapeStatement, F => ∃ j k i, Documented ts F j k i ∧ kindAt ts j ≠ .lbrace ∧ (k < i → IsLate ts j k)
  | .enumMember, F | .shapeMember, F => ∃ j k i, Documented ts F j k i
  | .operationInput, F | .operationOutput, F => Signed ts F
  | _, _ => True

theorem OrderlyNode.of_plain {ts : Array Token} {kind : TreeKind} {F : Forest} (h : kind.isPlain = true) :
    OrderlyNode ts kind F := by
  cases kind <;> trivial

namespace Forest

/-- All nodes that are not below lower ones are orderly. -/
def Orderly (ts : Array Token) : Forest → Prop
  | nil => True
  | leaf _ _ rest => rest.Orderly ts
  | branch _ label inner rest =>
    (label.kind.isLower = false → OrderlyNode ts label.kind inner ∧ inner.Orderly ts) ∧ rest.Orderly ts

variable {ts : Array Token} {F G : Forest} {id : NodeId} {label : Label}

@[simp] theorem orderly_nil : nil.Orderly ts := trivial

@[simp] theorem orderly_leaf {token : TokenId} : (leaf id token F).Orderly ts ↔ F.Orderly ts := .rfl

@[simp] theorem orderly_branch : (branch id label F G).Orderly ts ↔
    (label.kind.isLower = false → OrderlyNode ts label.kind F ∧ F.Orderly ts) ∧ G.Orderly ts := .rfl

@[simp] theorem orderly_append : (F ++ G).Orderly ts ↔ F.Orderly ts ∧ G.Orderly ts := by
  induction F with
  | nil => simp
  | leaf id token rest ih => simpa using ih
  | branch id label inner rest _ ih => simp [ih, and_assoc]

/-- Below the others nothing is asked. -/
theorem orderly_lower (h : label.kind.isLower = true) : (branch id label F nil).Orderly ts :=
  ⟨fun upper => absurd (h.symm.trans upper) Bool.noConfusion, trivial⟩

theorem IsDocs.orderly {D : Forest} {k i : TokenId} (h : D.IsDocs k i) : D.Orderly ts := by
  obtain ⟨rfl, -⟩ | ⟨d, inner, rfl, -⟩ := h
  · trivial
  · exact orderly_lower rfl

end Forest

end SmithyIdl
