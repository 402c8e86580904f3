/-
  Boundary tags.  A tag says how large a block is and whether it is in use; it is stored in
  one word, the status in the low bit.  The zero word is no tag: it marks both ends of the
  heap.
-/
import SegFit.Block.Size

namespace SegFit

/-- Whether a block is handed out or waits on a free list. -/
inductive Status where
  | free
  | allocated
  deriving DecidableEq, Repr

/-- What a header or footer says of its block. -/
structure Tag where
  size : Nat
  status : Status
  deriving DecidableEq, Repr

/-- The value of the status bit. -/
def Status.bit : Status → Nat
  | .free => 0
  | .allocated => 1

namespace Tag

/-- Whether the block is free. -/
def isFree (t : Tag) : Bool :=
  t.status = .free

/-- A word can hold the tag. -/
def Encodable (t : Tag) : Prop :=
  t.size % alignment = 0 ∧ t.size ≤ maxBlock

instance (t : Tag) : Decidable t.Encodable :=
  inferInstanceAs (Decidable (_ ∧ _))

/-- The word of a tag that can be encoded. -/
def word (t : Tag) : UInt32 :=
  UInt32.ofNat (t.size + t.status.bit)

/-- The word of a tag; any other tag is a fault. -/
def encode (t : Tag) : Except Fault UInt32 :=
  if t.Encodable then .ok t.word else .error .badTag

/-- The tag in a word, `none` for the zero word. -/
def decode (w : UInt32) : Option Tag :=
  if w = 0 then none
  else some
    { size := w.toNat / alignment * alignment
      status := if w.toNat % 2 = 1 then .allocated else .free }

end Tag

end SegFit
