/-
  Blocks in the store.  A block is named by the offset of its payload.  Its header is the
  word before the payload, its footer the last word of the block, and both hold its tag:

      block - 4     block                            block + size - 8
      | header | payload; while free: pred, succ, … | footer | next header

  A free block holds in its first two payload words the links of the list it is on.  Links
  are words, so a link keeps the low 32 bits of an offset.
-/
import SegFit.Block.Tag
import SegFit.Memory.Basic

namespace SegFit

/-- Where the header of `block` is. -/
def header (block : Nat) : Except Fault Nat :=
  difference block wordSize

/-- Where the footer of `block` is, which has `size` bytes. -/
def footer (block size : Nat) : Except Fault Nat := do
  difference (← offset (block + size)) overhead

namespace Memory

/-! ## Tags -/

/-- The tag in the word at `i`, `none` for the zero word. -/
def tagAt (m : Memory) (i : Nat) : Except Fault (Option Tag) :=
  Tag.decode <$> m.readWord i

/-- The tag in the header of `block`. -/
def tagOf (m : Memory) (block : Nat) : Except Fault (Option Tag) := do
  m.tagAt (← header block)

/-- The tag in the footer that ends where `block` begins. -/
def tagBefore (m : Memory) (block : Nat) : Except Fault (Option Tag) := do
  m.tagAt (← difference block overhead)

/-- The size in the header of `block`, zero if the header is the zero word. -/
def blockSize (m : Memory) (block : Nat) : Except Fault Nat := do
  return ((← m.tagOf block).map Tag.size).getD 0

/-- The block that follows `block`. -/
def next (m : Memory) (block : Nat) : Except Fault Nat := do
  offset (block + (← m.blockSize block))

/-- The block before `block`, `none` at the start of the heap. -/
def prev (m : Memory) (block : Nat) : Except Fault (Option Nat) := do
  match ← m.tagBefore block with
  | none => return none
  | some tag => return some (← difference block tag.size)

/-- Writes the header and the footer of `block`. -/
def setTags (m : Memory) (block size : Nat) (status : Status) : Except Fault Memory := do
  let w ← Tag.encode ⟨size, status⟩
  let m ← m.writeWord (← header block) w
  m.writeWord (← footer block size) w

/-! ## Links -/

/-- The link to the node before `node`. -/
def pred (m : Memory) (node : Nat) : Except Fault Nat :=
  UInt32.toNat <$> m.readWord node

/-- The link to the node after `node`. -/
def succ (m : Memory) (node : Nat) : Except Fault Nat :=
  UInt32.toNat <$> m.readWord (node + wordSize)

/-- Sets the link to the node before `node`. -/
def setPred (m : Memory) (node link : Nat) : Except Fault Memory :=
  m.writeWord node (.ofNat link)

/-- Sets the link to the node after `node`. -/
def setSucc (m : Memory) (node link : Nat) : Except Fault Memory :=
  m.writeWord (node + wordSize) (.ofNat link)

end Memory

end SegFit
