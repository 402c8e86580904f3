/-
  What is written about single blocks.
-/
import SegFit.Heap.Walk
import SegFit.Text.Hex

namespace SegFit

/-- What is known of the block at an offset; one without a tag is a sentinel. -/
structure BlockDescription where
  offset : Nat
  size : Nat
  status : Option Status
  /-- The links to the nodes before and after it, of a free block. -/
  links : Option (Nat × Nat)
  deriving DecidableEq, Repr

/-- The block in one line. -/
def BlockDescription.text (d : BlockDescription) : String :=
  let status := match d.status with
    | some .free => "free"
    | some .allocated => "allocated"
    | none => "sentinel"
  let links := match d.links with
    | some (pred, succ) => s!" pred={hex pred} succ={hex succ}"
    | none => ""
  s!"{hex d.offset} ({d.size} bytes, {status}){links}"

namespace Memory

/-- What the header and the links of `block` say. -/
def describe (m : Memory) (block : Nat) : Except Fault BlockDescription := do
  match ← m.tagOf block with
  | none => return ⟨block, 0, none, none⟩
  | some tag =>
    if block + 2 * wordSize ≤ m.size then
      return ⟨block, tag.size, some tag.status, ← m.freeLinks block tag.status⟩
    else return ⟨block, tag.size, some tag.status, none⟩

end Memory

end SegFit
