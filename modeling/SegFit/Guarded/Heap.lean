/-
  The heap operations with all of their arithmetic guarded.  They do what the operations of the
  heap do, but every sum has to be an offset, every difference has to exist, and every size and
  link that goes into a word has to read back from it; otherwise they end in a fault.

  An access to the store guards itself: it succeeds only if it ends inside the store.  What
  only reads is not repeated; its sums are guarded by a function that goes before it.
-/
import SegFit.Heap.Resize
import SegFit.Heap.Release
import SegFit.Heap.Live

namespace SegFit

/-- Accepts `n` as a link: the word that stores it reads back as `n`. -/
def link (n : Nat) : Except Fault Nat :=
  if (UInt32.ofNat n).toNat = n then .ok n else .error .overflow

namespace Memory

/-- Writes the header and the footer of `block`, if the size reads back from them. -/
def guardedSetTags (m : Memory) (block size : Nat) (status : Status) : Except Fault Memory := do
  let w ← Tag.encode ⟨size, status⟩
  if ((Tag.decode w).map Tag.size).getD 0 = size then m.setTags block size status
  else .error .badTag

/-- Puts the free block `block` of `size` bytes at the front of its bucket's list. -/
def guardedPushFree (m : Memory) (block size : Nat) : Except Fault Memory := do
  let head := prologNode (Bucket.ofSize size)
  let first ← m.succ head
  let m ← m.setPred block (← link head)
  let m ← m.setSucc block (← link first)
  let m ← m.setSucc head (← link block)
  m.setPred first (← link block)

/-- Takes `block` off the list that its links name. -/
def guardedUnlink (m : Memory) (block : Nat) : Except Fault Memory := do
  let pred ← m.pred block
  let succ ← m.succ block
  let m ← m.setSucc pred (← link succ)
  m.setPred succ (← link pred)

/-- Allocates `size` bytes at the front of the region of `total` bytes at `block`. -/
def guardedCarve (m : Memory) (block total size : Nat) : Except Fault (Nat × Memory) := do
  let rest ← difference total size
  if minBlock ≤ rest then
    let m ← m.guardedSetTags block size .allocated
    let tail ← offset (block + size)
    let m ← m.guardedSetTags tail rest .free
    let m ← m.guardedPushFree tail rest
    return (size, m)
  else
    let m ← m.guardedSetTags block total .allocated
    return (total, m)

/-- Takes the free neighbours of the region of `size` bytes at `block` off their lists and
gives the union of the regions. -/
def guardedMerge (m : Memory) (block size : Nat) (prev next : Option Tag) :
    Except Fault ((Nat × Nat × Merge) × Memory) := do
  match prev, next with
  | some prev, some next =>
    let start ← difference block prev.size
    let m ← m.guardedUnlink start
    let m ← m.guardedUnlink (← offset (block + size))
    let around ← offset (prev.size + next.size)
    return ((start, ← offset (size + around), .both), m)
  | none, some next =>
    let m ← m.guardedUnlink (← offset (block + size))
    return ((block, ← offset (size + next.size), .next), m)
  | some prev, none =>
    let start ← difference block prev.size
    let m ← m.guardedUnlink start
    return ((start, ← offset (size + prev.size), .prev), m)
  | none, none => return ((block, size, .none), m)

/-- Frees the block at `block`. -/
def guardedRelease (m : Memory) (block : Nat) : Except Fault (Release × Memory) := do
  let freed ← m.blockSize block
  let m ← m.guardedSetTags block freed .free
  let prev ← m.tagBefore block
  let next ← m.tagOf (← offset (block + freed))
  let ((start, size, merge), m) ← m.guardedMerge block freed (freeTag prev) (freeTag next)
  let m ← m.guardedSetTags start size .free
  let m ← m.guardedPushFree start size
  return (⟨freed, start, size, merge⟩, m)

/-- The room for the block of `size` bytes at `block`. -/
def guardedRoom (m : Memory) (block size : Nat) : Except Fault Room := do
  let after ← offset (block + size)
  match ← m.tagOf after with
  | none => return ⟨none, size, true⟩
  | some next =>
    if next.isFree then
      let total ← offset (size + next.size)
      let stop ← m.tagOf (← offset (after + next.size))
      return ⟨some after, total, stop.isNone⟩
    else return ⟨none, size, false⟩

end Memory

namespace Heap

/-! ## Guards of what only reads -/

/-- Accepts the sums that give the epilog nodes. -/
def guardSentinels (h : Heap) : Except Fault Unit := do
  let _ ← offset (h.epilog + epilogBytes)

/-- Accepts the sums of the validation of `ptr`, and the tag that is compared with the footer. -/
def guardLive (h : Heap) (ptr : Nat) : Except Fault Unit := do
  if ptr < firstBlock ∨ h.epilog ≤ ptr ∨ ptr % alignment ≠ 0 then return ()
  else match ← h.mem.tagOf ptr with
  | none => return ()
  | some tag =>
    let _ ← offset ((← header ptr) + tag.size)
    let _ ← tag.encode

/-- Accepts the sums of the walk over the blocks from `block` on, and the tags that are compared
with footers. -/
def guardWalk (h : Heap) (block : Nat) : Except Fault Unit := do
  let _ ← header block
  if h.epilog < block - wordSize then return ()
  else match ← h.mem.tagOf block with
  | none => return ()
  | some tag =>
    let _ ← offset (block - wordSize + tag.size)
    if tag.size < minBlock ∨ h.epilog < block - wordSize + tag.size then return ()
    else
      let _ ← tag.encode
      let _ ← offset (block + tag.size)
      h.guardWalk (block + tag.size)
termination_by h.epilog + wordSize - block
decreasing_by simp only [minBlock, wordSize] at *; omega

/-- Accepts the sums of the check. -/
def guardCheck (h : Heap) : Except Fault Unit := do
  h.guardSentinels
  h.guardWalk firstBlock

/-! ## Operations -/

/-- Takes the block given, if there is one, off its list. -/
def guardedRemoveAny (h : Heap) : Option Nat → Except Fault Heap
  | none => .ok h
  | some block => return { h with mem := ← h.mem.guardedUnlink block }

/-- Makes `last` the last block on the list of bucket `b`. -/
def guardedLinkLast (h : Heap) (b last : Nat) : Except Fault Heap := do
  let node := h.epilogNode b
  let m ← h.mem.setPred node (← link last)
  let m ← m.setSucc node (← link 0)
  let m ← m.setSucc last (← link node)
  return { h with mem := m }

/-- Moves the epilog header and nodes up by `shift` bytes. -/
def guardedMoveEpilog (h : Heap) (shift : Nat) : Except Fault Heap := do
  h.guardSentinels
  let lasts ← (List.range Bucket.count).mapM fun b => h.mem.pred (h.epilogNode b)
  let epilog ← offset (h.epilog + shift)
  let m ← h.mem.writeWord epilog 0
  let h : Heap := ⟨m, epilog⟩
  h.guardSentinels
  lasts.zipIdx.foldlM (fun h (last, b) => h.guardedLinkLast b last) h

/-- Makes the region at `block`, which ends at the epilog header, an allocated block of
exactly `size` bytes by growing the heap. -/
def guardedStretch (h : Heap) (limit block size : Nat) (absorbed : Option Nat) :
    Except Fault (Except Exhausted Nat × Heap) := do
  let span ← difference (← offset (h.epilog + wordSize)) block
  let growth ← difference size span
  match h.growthRefusal limit growth with
  | some cause => return (.error cause, h)
  | none =>
    let h ← (h.extend growth).guardedRemoveAny absorbed
    let h ← h.guardedMoveEpilog growth
    let m ← h.mem.guardedSetTags block size .allocated
    return (.ok growth, { h with mem := m })

/-- Where a block grown at the end begins, and whether that is the free last block. -/
def guardedGrowthPoint (h : Heap) : Except Fault (Nat × Bool) := do
  match ← h.mem.tagAt (← difference h.epilog wordSize) with
  | some last =>
    if last.isFree then
      return (← difference (← offset (h.epilog + wordSize)) last.size, true)
    else return (← offset (h.epilog + wordSize), false)
  | none => return (← offset (h.epilog + wordSize), false)

/-- Allocates a block of `size` bytes. -/
def guardedAcquire (h : Heap) (limit size : Nat) :
    Except Fault (Except Exhausted Grant × Heap) := do
  h.guardSentinels
  match ← h.firstFit size with
  | some block =>
    let found ← h.mem.blockSize block
    let m ← h.mem.guardedUnlink block
    let (placed, m) ← m.guardedCarve block found size
    return (.ok (.reused block found placed), { h with mem := m })
  | none =>
    let (block, isLast) ← h.guardedGrowthPoint
    let (result, h) ← h.guardedStretch limit block size (if isLast then some block else none)
    return (result.map (.grown block · isLast), h)

/-- Frees the block at `block`. -/
def guardedRelease (h : Heap) (block : Nat) : Except Fault (Release × Heap) := do
  let (done, m) ← h.mem.guardedRelease block
  return (done, { h with mem := m })

/-- Gives the block at `block` a size of at least `size` bytes, if that is possible where it
is. -/
def guardedResize (h : Heap) (limit block size : Nat) :
    Except Fault (Except Exhausted Resized × Heap) := do
  let old ← h.mem.blockSize block
  let room ← h.mem.guardedRoom block old
  if size ≤ room.total then
    let h ← h.guardedRemoveAny room.absorbed
    let (placed, m) ← h.mem.guardedCarve block room.total size
    return (.ok (.inPlace old placed), { h with mem := m })
  else if room.isLast then
    let (result, h) ← h.guardedStretch limit block size room.absorbed
    let absorbed ← difference room.total old
    return (result.map (.grown old absorbed ·), h)
  else return (.ok (.mustMove old), h)

end Heap

end SegFit
