/-
  The free lists.  Each bucket's blocks form a doubly linked list from its prolog node to
  its epilog node.  A freed block goes to the front, a search takes the first block that is
  large enough, and when the heap grows the epilog nodes move with its end.

  Memory may hold any links, so a walk is bounded: a list without a cycle has fewer nodes
  than the store has bytes.
-/
import SegFit.Heap.Basic

namespace SegFit

namespace Memory

/-- Puts the free block `block` of `size` bytes at the front of its bucket's list. -/
def pushFree (m : Memory) (block size : Nat) : Except Fault Memory := do
  let head := prologNode (Bucket.ofSize size)
  let first ← m.succ head
  let m ← m.setPred block head
  let m ← m.setSucc block first
  let m ← m.setSucc head block
  m.setPred first block

/-- Takes `block` off the list that its links name. -/
def unlink (m : Memory) (block : Nat) : Except Fault Memory := do
  let pred ← m.pred block
  let succ ← m.succ block
  let m ← m.setSucc pred succ
  m.setPred succ pred

/-- The first `n` nodes from `node` on, up to `tail`. -/
def follow (m : Memory) (tail : Nat) : Nat → Nat → Except Fault (List Nat)
  | 0, _ => .ok []
  | n + 1, node =>
    if node = tail then .ok []
    else do
      let succ ← m.succ node
      return node :: (← m.follow tail n succ)

/-- The first block of at least `size` bytes from `node` on, of at most `n` nodes. -/
def search (m : Memory) (tail size : Nat) : Nat → Nat → Except Fault (Option Nat)
  | 0, _ => .error .endless
  | n + 1, node =>
    if node = tail then .ok none
    else do
      let succ ← m.succ node
      let found ← m.blockSize node
      if size ≤ found then return some node else m.search tail size n succ

end Memory

namespace Heap

/-- Puts the free block `block` of `size` bytes at the front of its bucket's list. -/
def insert (h : Heap) (block size : Nat) : Except Fault Heap := do
  return { h with mem := ← h.mem.pushFree block size }

/-- Takes `block` off the list that its links name. -/
def remove (h : Heap) (block : Nat) : Except Fault Heap := do
  return { h with mem := ← h.mem.unlink block }

/-- Takes the block given, if there is one, off its list. -/
def removeAny (h : Heap) : Option Nat → Except Fault Heap
  | none => .ok h
  | some block => h.remove block

/-- The first `n` blocks on the list of bucket `b`. -/
def firstNodes (h : Heap) (b n : Nat) : Except Fault (List Nat) := do
  h.mem.follow (h.epilogNode b) n (← h.mem.succ (prologNode b))

/-- The blocks on the list of bucket `b`, front to back. -/
def nodes (h : Heap) (b : Nat) : Except Fault (List Nat) := do
  let found ← h.firstNodes b (h.size + 1)
  if found.length ≤ h.size then return found else .error .endless

/-- The first block of at least `size` bytes on the list of bucket `b`. -/
def searchBucket (h : Heap) (size b : Nat) : Except Fault (Option Nat) := do
  h.mem.search (h.epilogNode b) size (h.size + 1) (← h.mem.succ (prologNode b))

/-- The first block of at least `size` bytes on the lists of the buckets given. -/
def searchBuckets (h : Heap) (size : Nat) : List Nat → Except Fault (Option Nat)
  | [] => .ok none
  | b :: rest => do
    match ← h.searchBucket size b with
    | some block => return some block
    | none => h.searchBuckets size rest

/-- The block that first fit chooses for `size` bytes: buckets in order from the one that
`size` belongs to, each from its front. -/
def firstFit (h : Heap) (size : Nat) : Except Fault (Option Nat) :=
  h.searchBuckets size ((List.range Bucket.count).drop (Bucket.ofSize size))

/-- Makes `last` the last block on the list of bucket `b`. -/
def linkLast (h : Heap) (b last : Nat) : Except Fault Heap := do
  let node := h.epilogNode b
  let m ← h.mem.setPred node last
  let m ← m.setSucc node 0
  let m ← m.setSucc last node
  return { h with mem := m }

/-- Moves the epilog header and nodes up by `shift` bytes.  The old links are all read
before the first write, since the old and the new nodes may overlap. -/
def moveEpilog (h : Heap) (shift : Nat) : Except Fault Heap := do
  let lasts ← (List.range Bucket.count).mapM fun b => h.mem.pred (h.epilogNode b)
  let epilog ← offset (h.epilog + shift)
  let m ← h.mem.writeWord epilog 0
  lasts.zipIdx.foldlM (fun h (last, b) => h.linkLast b last) ⟨m, epilog⟩

end Heap

end SegFit
