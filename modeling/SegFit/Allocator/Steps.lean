/-
  The steps that operations are made of: serving a request, freeing a block, changing a
  size.  Each names the operation it works for in the journal, and a refused step changes
  nothing but the journal.
-/
import SegFit.Allocator.Basic
import SegFit.Heap.Resize

namespace SegFit.Allocator

/-- The block size for a request of `n` bytes. -/
def sizeFor (a : Allocator) (symbol : String) (n : Nat) : Reply Nat :=
  match blockSizeFor n with
  | some size => (.ok size, a)
  | none => (.error (.requestTooLarge n), a.note (.requestTooLarge symbol n))

/-- Notes that the heap grew for a grant, if it did. -/
def noteGrowth (a : Allocator) (symbol : String) : Grant → Allocator
  | .reused .. => a
  | .grown _ growth _ => a.note (.grew symbol growth a.heap.size)

/-- Allocates a block of `size` bytes. -/
def acquire (a : Allocator) (symbol : String) (size : Nat) : Except Fault (Reply Nat) := do
  let (result, heap) ← a.heap.acquire a.limit size
  let a := { a with heap }
  match result with
  | .error cause => return (.error (.outOfMemory cause), a.note (.outOfMemory symbol cause))
  | .ok grant =>
    let a := (a.noteGrowth symbol grant).countBlock (grant.placed size)
    return (.ok grant.block, a.note (.allocated symbol size grant))

/-- Serves a request of `n` bytes; a request of none gets no block. -/
def serve (a : Allocator) (symbol : String) (n : Nat) : Except Fault (Reply (Option Nat)) := do
  if n = 0 then return (.ok none, a.note (.zeroSize symbol))
  else match a.sizeFor symbol n with
  | (.error e, a) => return (.error e, a)
  | (.ok size, a) =>
    let (result, a) ← a.acquire symbol size
    return (result.map some, a)

/-- Validates `ptr`, and notes a pointer that fails. -/
def accept (a : Allocator) (symbol : String) (ptr : Nat) : Except Fault (Reply Unit) := do
  match ← a.validate ptr with
  | .ok () => return (.ok (), a)
  | .error e => return (.error e, a.note (.denied symbol ptr e))

/-- Frees the block at `ptr`. -/
def free (a : Allocator) (symbol : String) (ptr : Nat) : Except Fault (Reply Unit) := do
  match ← a.accept symbol ptr with
  | (.error e, a) => return (.error e, a)
  | (.ok (), a) =>
    let (done, heap) ← a.heap.release ptr
    let a := { a with heap }.discountBlock done.freed
    return (.ok (), a.note (.freed symbol ptr done))

/-- Moves the block at `ptr`, of `old` bytes, to a new block that serves `n` bytes in a
block of `size` bytes. -/
def move (a : Allocator) (ptr n size old : Nat) : Except Fault (Reply (Option Nat)) := do
  match ← a.serve "realloc" n with
  | (.error e, a) => return (.error e, a)
  | (.ok none, a) => return (.ok none, a)
  | (.ok (some target), a) =>
    let copied ← difference (min size old) overhead
    let mem ← a.heap.mem.copy ptr target copied
    let a := { a with heap := { a.heap with mem } }
    match ← a.free "realloc" ptr with
    | (.error e, a) => return (.error e, a)
    | (.ok (), a) => return (.ok (some target), a.note (.moved ptr target size old copied))

/-- Gives the block at `ptr` room for `n > 0` bytes, where it is or elsewhere. -/
def fit (a : Allocator) (ptr n : Nat) : Except Fault (Reply (Option Nat)) := do
  match ← a.accept "realloc" ptr with
  | (.error e, a) => return (.error e, a)
  | (.ok (), a) =>
    match a.sizeFor "realloc" n with
    | (.error e, a) => return (.error e, a)
    | (.ok size, a) =>
      let (result, heap) ← a.heap.resize a.limit ptr size
      let a := { a with heap }
      match result with
      | .error cause =>
        return (.error (.outOfMemory cause), a.note (.outOfMemory "realloc" cause))
      | .ok (.inPlace old new) =>
        return (.ok (some ptr), (a.recountBlock old new).note (.resizedInPlace ptr size old new))
      | .ok (.grown old absorbed growth) =>
        let a := (a.note (.grew "realloc" growth a.heap.size)).recountBlock old size
        return (.ok (some ptr), a.note (.resizedByGrowth ptr size old absorbed))
      | .ok (.mustMove old) => a.move ptr n size old

/-- Changes the size of the allocation at `ptr`: without one this allocates, and to zero
bytes it frees. -/
def change (a : Allocator) (ptr : Option Nat) (n : Nat) : Except Fault (Reply (Option Nat)) := do
  match ptr with
  | none =>
    match ← a.serve "realloc" n with
    | (.error e, a) => return (.error e, a)
    | (.ok block, a) => return (.ok block, a.note (.resizedNothing block n))
  | some ptr =>
    if n = 0 then
      match ← a.free "realloc" ptr with
      | (.error e, a) => return (.error e, a)
      | (.ok (), a) => return (.ok none, a.note (.resizedToNothing ptr))
    else a.fit ptr n

end SegFit.Allocator
