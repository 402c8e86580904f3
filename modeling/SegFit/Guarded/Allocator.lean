/-
  The requests of clients with all of their arithmetic guarded.  As on the heap, sums have to
  be offsets and differences have to exist; here this includes the counters, which elsewhere
  stop at zero without a sign.
-/
import SegFit.Allocator.Run
import SegFit.Guarded.Heap

namespace SegFit.Allocator

/-! ## Counters -/

/-- Counts a new block of `size` bytes. -/
def guardedCount (a : Allocator) (size : Nat) : Except Fault Allocator := do
  let blocks ← offset (a.liveBlocks + 1)
  let bytes ← offset (a.liveBytes + size)
  return { a with liveBlocks := blocks, liveBytes := bytes }

/-- Counts a block of `size` bytes less. -/
def guardedDiscount (a : Allocator) (size : Nat) : Except Fault Allocator := do
  let blocks ← difference a.liveBlocks 1
  let bytes ← difference a.liveBytes size
  return { a with liveBlocks := blocks, liveBytes := bytes }

/-- Counts `new` bytes for a block of `old` bytes. -/
def guardedRecount (a : Allocator) (old new : Nat) : Except Fault Allocator := do
  let bytes ← difference (← offset (a.liveBytes + new)) old
  return { a with liveBytes := bytes }

/-! ## Guards of what only reads -/

/-- Accepts the sums of the validation of `ptr`, if the settings ask for it. -/
def guardAccept (a : Allocator) (ptr : Nat) : Except Fault Unit := do
  if a.settings.safety.validates then a.heap.guardLive ptr else return ()

/-- Accepts the sums of an access to the payload at `ptr`. -/
def guardPayload (a : Allocator) (ptr : Nat) : Except Fault Unit := do
  a.heap.guardLive ptr
  match ← a.payloadSize ptr with
  | .error _ => return ()
  | .ok usable => let _ ← offset (ptr + usable)

/-- Accepts the sums of the verification after an operation, if the settings ask for it. -/
def guardVerify (a : Allocator) : Except Fault Unit := do
  if a.settings.verifyAlways then a.heap.guardCheck else return ()

/-! ## Steps -/

/-- Allocates a block of `size` bytes. -/
def guardedAcquire (a : Allocator) (symbol : String) (size : Nat) : Except Fault (Reply Nat) := do
  let (result, heap) ← a.heap.guardedAcquire a.limit size
  let a := { a with heap }
  match result with
  | .error cause => return (.error (.outOfMemory cause), a.note (.outOfMemory symbol cause))
  | .ok grant =>
    let a ← (a.noteGrowth symbol grant).guardedCount (grant.placed size)
    return (.ok grant.block, a.note (.allocated symbol size grant))

/-- Serves a request of `n` bytes. -/
def guardedServe (a : Allocator) (symbol : String) (n : Nat) :
    Except Fault (Reply (Option Nat)) := do
  if n = 0 then return (.ok none, a.note (.zeroSize symbol))
  else match a.sizeFor symbol n with
  | (.error e, a) => return (.error e, a)
  | (.ok size, a) =>
    let (result, a) ← a.guardedAcquire symbol size
    return (result.map some, a)

/-- Frees the block at `ptr`. -/
def guardedFree (a : Allocator) (symbol : String) (ptr : Nat) : Except Fault (Reply Unit) := do
  a.guardAccept ptr
  match ← a.accept symbol ptr with
  | (.error e, a) => return (.error e, a)
  | (.ok (), a) =>
    let (done, heap) ← a.heap.guardedRelease ptr
    let a ← { a with heap }.guardedDiscount done.freed
    return (.ok (), a.note (.freed symbol ptr done))

/-- Moves the block at `ptr`, of `old` bytes, to a new block that serves `n` bytes in a
block of `size` bytes. -/
def guardedMove (a : Allocator) (ptr n size old : Nat) : Except Fault (Reply (Option Nat)) := do
  match ← a.guardedServe "realloc" n with
  | (.error e, a) => return (.error e, a)
  | (.ok none, a) => return (.ok none, a)
  | (.ok (some target), a) =>
    let copied ← difference (min size old) overhead
    let mem ← a.heap.mem.copy ptr target copied
    let a := { a with heap := { a.heap with mem } }
    match ← a.guardedFree "realloc" ptr with
    | (.error e, a) => return (.error e, a)
    | (.ok (), a) => return (.ok (some target), a.note (.moved ptr target size old copied))

/-- Gives the block at `ptr` room for `n > 0` bytes, where it is or elsewhere. -/
def guardedFit (a : Allocator) (ptr n : Nat) : Except Fault (Reply (Option Nat)) := do
  a.guardAccept ptr
  match ← a.accept "realloc" ptr with
  | (.error e, a) => return (.error e, a)
  | (.ok (), a) =>
    match a.sizeFor "realloc" n with
    | (.error e, a) => return (.error e, a)
    | (.ok size, a) =>
      let (result, heap) ← a.heap.guardedResize a.limit ptr size
      let a := { a with heap }
      match result with
      | .error cause =>
        return (.error (.outOfMemory cause), a.note (.outOfMemory "realloc" cause))
      | .ok (.inPlace old new) =>
        let a ← a.guardedRecount old new
        return (.ok (some ptr), a.note (.resizedInPlace ptr size old new))
      | .ok (.grown old absorbed growth) =>
        let a ← (a.note (.grew "realloc" growth a.heap.size)).guardedRecount old size
        return (.ok (some ptr), a.note (.resizedByGrowth ptr size old absorbed))
      | .ok (.mustMove old) => a.guardedMove ptr n size old

/-- Changes the size of the allocation at `ptr`. -/
def guardedChange (a : Allocator) (ptr : Option Nat) (n : Nat) :
    Except Fault (Reply (Option Nat)) := do
  match ptr with
  | none =>
    match ← a.guardedServe "realloc" n with
    | (.error e, a) => return (.error e, a)
    | (.ok block, a) => return (.ok block, a.note (.resizedNothing block n))
  | some ptr =>
    if n = 0 then
      match ← a.guardedFree "realloc" ptr with
      | (.error e, a) => return (.error e, a)
      | (.ok (), a) => return (.ok none, a.note (.resizedToNothing ptr))
    else a.guardedFit ptr n

/-- Serves a request of `n` bytes with zero bytes in them. -/
def guardedServeZeroed (a : Allocator) (n : Nat) : Except Fault (Reply (Option Nat)) := do
  match ← a.guardedServe "calloc" n with
  | (.ok (some ptr), a) => return (.ok (some ptr), ← a.clear ptr)
  | reply => return reply

/-! ## Requests -/

/-- Verifies the heap after an operation if the settings ask for it. -/
def guardedSettle {α : Type} (x : Except Fault (Reply α)) : Except Stop (Reply α) := do
  let (_, a) ← lift x
  lift a.guardVerify
  settle x

/-- Carries out a request. -/
def guardedPerform (a : Allocator) (r : Request) : Except Stop (Reply (Option Nat)) :=
  match r with
  | .allocate n => guardedSettle (a.guardedServe "malloc" n)
  | .allocateZeroed count size =>
    if count * size < offsetBound then guardedSettle (a.guardedServeZeroed (count * size))
    else a.perform r
  | .release ptr =>
    return (← guardedSettle (a.guardedFree "free" ptr)).map (·.map fun _ => none) id
  | .resize ptr n => guardedSettle (a.guardedChange ptr n)
  | .write ptr .. | .read ptr .. => do
    lift (a.guardPayload ptr)
    a.perform r

end SegFit.Allocator
