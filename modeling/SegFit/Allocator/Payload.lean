/-
  What clients do with the bytes of their allocations.  Access to a payload always validates
  the pointer; positions count from the start of the payload.
-/
import SegFit.Allocator.Basic

namespace SegFit.Allocator

/-- The number of bytes that a client may use at `ptr`.  Without validation a tag is taken
at its word. -/
def usable (a : Allocator) (ptr : Nat) : Except Fault (Except Refusal Nat) := do
  match ← a.validate ptr with
  | .error e => return .error e
  | .ok () => return .ok (← difference (← a.heap.mem.blockSize ptr) overhead)

/-- The number of payload bytes of the allocation at `ptr`. -/
def payloadSize (a : Allocator) (ptr : Nat) : Except Fault (Except Refusal Nat) := do
  match ← a.heap.liveSize ptr with
  | .error e => return .error e
  | .ok size => return .ok (← difference size overhead)

/-- Accepts the `n` bytes from `i` on as part of a payload of `usable` bytes, all to its end
if no number is given, and gives their number. -/
def payloadSpan (usable i : Nat) (n : Option Nat) : Except Fault Nat :=
  if i + n.getD (usable - i) ≤ usable then .ok (n.getD (usable - i)) else .error .outOfBounds

/-- Reads `n` bytes from position `i` on. -/
def readPayload (a : Allocator) (ptr i : Nat) (n : Option Nat) :
    Except Fault (Except Refusal ByteArray) := do
  match ← a.payloadSize ptr with
  | .error e => return .error e
  | .ok usable => return .ok (← a.heap.mem.read (ptr + i) (← payloadSpan usable i n))

/-- Writes `f 0`, `f 1`, … from position `i` on, `n` bytes. -/
def fillPayload (a : Allocator) (ptr i : Nat) (n : Option Nat) (f : Nat → UInt8) :
    Except Fault (Reply Unit) := do
  match ← a.payloadSize ptr with
  | .error e => return (.error e, a)
  | .ok usable =>
    let mem ← a.heap.mem.fill (ptr + i) (← payloadSpan usable i n) f
    return (.ok (), { a with heap := { a.heap with mem } })

/-- Writes `part` from position `i` on. -/
def writePayload (a : Allocator) (ptr i : Nat) (part : ByteArray) :
    Except Fault (Reply Unit) := do
  match ← a.payloadSize ptr with
  | .error e => return (.error e, a)
  | .ok usable =>
    let _ ← payloadSpan usable i (some part.size)
    let mem ← a.heap.mem.write (ptr + i) part
    return (.ok (), { a with heap := { a.heap with mem } })

end SegFit.Allocator
