/-
  Checking the heap of an allocator.  A violation is written into the journal; verification
  stops the run at the first one.
-/
import SegFit.Allocator.Basic
import SegFit.Heap.Verdict
import SegFit.Heap.Dump

namespace SegFit

/-- Why a run ends early. -/
inductive Stop where
  | fault (cause : Fault)
  /-- The heap failed verification; `dump` shows it. -/
  | broken (violation : Violation) (dump : String)
  deriving DecidableEq, Repr

/-- What is printed when a run ends at a violation. -/
def Stop.brokenMessage (violation : Violation) (dump : String) : String :=
  s!"segalloc: heap invariant violated: {violation.message}\n{dump}\n"

/-- A step that can only end in a fault, as part of a run. -/
def lift {α : Type} (x : Except Fault α) : Except Stop α :=
  x.mapError .fault

namespace Allocator

/-- Checks the heap. -/
def check (a : Allocator) : Except Fault (Except Violation Unit × Allocator) := do
  match ← a.heap.check with
  | .ok () => return (.ok (), a)
  | .error v => return (.error v, a.note (.violated v))

/-- Ends the run if the heap fails its check. -/
def verify (a : Allocator) : Except Stop Allocator := do
  match ← lift a.check with
  | (.ok (), a) => return a
  | (.error v, a) => throw (.broken v (← lift a.heap.dump))

end Allocator

end SegFit
