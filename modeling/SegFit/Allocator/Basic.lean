/-
  The allocator: a heap in an arena, its settings, its journal, and counts of what is
  allocated.
-/
import SegFit.Allocator.Entries
import SegFit.Heap.Live
import SegFit.Settings

namespace SegFit

/-- An allocator as it is between two operations. -/
structure Allocator where
  heap : Heap
  /-- The limit of the arena that the heap lies in. -/
  limit : Nat
  settings : Settings
  journal : Journal
  liveBlocks : Nat
  /-- The bytes of all allocated blocks, tags included. -/
  liveBytes : Nat

/-- An answer or a refusal, and the allocator afterwards. -/
abbrev Reply (α : Type) : Type :=
  Except Refusal α × Allocator

namespace Allocator

/-- The counters as they are now. -/
def snapshot (a : Allocator) : Snapshot :=
  ⟨a.heap.size, a.liveBlocks, a.liveBytes⟩

/-- Writes `e` into the journal. -/
def note (a : Allocator) (e : Entry) : Allocator :=
  { a with journal := a.journal.record e a.snapshot }

/-- Counts a new block of `size` bytes. -/
def countBlock (a : Allocator) (size : Nat) : Allocator :=
  { a with liveBlocks := a.liveBlocks + 1, liveBytes := a.liveBytes + size }

/-- Counts a block of `size` bytes less; no count goes below zero. -/
def discountBlock (a : Allocator) (size : Nat) : Allocator :=
  { a with liveBlocks := a.liveBlocks - 1, liveBytes := a.liveBytes - size }

/-- Counts `new` bytes for a block of `old` bytes. -/
def recountBlock (a : Allocator) (old new : Nat) : Allocator :=
  { a with liveBytes := a.liveBytes + new - old }

/-- Validates `ptr` if the settings ask for it. -/
def validate (a : Allocator) (ptr : Nat) : Except Fault (Except Refusal Unit) := do
  if a.settings.safety.validates then return (← a.heap.liveSize ptr).map fun _ => ()
  else return .ok ()

/-- An allocator over an empty arena. -/
def ofArena (arena : Arena) (settings : Settings) : Except Fault (Except Refusal Allocator) := do
  if arena.size ≠ 0 then return .error (.arenaInUse arena.size)
  else match arena.grow emptySize with
  | (.error cause, _) => return .error (.outOfMemory cause)
  | (.ok _, arena) =>
    let heap ← Heap.layOut arena.mem
    let a : Allocator := ⟨heap, arena.limit, settings, .empty settings.minLevel, 0, 0⟩
    return .ok (a.note .started)

/-- An allocator over an arena of its own. -/
def ofSettings (settings : Settings) : Except Fault (Except Refusal Allocator) :=
  ofArena (.empty settings.heapLimit) settings

/-- An allocator with the default settings. -/
def start : Except Fault (Except Refusal Allocator) :=
  ofSettings {}

end Allocator

end SegFit
