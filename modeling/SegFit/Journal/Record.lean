/-
  Journal records and their JSON form.
-/
import SegFit.Journal.Level
import SegFit.Text.Json

namespace SegFit

/-- The counters of a heap. -/
structure Snapshot where
  heapSize : Nat
  liveBlocks : Nat
  liveBytes : Nat
  deriving DecidableEq, Repr

/-- What happened: the operation, the event, the offset, size and bucket it was about, how
it came out. -/
structure Entry where
  level : Level
  symbol : String
  event : String
  ptr : Option Nat := none
  size : Option Nat := none
  bucket : Option Nat := none
  outcome : String
  details : String
  deriving DecidableEq, Repr

/-- An entry with its number and the counters at the time. -/
structure Record where
  id : Nat
  entry : Entry
  snapshot : Snapshot
  deriving DecidableEq, Repr

namespace Record

/-- The identity of a record among the records of all symbols. -/
def traceId (r : Record) : String :=
  s!"segalloc::{r.entry.symbol}::" ++ String.ofList (hexDigitsFilled 16 r.id)

/-- A number that may be missing. -/
def optional : Option Nat → Json.Scalar
  | none => .null
  | some n => .nat n

/-- The members of the JSON form. -/
def members (r : Record) : Json.Object :=
  [ ("decision_id", .nat r.id),
    ("trace_id", .text r.traceId),
    ("level", .text r.entry.level.name),
    ("symbol", .text r.entry.symbol),
    ("event", .text r.entry.event),
    ("ptr", optional r.entry.ptr),
    ("size", optional r.entry.size),
    ("bucket", optional r.entry.bucket),
    ("outcome", .text r.entry.outcome),
    ("details", .text r.entry.details),
    ("heap_size", .nat r.snapshot.heapSize),
    ("live_blocks", .nat r.snapshot.liveBlocks),
    ("live_bytes", .nat r.snapshot.liveBytes) ]

/-- The line of a record. -/
def line (r : Record) : List Char :=
  Json.render r.members ++ ['\n']

/-- The lines of records. -/
def lines (rs : List Record) : String :=
  String.ofList (rs.flatMap line)

end Record

end SegFit
