/-
  A reader of journals: the records that JSON lines spell.  A record is looked up member by
  member in the object of its line, in whatever order the members stand.
-/
import SegFit.Journal.Record
import SegFit.Text.JsonReader

namespace SegFit

namespace Json.Value

/-- A natural number. -/
def nat? : Value → Option Nat
  | .number q => if (q.num.toNat : Rat) = q then some q.num.toNat else none
  | _ => none

/-- A natural number that may be missing. -/
def optionalNat? : Value → Option (Option Nat)
  | .null => some none
  | v => some <$> v.nat?

/-- A string. -/
def text? : Value → Option String
  | .text s => some s
  | _ => none

/-- What `read` makes of the first member with this name. -/
def member? {α : Type} (read : Value → Option α) (name : String) : Value → Option α
  | .object members => members.lookup name >>= read
  | _ => none

end Json.Value

/-- The level with this name. -/
def Level.ofName? (s : String) : Option Level :=
  [trace, debug, info, warn, error].find? (·.name = s)

namespace Record

open Json.Value in
/-- The record that a value describes, if the identity it gives is that of the record. -/
def ofValue? (v : Json.Value) : Option Record := do
  let id ← v.member? nat? "decision_id"
  let traceId ← v.member? text? "trace_id"
  let level ← v.member? text? "level"
  let level ← Level.ofName? level
  let symbol ← v.member? text? "symbol"
  let event ← v.member? text? "event"
  let ptr ← v.member? optionalNat? "ptr"
  let size ← v.member? optionalNat? "size"
  let bucket ← v.member? optionalNat? "bucket"
  let outcome ← v.member? text? "outcome"
  let details ← v.member? text? "details"
  let heapSize ← v.member? nat? "heap_size"
  let liveBlocks ← v.member? nat? "live_blocks"
  let liveBytes ← v.member? nat? "live_bytes"
  let entry := { level, symbol, event, ptr, size, bucket, outcome, details }
  let record : Record := ⟨id, entry, ⟨heapSize, liveBlocks, liveBytes⟩⟩
  if traceId = record.traceId then some record else none

/-- The records that lines spell, each line ended by a newline. -/
def ofLines? (text : String) : Option (List Record) :=
  (text.toList.splitOn '\n').dropLast.mapM fun line => Json.read line >>= ofValue?

end Record

end SegFit
