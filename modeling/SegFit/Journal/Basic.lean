/-
  The journal: records at or above a level, numbered from 1 in the order they were made and
  kept until they are drained.
-/
import SegFit.Journal.Record

namespace SegFit

/-- Records in the order they were made, and the number of the next one. -/
structure Journal where
  minLevel : Level
  nextId : Nat
  records : Array Record

namespace Journal

/-- The journal without records. -/
def empty (minLevel : Level) : Journal :=
  ⟨minLevel, 1, #[]⟩

/-- Whether entries of `level` are recorded. -/
def enabled (j : Journal) (level : Level) : Bool :=
  j.minLevel ≤ level

/-- Records `e` if its level is enabled. -/
def record (j : Journal) (e : Entry) (s : Snapshot) : Journal :=
  if j.enabled e.level then
    { j with nextId := (j.nextId + 1) % UInt64.size, records := j.records.push ⟨j.nextId, e, s⟩ }
  else j

/-- Takes the records out; the numbers go on. -/
def drain (j : Journal) : List Record × Journal :=
  (j.records.toList, { j with records := #[] })

/-- The records as JSON lines. -/
def jsonLines (j : Journal) : String :=
  Record.lines j.records.toList

end Journal

end SegFit
