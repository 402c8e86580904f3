/-
  Settings.  Each comes from a variable of its own and is read without regard to the case of
  letters; all but the safety level may have white space around them.  A setting that says
  nothing known leaves the default.
-/
import SegFit.Arena
import SegFit.Journal.Level

namespace SegFit

/-- Whether pointers that clients pass in are validated. -/
inductive Safety where
  /-- They are trusted. -/
  | strict
  /-- They are checked against the tags of their block before use. -/
  | hardened
  deriving DecidableEq, Repr

namespace Safety

/-- Whether pointers are validated before use. -/
def validates : Safety → Bool
  | .strict => false
  | .hardened => true

/-- The name of a safety level. -/
def name : Safety → String
  | .strict => "strict"
  | .hardened => "hardened"

/-- The safety level that a setting names, in any case; `strict` if it names none. -/
def ofSetting (s : String) : Safety :=
  match foldCase s.toList with
  | "hardened" | "repair" | "checked" | "full" => .hardened
  | _ => .strict

end Safety

/-- Whether a setting switches something on. -/
def flagOfSetting (s : String) : Bool :=
  match settingText s with
  | "1" | "true" | "on" | "yes" => true
  | _ => false

/-- The number that decimal digits write, if there is one and it is an offset. -/
def natOfDigits (cs : List Char) : Option Nat :=
  if cs ≠ [] ∧ cs.all Char.isDigit then
    let n := cs.foldl (fun n c => 10 * n + (c.toNat - '0'.toNat)) 0
    if n < offsetBound then some n else none
  else none

/-- The number that a setting writes, with white space around it and a plus sign allowed. -/
def natOfSetting (s : String) : Option Nat :=
  match trimBlanks s.toList with
  | '+' :: digits => natOfDigits digits
  | digits => natOfDigits digits

/-- The settings of an allocator. -/
structure Settings where
  safety : Safety := .strict
  /-- The limit of the arena in bytes. -/
  heapLimit : Nat := defaultLimit
  /-- Whether the heap is checked after every operation. -/
  verifyAlways : Bool := false
  /-- Records below this level are not kept. -/
  minLevel : Level := .info
  deriving DecidableEq, Repr

namespace Settings

/-- The settings that variables give. -/
def ofVariables (lookup : String → Option String) : Settings :=
  let default : Settings := {}
  { safety := ((lookup "SEGALLOC_MODE").map Safety.ofSetting).getD default.safety
    heapLimit := ((lookup "SEGALLOC_HEAP_LIMIT").bind natOfSetting).getD default.heapLimit
    verifyAlways := ((lookup "SEGALLOC_VERIFY").map flagOfSetting).getD default.verifyAlways
    minLevel := ((lookup "SEGALLOC_LOG").map Level.ofSetting).getD default.minLevel }

end Settings

end SegFit
