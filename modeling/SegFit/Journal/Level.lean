/-
  How much a journal record matters.
-/
import SegFit.Text.Blank

namespace SegFit

/-- The levels of journal records, least first. -/
inductive Level where
  | trace
  | debug
  | info
  | warn
  | error
  deriving DecidableEq, Repr

namespace Level

/-- The place of a level in the order. -/
def rank : Level → Nat
  | .trace => 0
  | .debug => 1
  | .info => 2
  | .warn => 3
  | .error => 4

instance : LE Level :=
  ⟨fun a b => a.rank ≤ b.rank⟩

instance (a b : Level) : Decidable (a ≤ b) :=
  inferInstanceAs (Decidable (a.rank ≤ b.rank))

/-- The name of a level. -/
def name : Level → String
  | .trace => "trace"
  | .debug => "debug"
  | .info => "info"
  | .warn => "warn"
  | .error => "error"

/-- The level that a setting names, in any case and with white space around it; `info` if it
names none. -/
def ofSetting (s : String) : Level :=
  match settingText s with
  | "trace" | "all" => .trace
  | "debug" => .debug
  | "warn" | "warning" => .warn
  | "error" | "off" => .error
  | _ => .info

end Level

end SegFit
