/-
  The arena: a store with a limit.  It grows only at its end, by zero bytes, and either by
  all that is asked for or not at all.
-/
import SegFit.Memory.Basic

namespace SegFit

/-- Why a store did not grow. -/
structure Exhausted where
  requested : Nat
  size : Nat
  limit : Nat
  deriving DecidableEq, Repr

/-- The wording of a refusal. -/
def Exhausted.message (e : Exhausted) : String :=
  s!"arena exhausted: cannot grow {e.size} bytes by {e.requested} (limit {e.limit})"

/-- The default limit of a store, 20 MiB. -/
abbrev defaultLimit : Nat := 20 * 1024 * 1024

/-- No store is larger, whatever its limit: an address has 47 bits. -/
abbrev addressSpace : Nat := 0x800000000000

/-- The refusal to grow a store of `size` bytes by `n` under `limit`, if it is refused.  Within the
limit it never is; a system that is short of memory is one with a lower limit. -/
def growthRefusal (size limit n : Nat) : Option Exhausted :=
  if size + n ≤ min limit addressSpace then none else some ⟨n, size, limit⟩

/-- A store that refuses to grow past its limit. -/
structure Arena where
  mem : Memory
  limit : Nat

namespace Arena

/-- The arena without bytes. -/
def empty (limit : Nat) : Arena :=
  ⟨.empty, limit⟩

/-- The number of bytes. -/
def size (a : Arena) : Nat :=
  a.mem.size

/-- Grows by `n` zero bytes and gives the offset where they begin. -/
def grow (a : Arena) (n : Nat) : Except Exhausted Nat × Arena :=
  match growthRefusal a.size a.limit n with
  | some e => (.error e, a)
  | none => (.ok a.size, { a with mem := a.mem.extend n })

end Arena

end SegFit
