/-
  What stops a computation on raw offsets.  Offsets are natural numbers below `2 ^ 64`;
  arithmetic that leaves this range, an access outside the store, a tag that no word can
  hold and a list walk that never ends are faults, and a fault ends the run.
-/

namespace SegFit

/-- The causes for which an operation on the heap cannot go on. -/
inductive Fault where
  /-- An access reaches past the end of the store. -/
  | outOfBounds
  /-- A sum or product leaves the range of offsets. -/
  | overflow
  /-- A difference is negative. -/
  | underflow
  /-- A size is not one that a tag word can describe. -/
  | badTag
  /-- A chain of links never reaches its end. -/
  | endless
  deriving DecidableEq, Repr

instance decidableEqExcept {ε α : Type} [DecidableEq ε] [DecidableEq α] :
    DecidableEq (Except ε α)
  | .ok a, .ok b => decidable_of_iff (a = b) ⟨congrArg Except.ok, Except.ok.inj⟩
  | .error e, .error f => decidable_of_iff (e = f) ⟨congrArg Except.error, Except.error.inj⟩
  | .ok _, .error _ => isFalse nofun
  | .error _, .ok _ => isFalse nofun

/-- One past the largest offset. -/
abbrev offsetBound : Nat := 0x10000000000000000

/-- Accepts `n` as an offset. -/
def offset (n : Nat) : Except Fault Nat :=
  if n < offsetBound then .ok n else .error .overflow

/-- The difference of two offsets. -/
def difference (m n : Nat) : Except Fault Nat :=
  if n ≤ m then .ok (m - n) else .error .underflow

theorem offset_of_lt {n : Nat} (h : n < offsetBound) : offset n = .ok n := if_pos h

theorem difference_of_le {m n : Nat} (h : n ≤ m) : difference m n = .ok (m - n) := if_pos h

end SegFit
