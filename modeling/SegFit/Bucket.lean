/-
  Size classes.  Bucket `b` holds the free blocks whose size lies in
  `[2 ^ (4 + b), 2 ^ (5 + b))`; the last bucket has no upper end.  The classes grow
  geometrically, so their number is fixed and each spans a factor of two.
-/

namespace SegFit.Bucket

/-- The number of size classes. -/
abbrev count : Nat := 13

/-- The bucket of a block of `size` bytes; sizes below 16 go to the first bucket. -/
def ofSize (size : Nat) : Nat :=
  min (size.log2 - 4) (count - 1)

/-- The least block size that belongs to bucket `b`, zero when there is no such bucket. -/
def floor (b : Nat) : Nat :=
  if b < count then 1 <<< (4 + b) else 0

theorem ofSize_lt (size : Nat) : ofSize size < count :=
  Nat.lt_of_le_of_lt (Nat.min_le_right ..) (by decide)

end SegFit.Bucket
