/-
  What the allocator writes into its journal.
-/
import SegFit.Refusal
import SegFit.Journal.Basic
import SegFit.Heap.Acquire
import SegFit.Heap.Release
import SegFit.Heap.Violation

namespace SegFit.Entry

/-- A heap was laid out. -/
def started : Entry where
  level := .info
  symbol := "init"
  event := "init"
  size := some emptySize
  outcome := "success"
  details := s!"buckets={Bucket.count}"

/-- No bytes were asked for. -/
def zeroSize (symbol : String) : Entry where
  level := .trace
  symbol := symbol
  event := "zero_size"
  size := some 0
  outcome := "noop"
  details := "size_was_zero"

/-- More bytes were asked for than a block can have. -/
def requestTooLarge (symbol : String) (size : Nat) : Entry where
  level := .warn
  symbol := symbol
  event := "request_too_large"
  size := some size
  outcome := "denied"
  details := "adjusted_size_overflow"

/-- The bytes of an array cannot be counted. -/
def sizeOverflow (count size : Nat) : Entry where
  level := .warn
  symbol := "calloc"
  event := "calloc_overflow"
  outcome := "denied"
  details := s!"count={count} size={size}"

/-- The heap grew by `growth` bytes to `size` bytes. -/
def grew (symbol : String) (growth size : Nat) : Entry where
  level := .debug
  symbol := symbol
  event := "heap_grow"
  ptr := some (size - growth)
  size := some growth
  outcome := "success"
  details := s!"heap_size={size}"

/-- The heap did not grow. -/
def outOfMemory (symbol : String) (cause : Exhausted) : Entry where
  level := .warn
  symbol := symbol
  event := "oom"
  size := some cause.requested
  outcome := "oom"
  details := cause.message

/-- How a grant is described. -/
def path : Grant → String
  | .reused _ found placed => if placed < found then "path=split" else "path=fit_hit"
  | .grown _ _ true => "path=grow_extend_last"
  | .grown _ _ false => "path=grow_fresh"

/-- A block was granted for a block size of `size` bytes. -/
def allocated (symbol : String) (size : Nat) (grant : Grant) : Entry where
  level := .trace
  symbol := symbol
  event := "alloc"
  ptr := some grant.block
  size := some size
  bucket := match grant with
    | .reused _ found _ => some (Bucket.ofSize found)
    | .grown .. => none
  outcome := "success"
  details := path grant

/-- How a merge is described. -/
def mergeLabel : Merge → String
  | .none => "coalesce=none"
  | .next => "coalesce=next"
  | .prev => "coalesce=prev"
  | .both => "coalesce=both"

/-- The block at `ptr` was freed. -/
def freed (symbol : String) (ptr : Nat) (done : Release) : Entry where
  level := .trace
  symbol := symbol
  event := "free"
  ptr := some ptr
  size := some done.size
  bucket := some (Bucket.ofSize done.size)
  outcome := "success"
  details := mergeLabel done.merge

/-- A pointer failed validation. -/
def denied (symbol : String) (ptr : Nat) (refusal : Refusal) : Entry where
  level := .warn
  symbol := symbol
  event := match refusal with
    | .doubleFree _ => "double_free_detected"
    | _ => "invalid_pointer"
  ptr := some ptr
  outcome := "denied"
  details := refusal.message

/-- A change of size began without a block. -/
def resizedNothing (ptr : Option Nat) (size : Nat) : Entry where
  level := .trace
  symbol := "realloc"
  event := "realloc_null_as_malloc"
  ptr := ptr
  size := some size
  outcome := "success"
  details := "ptr_was_null"

/-- A change of size to nothing freed the block. -/
def resizedToNothing (ptr : Nat) : Entry where
  level := .trace
  symbol := "realloc"
  event := "realloc_zero_as_free"
  ptr := some ptr
  size := some 0
  outcome := "freed"
  details := "new_size_was_zero"

/-- A block changed its size where it was. -/
def resizedInPlace (ptr size old new : Nat) : Entry where
  level := .trace
  symbol := "realloc"
  event := "realloc_in_place"
  ptr := some ptr
  size := some size
  outcome := "success"
  details := s!"old_size={old} new_size={new}"

/-- The last block grew with the heap. -/
def resizedByGrowth (ptr size old absorbed : Nat) : Entry where
  level := .trace
  symbol := "realloc"
  event := "realloc_grow_in_place"
  ptr := some ptr
  size := some size
  outcome := "success"
  details := s!"old_size={old} absorbed={absorbed}"

/-- A block moved to change its size. -/
def moved (ptr target size old copied : Nat) : Entry where
  level := .trace
  symbol := "realloc"
  event := "realloc_move"
  ptr := some target
  size := some size
  outcome := "success"
  details := s!"old_ptr={hex ptr} old_size={old} copied={copied}"

/-- The heap failed its check. -/
def violated (v : Violation) : Entry where
  level := .error
  symbol := "check"
  event := "invariant_violation"
  outcome := "violation"
  details := v.message

end SegFit.Entry
