/-
  Operations on any heap that passes its check, however its bytes came about.  The word before
  the first block is beyond the check; if it is not the tag of a free block either, the heap is
  sound (`accepted_iff`), and each operation is refused or granted (`operate_spec`).  Refused, it
  has changed nothing but the journal (`operation_atomic`).
-/
import SegFit.Proofs.Runs

namespace SegFit

/-- Requests that allocate, release or resize.  The others access a payload. -/
def Request.Operates : Request → Prop
  | .write .. | .read .. => False
  | _ => True

theorem Request.Operates.fits {r : Request} (h : r.Operates) (a : Allocator) : r.Fits a := by
  cases r with
  | write | read => exact h.elim
  | allocate | allocateZeroed | release | resize => trivial

namespace Heap

/-- The heap passes its check, its epilog ends it, links can address all of it, and the word
before its first block is not the tag of a free block. -/
structure Accepted (h : Heap) : Prop where
  check : h.check = .ok (.ok ())
  span : h.epilog + epilogBytes = h.size
  small : h.size ≤ maxWord
  guard : Memory.freeTag (Tag.decode (h.mem.word prologEnd)) = none

/-- The accepted heaps are the sound ones. -/
theorem accepted_iff {h : Heap} : h.Accepted ↔ ∃ cs ls, h.Sound cs ls := by
  constructor
  · intro ha
    have hsmall := ha.small
    obtain ⟨cs, ls, hshape⟩ := (check_iff (Nat.le_of_eq ha.span)
      (by simp only [maxWord, offsetBound] at *; omega)).mp ha.check
    exact ⟨cs, ls, hshape, ha.span, ha.small, ha.guard⟩
  · rintro ⟨cs, ls, hs⟩
    exact ⟨hs.check, hs.span, hs.small, hs.guard⟩

end Heap

namespace Allocator

open Heap

variable {a : Allocator} {cs : List TaggedBlock} {ls : Nat → List Nat}

/-! ## Pointers -/

/-- An allocated block is reported at `ptr`. -/
def Reports (a : Allocator) (ptr : Nat) : Prop :=
  ∃ bs, a.blocks = .ok bs ∧ ∃ b ∈ bs, b.offset = ptr ∧ b.status = .allocated

/-- The settings ask for validation, and `ptr` fails it. -/
def Denies (a : Allocator) (ptr : Nat) : Prop :=
  a.settings.safety.validates = true ∧ ∃ e, a.heap.liveSize ptr = .ok (.error e)

theorem Reports.exists_block (hs : a.heap.Sound cs ls) {ptr : Nat} (h : a.Reports ptr) :
    ∃ b ∈ cs, b.2.status = .allocated ∧ b.1 = ptr := by
  obtain ⟨bs, hbs, v, hv, rfl, ha⟩ := h
  obtain rfl := Except.ok.inj (hs.consistent.blocks.symm.trans hbs)
  obtain ⟨b, hb, rfl⟩ := List.mem_map.mp hv
  exact ⟨b, hb, ha, rfl⟩

/-- What is reported are the allocated blocks. -/
theorem reports_iff (hs : a.heap.Sound cs ls) {ptr : Nat} :
    a.Reports ptr ↔ ∃ b ∈ cs, b.2.status = .allocated ∧ b.1 = ptr := by
  refine ⟨fun h => h.exists_block hs, ?_⟩
  rintro ⟨b, hb, ha, rfl⟩
  exact ⟨_, hs.consistent.blocks, _, List.mem_map_of_mem hb, rfl, ha⟩

/-! ## Operations -/

/-- An operation on a pointer that fails validation is refused. -/
theorem operate_denied (hs : a.heap.Sound cs ls) (hv : a.settings.safety.validates = true)
    {r : Request} (hop : r.Operates) {ptr : Nat} (hp : r.pointer = some ptr) {e : Refusal}
    (he : a.heap.liveSize ptr = .ok (.error e)) :
    ∃ a', a.perform r = .ok (.error e, a') ∧ a.Refused a' := by
  cases r with
  | allocate | allocateZeroed => cases hp
  | write | read => exact hop.elim
  | release p =>
    obtain rfl : p = ptr := Option.some.inj hp
    obtain ⟨a', hrun, hr⟩ := release_rejected hs hv he
    refine ⟨a', ?_, hr⟩
    rw [perform, hrun]
    rfl
  | resize p n =>
    obtain rfl : p = some ptr := hp
    exact resize_rejected hs hv he n

/-- The offsets of the allocated blocks are what is live. -/
theorem tracks_allocated (hs : a.heap.Sound cs ls) :
    a.Tracks ((cs.filter fun b => b.2.status = .allocated).map Prod.fst) cs ls := by
  refine ⟨hs, fun p => ?_⟩
  simp only [List.mem_map, List.mem_filter, decide_eq_true_eq, and_assoc]

/-- An operation is refused or granted. -/
theorem operate_spec (hs : a.heap.Sound cs ls) {r : Request} (hop : r.Operates)
    (hptr : ∀ ptr, r.pointer = some ptr → a.Reports ptr ∨ a.Denies ptr) :
    (∃ e a', a.perform r = .ok (.error e, a') ∧ a.Refused a') ∨
      ∃ answer new a' cs' ls', a.perform r = .ok (.ok answer, a') ∧
        Outcome a cs r.pointer new a' cs' ls' := by
  by_cases hall : ∀ ptr, r.pointer = some ptr → a.Reports ptr
  · have ht := tracks_allocated hs
    rcases perform_spec ht (fun ptr hp => (ht.live ptr).mpr ((hall ptr hp).exists_block hs))
      (hop.fits a) with h | ⟨answer, new, a', cs', ls', hrun, hout, -⟩
    · exact .inl h
    · exact .inr ⟨answer, new, a', cs', ls', hrun, hout⟩
  · obtain ⟨ptr, hp⟩ := Classical.not_forall.mp hall
    obtain ⟨hp, hnot⟩ := Classical.not_imp.mp hp
    obtain ⟨hv, e, he⟩ := (hptr ptr hp).resolve_left hnot
    obtain ⟨a', hrun, hr⟩ := operate_denied hs hv hop hp he
    exact .inl ⟨e, a', hrun, hr⟩

/-- A refusal adds one warning to the journal if that records warnings, and changes nothing
else. -/
theorem Refused.warns {a' : Allocator} (h : a.Refused a') :
    a' = { a with journal := a'.journal } ∧
      ∃ rs : List Record, a'.journal.records.toList = a.journal.records.toList ++ rs ∧
        rs.length = (if a.journal.minLevel = .error then 0 else 1) ∧
        ∀ record ∈ rs, record.entry.level = .warn := by
  obtain ⟨e, he, rfl⟩ := h
  have henabled : a.journal.enabled .warn = decide (a.journal.minLevel ≠ .error) := by
    rw [Journal.enabled]
    cases a.journal.minLevel <;> decide
  refine ⟨rfl, _, Journal.records_record .., ?_, fun record hr => ?_⟩
  · rw [he, henabled]
    by_cases hm : a.journal.minLevel = .error <;> simp [hm]
  · split at hr
    · rw [List.mem_singleton.mp hr]
      exact he
    · cases hr

/-! ## A heap with one block -/

/-- The store that consists of the words `ws`. -/
def ofWords (ws : List UInt32) : Memory :=
  ⟨⟨(ws.flatMap fun w => (List.range wordSize).map fun k =>
    UInt8.ofNat (w.toNat >>> (8 * k))).toArray⟩⟩

/-- A heap with one allocated block, of the least size, and the word `w` before it. -/
def loneBlock (w : UInt32) : Heap :=
  let epilog := firstHeader + minBlock
  let prologNodes := (List.range Bucket.count).flatMap fun b =>
    [0, .ofNat (epilog + wordSize + b * nodeSize)]
  let epilogNodes := (List.range Bucket.count).flatMap fun b => [.ofNat (prologNode b), 0]
  let tag := Tag.word ⟨minBlock, .allocated⟩
  ⟨ofWords (prologNodes ++ [w, tag, 0, 0, tag, 0] ++ epilogNodes), epilog⟩

/-- An allocator with this heap in an arena that is full. -/
def lone (w : UInt32) : Allocator :=
  ⟨loneBlock w, emptySize + minBlock, {}, .empty .info, 1, minBlock⟩

theorem lone_reports {w : UInt32} (h : (lone w).blocks = .ok [⟨112, 16, .allocated, none⟩])
    (ptr : Nat) (hp : some 112 = some ptr) : (lone w).Reports ptr :=
  ⟨_, h, _, List.mem_singleton_self _, Option.some.inj hp, rfl⟩

/-! ## Refusals change nothing -/

/-- On a heap that passes its check, an operation that is refused has changed nothing but the
journal, which gained one warning; one that is granted has added no warning and no error. -/
theorem operation_atomic (hcheck : a.heap.check = .ok (.ok ()))
    (hfooter : a.heap.mem.word prologEnd = 0)
    (hspan : a.heap.epilog + epilogBytes = a.heap.size) (hsmall : a.heap.size ≤ maxWord)
    {r : Request} (hop : r.Operates)
    (hptr : ∀ ptr, r.pointer = some ptr → a.Reports ptr ∨ a.Denies ptr) :
    ∃ result a', a.perform r = .ok (result, a') ∧
      match result with
      | .error _ => a' = { a with journal := a'.journal } ∧
          ∃ rs : List Record, a'.journal.records.toList = a.journal.records.toList ++ rs ∧
            rs.length = (if a.journal.minLevel = .error then 0 else 1) ∧
            ∀ record ∈ rs, record.entry.level = .warn
      | .ok _ => ∃ rs : List Record,
          a'.journal.records.toList = a.journal.records.toList ++ rs ∧
            ∀ record ∈ rs, record.entry.level ≠ .warn ∧ record.entry.level ≠ .error := by
  have hguard : Memory.freeTag (Tag.decode (a.heap.mem.word prologEnd)) = none := by
    rw [hfooter]
    rfl
  obtain ⟨cs, ls, hs⟩ := accepted_iff.mp ⟨hcheck, hspan, hsmall, hguard⟩
  rcases operate_spec hs hop hptr with ⟨e, a', hrun, hr⟩ | ⟨answer, _, a', _, _, hrun, hout⟩
  · exact ⟨.error e, a', hrun, hr.warns⟩
  · exact ⟨.ok answer, a', hrun, hout.quiet.records⟩

theorem operation_atomic_full :
    ∃ e a', (lone 0).perform (.resize (some 112) 100) = .ok (.error e, a') ∧
      a' = { lone 0 with journal := a'.journal } := by
  have hrefused : ((lone 0).perform (.resize (some 112) 100)).toOption.map (·.1.isOk) =
      some false := by decide +kernel
  obtain ⟨result, a', hrun, hmatch⟩ := operation_atomic (a := lone 0) (r := .resize (some 112) 100)
    (by decide +kernel) (by decide +kernel) (by decide +kernel) (by decide +kernel) trivial
    fun ptr hp => .inl (lone_reports (by decide +kernel) ptr hp)
  cases result with
  | error e => exact ⟨e, a', hrun, hmatch.1⟩
  | ok answer =>
    rw [hrun] at hrefused
    cases hrefused

end Allocator

end SegFit
