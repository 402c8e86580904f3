/-
  A change of size against a request for the same bytes.  The last block is only ever extended
  where it is, so it is refused when the heap may not grow, also if a free block elsewhere could
  take the data (`not_resize_of_allocate`).  A block in this position is `Cornered`; every other
  one gets the new size whenever a new block of that size could be had.  This holds however far
  the system lets the arena grow at the moment (`Strained.resize_or_cornered`).
-/
import Mathlib.Algebra.GroupWithZero.Nat
import SegFit.Proofs.GuardedRuns

namespace SegFit

namespace Allocator

open Heap

variable {a : Allocator} {cs pre : List TaggedBlock} {ls : Nat → List Nat} {b : TaggedBlock}
  {next : Option TaggedBlock} {n size : Nat}

/-- The block at `ptr` is the last one or followed only by a free one, it is too small for `n`
bytes also with that, and the heap may not grow by the bytes that are missing. -/
def Cornered (a : Allocator) (ptr n : Nat) : Prop :=
  ∃ front block rest size, a.blocks = .ok (front ++ block :: rest) ∧ block.offset = ptr ∧
    (rest = [] ∨ ∃ free : Block, rest = [free] ∧ free.isFree) ∧ blockSizeFor n = some size ∧
    block.size + (rest.map Block.size).sum < size ∧
    min a.limit maxWord < a.heap.size + (size - (block.size + (rest.map Block.size).sum))

/-! ## Cornered blocks of a sound heap -/

/-- The room of a block, as the blocks are reported. -/
theorem room_viewOf (m : Memory) (b : TaggedBlock) (next : Option TaggedBlock) :
    (viewOf m b).size + ((next.toList.map (viewOf m)).map Block.size).sum = roomSize b next := by
  cases next <;> rfl

/-- A last block whose room is too small for what the heap may grow is cornered. -/
theorem cornered_of_before (hs : a.heap.Sound cs ls) (hn : Before cs pre b next [])
    (hsize : blockSizeFor n = some size) (hlt : roomSize b next < size)
    (hg : a.heap.growthRefusal a.limit (size - roomSize b next) ≠ none) : a.Cornered b.1 n := by
  have hblocks : a.blocks = .ok (pre.map (viewOf a.heap.mem) ++
      viewOf a.heap.mem b :: next.toList.map (viewOf a.heap.mem)) := by
    refine hs.consistent.blocks.trans ?_
    simp [hn.blocks]
  refine ⟨_, _, _, size, hblocks, rfl, ?_, hsize, ?_, ?_⟩
  · cases next with
    | none => exact .inl rfl
    | some c => exact .inr ⟨_, rfl, hn.free c rfl⟩
  · rwa [room_viewOf]
  · rw [room_viewOf]
    exact growthRefusal_ne_none.mp hg

/-- Seen from the blocks, a cornered block is a last one whose room is too small. -/
theorem Cornered.exists_before (hs : a.heap.Sound cs ls) (hb : b ∈ cs) (h : a.Cornered b.1 n) :
    ∃ pre next size, Before cs pre b next [] ∧ blockSizeFor n = some size ∧
      roomSize b next < size ∧ a.heap.growthRefusal a.limit (size - roomSize b next) ≠ none := by
  obtain ⟨front, block, rest, size, hblocks, hoff, hrest, hsize, hlt, hg⟩ := h
  have hcs : cs.map (viewOf a.heap.mem) = front ++ block :: rest :=
    Except.ok.inj (hs.consistent.blocks.symm.trans hblocks)
  obtain ⟨pre, tail, rfl, -, htail⟩ := List.map_eq_append_iff.mp hcs
  obtain ⟨c, post, rfl, rfl, rfl⟩ := List.map_eq_cons_iff.mp htail
  obtain rfl : c = b := hs.chain.tiles.eq_of_offset (by simp) hb hoff
  obtain ⟨next, rfl, hfree⟩ : ∃ next : Option TaggedBlock, post = next.toList ∧
      ∀ d ∈ next, d.2.isFree := by
    rcases hrest with hnil | ⟨free, hone, hf⟩
    · exact ⟨none, List.map_eq_nil_iff.mp hnil, by simp⟩
    · obtain ⟨d, rfl, rfl⟩ := List.map_eq_singleton_iff.mp hone
      refine ⟨some d, rfl, fun d' hd => ?_⟩
      exact Option.some.inj hd ▸ hf
  rw [room_viewOf] at hlt hg
  exact ⟨pre, next, size, ⟨by simp, hfree, by simp⟩, hsize, hlt, growthRefusal_ne_none.mpr hg⟩

/-! ## Fitting -/

/-- A cornered block is refused for want of memory. -/
theorem fit_cornered (hs : a.heap.Sound cs ls) (hb : b ∈ cs) (ha : b.2.status = .allocated)
    (h : a.Cornered b.1 n) : ∃ cause a', a.fit b.1 n = .ok (.error (.outOfMemory cause), a') := by
  obtain ⟨pre, next, size, hn, hsize, hlt, hg⟩ := h.exists_before hs hb
  obtain ⟨cause, hg⟩ := Option.ne_none_iff_exists'.mp hg
  exact ⟨cause, fit_of_resize hs hb ha hsize (hs.resize_refused hn ha hlt rfl hg)⟩

/-- Any other block gets its new size if a request for the same bytes is served. -/
theorem fit_free (hs : a.heap.Sound cs ls) (hb : b ∈ cs) (ha : b.2.status = .allocated)
    (hn : n ≠ 0) (hserve : ∃ answer a', a.serve "realloc" n = .ok (.ok answer, a'))
    (h : ¬ a.Cornered b.1 n) : ∃ answer a', a.fit b.1 n = .ok (.ok (some answer), a') := by
  obtain ⟨size, -, -, hsize, -⟩ := (serve_granted_iff hn).mp hserve
  obtain ⟨hsz, -⟩ := blockSizeFor_spec hsize
  obtain ⟨pre, prev, next, post, hr⟩ := exists_around hs.shape.separated hb
  have hbefore := hr.before_next
  by_cases hle : size ≤ roomSize b next
  · obtain ⟨_, hrun, -⟩ := hs.resize_inPlace hbefore ha a.limit hsz hle
    obtain ⟨a', hfit, -⟩ := fit_of_resize hs hb ha hsize hrun
    exact ⟨b.1, a', hfit⟩
  have hlt := Nat.lt_of_not_le hle
  by_cases hlast : post = []
  · subst hlast
    have hg : a.heap.growthRefusal a.limit (size - roomSize b next) = none :=
      Classical.not_not.mp fun hg => h (cornered_of_before hs hbefore hsize hlt hg)
    obtain ⟨_, hrun, -⟩ := hs.resize_grown hbefore ha hsz hlt rfl hg
    obtain ⟨a', hfit, -⟩ := fit_of_resize hs hb ha hsize hrun
    exact ⟨b.1, a', hfit⟩
  · -- The block moves, and the request that this makes is the one that is served.
    have hmove : a.fit b.1 n = a.move b.1 n size b.2.size :=
      fit_of_resize hs hb ha hsize (hs.resize_mustMove hbefore hlt hlast)
    have hsmall : b.2.size < size := by
      simp only [roomSize] at hlt
      omega
    rw [hmove]
    rcases serve_spec hs "realloc" n with ⟨e, a₁, hrun, -⟩ | ⟨new, a₁, cs₁, ls₁, hrun, h₁, hsup⟩
    · obtain ⟨answer, a', hserve⟩ := hserve
      cases hrun.symm.trans hserve
    · obtain ⟨c, rfl⟩ := hsup.exists_eq hn
      have hle := hsup.le hsize
      obtain ⟨a', _, _, hmove, -, -⟩ := move_served hs hb ha hsmall hrun h₁ hle
      exact ⟨c.1, a', hmove⟩

/-- Where a request for `n > 0` bytes would be served, a live allocation can be given `n` bytes
unless it is cornered; then it is refused for want of memory. -/
theorem Strained.resize_or_cornered {settings : Settings} {live : List Nat}
    (h : Strained settings a live) (limit : Nat) {ptr : Nat} (hptr : ptr ∈ live) (hn : 0 < n)
    (halloc : ∃ answer a', (a.strain limit).allocate n = .ok (.ok answer, a')) :
    (¬ (a.strain limit).Cornered ptr n →
        ∃ answer a', (a.strain limit).resize (some ptr) n = .ok (.ok (some answer), a')) ∧
      ((a.strain limit).Cornered ptr n → ∃ cause a',
        (a.strain limit).resize (some ptr) n = .ok (.error (.outOfMemory cause), a')) := by
  obtain ⟨cs, ls, ht, -⟩ := h.tracks
  have hs : (a.strain limit).heap.Sound cs ls := ht.sound
  obtain ⟨b, hb, ha, rfl⟩ := (ht.live ptr).mp hptr
  have hn : n ≠ 0 := Nat.ne_of_gt hn
  have hserve : ∃ answer a', (a.strain limit).serve "realloc" n = .ok (.ok answer, a') := by
    obtain ⟨answer, a', halloc⟩ := halloc
    exact (serve_granted_iff hn).mpr ((serve_granted_iff hn).mp ⟨answer, a', settle_eq_ok halloc⟩)
  constructor
  · intro hfree
    obtain ⟨answer, a', hrun⟩ := fit_free hs hb ha hn hserve hfree
    exact ⟨answer, a', resize_of_fit hs hb ha hn hrun⟩
  · intro hc
    obtain ⟨cause, a', hrun⟩ := fit_cornered hs hb ha hc
    exact ⟨cause, a', resize_of_fit hs hb ha hn hrun⟩

/-! ## A full arena -/

/-- How an operation that is answered has ended. -/
theorem answer_of_isOk {α : Type} {x : Except Stop (Reply α)} {granted : Bool}
    (h : x.toOption.map (fun reply => reply.1.isOk) = some granted) :
    ∃ result a', x = .ok (result, a') ∧ result.isOk = granted := by
  obtain ⟨⟨result, a'⟩, hx, hok⟩ := Option.map_eq_some_iff.mp h
  exact ⟨result, a', eq_ok_of_toOption hx, hok⟩

/-- Three blocks that fill an arena of 296 bytes, with the first one given back. -/
def filled : List Request :=
  [.allocate 40, .allocate 8, .allocate 8, .release 112]

/-- A request for 40 bytes is served, but the last block cannot be given as many. -/
theorem session_filled :
    ∃ a, session { heapLimit := 296 } filled = some (a, [176, 160]) ∧
      a.blocks = .ok [⟨112, 48, .free, some (8, 200)⟩, ⟨160, 16, .allocated, none⟩,
        ⟨176, 16, .allocated, none⟩] ∧
      a.heap.size = 296 ∧ a.limit = 296 ∧
      (∃ answer a', a.allocate 40 = .ok (.ok answer, a')) ∧
      ∃ e a', a.resize (some 176) 40 = .ok (.error e, a') := by
  have hall : (session { heapLimit := 296 } filled).map (fun s => decide (s.2 = [176, 160] ∧
      s.1.blocks = .ok [⟨112, 48, .free, some (8, 200)⟩, ⟨160, 16, .allocated, none⟩,
        ⟨176, 16, .allocated, none⟩] ∧
      s.1.heap.size = 296 ∧ s.1.limit = 296 ∧
      (s.1.allocate 40).toOption.map (fun reply => reply.1.isOk) = some true ∧
      (s.1.resize (some 176) 40).toOption.map (fun reply => reply.1.isOk) = some false)) =
      some true := by decide +kernel
  obtain ⟨⟨a, live⟩, hrun, hfacts⟩ := Option.map_eq_some_iff.mp hall
  obtain ⟨rfl, hblocks, hsize, hlimit, halloc, hresize⟩ := of_decide_eq_true hfacts
  refine ⟨a, hrun, hblocks, hsize, hlimit, ?_, ?_⟩
  · obtain ⟨result, a', hrun, hok⟩ := answer_of_isOk halloc
    cases result with
    | error e => cases hok
    | ok answer => exact ⟨answer, a', hrun⟩
  · obtain ⟨result, a', hrun, hok⟩ := answer_of_isOk hresize
    cases result with
    | error e => exact ⟨e, a', hrun⟩
    | ok answer => cases hok

/-- The last block is cornered; the one before it gets its size, in the place of the first. -/
theorem resize_or_cornered_filled :
    ∃ a, session { heapLimit := 296 } filled = some (a, [176, 160]) ∧
      (∃ answer a', a.allocate 40 = .ok (.ok answer, a')) ∧
      (a.Cornered 176 40 ∧
        ∃ cause a', a.resize (some 176) 40 = .ok (.error (.outOfMemory cause), a')) ∧
      ¬ a.Cornered 160 40 ∧
        ∃ answer a', a.resize (some 160) 40 = .ok (.ok (some answer), a') := by
  obtain ⟨a, hrun, hblocks, hsize, hlimit, halloc, -⟩ := session_filled
  have hlast : a.Cornered 176 40 := by
    refine ⟨[_, _], _, [], 48, hblocks, rfl, .inl rfl, by decide, by decide, ?_⟩
    rw [hsize, hlimit]
    decide
  have hother : ¬ a.Cornered 160 40 := by
    rintro ⟨front, block, rest, size, hblocks', hoff, hrest, -⟩
    have hlist := Except.ok.inj (hblocks.symm.trans hblocks')
    rcases front with _ | ⟨_, _ | ⟨_, _ | ⟨_, _⟩⟩⟩
    · obtain ⟨rfl, -⟩ := List.cons.inj hlist
      cases hoff
    · obtain ⟨-, hlist⟩ := List.cons.inj hlist
      obtain ⟨-, rfl⟩ := List.cons.inj hlist
      rcases hrest with hnil | ⟨free, hone, hfree⟩
      · cases hnil
      · obtain ⟨rfl, -⟩ := List.cons.inj hone
        cases hfree
    · obtain ⟨-, hlist⟩ := List.cons.inj hlist
      obtain ⟨-, hlist⟩ := List.cons.inj hlist
      obtain ⟨rfl, -⟩ := List.cons.inj hlist
      cases hoff
    · simp at hlist
  have hst := (Reachable.of_session hrun).strained.1
  exact ⟨a, hrun, halloc,
    ⟨hlast, (Strained.resize_or_cornered hst a.limit (by decide) (by decide) halloc).2 hlast⟩,
    hother, (Strained.resize_or_cornered hst a.limit (by decide) (by decide) halloc).1 hother⟩

/-- That a request would be served does not imply that a live allocation can be given as many
bytes: the last block is never moved, although the first one is free and large enough. -/
theorem not_resize_of_allocate :
    ¬ ∀ (settings : Settings) (a : Allocator) (live : List Nat) (ptr n : Nat),
      Reachable settings a live → ptr ∈ live → 0 < n →
      (∃ answer a', a.allocate n = .ok (.ok answer, a')) →
      ∃ answer a', a.resize (some ptr) n = .ok (.ok answer, a') := by
  intro hall
  obtain ⟨a, hrun, -, -, -, halloc, e, a₁, hrefused⟩ := session_filled
  obtain ⟨answer, a₂, hgranted⟩ := hall _ a _ 176 40 (.of_session hrun) (by decide) (by decide)
    halloc
  cases hrefused.symm.trans hgranted

end Allocator

end SegFit
