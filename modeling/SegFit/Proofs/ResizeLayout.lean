/-
  What a change of size leaves, exactly.  The room of an allocation is its block and the free
  block behind it, if there is one.  A size that the room holds is carved out of it, and the heap
  keeps its size; if the room ends the heap, the heap grows by what is missing, or is not allowed
  to; otherwise the allocation moves, and all is as if the client had requested a new block and
  then released the old one.  No other block changes but in a move.

  Proved:
  * `Reachable.tally_of_shows`: the counters follow from the layout.
  * `move_layout`: a move leaves the layout of a request and a release.
  * `Reachable.resize_exact`: all of it, for every live allocation of every state that clients
    can reach.
-/
import SegFit.Proofs.Granting
import SegFit.Proofs.ReleaseLayout

namespace SegFit

namespace Heap

variable {h h' : Heap} {cs pre post : List TaggedBlock} {b : TaggedBlock}
  {next : Option TaggedBlock} {ls : Nat → List Nat}

/-- The room of a block ends the heap if no block comes after it. -/
theorem Before.ends_iff (hn : Before cs pre b next post) (hc : h.Chain firstBlock cs) :
    b.1 + roomSize b next = h.epilog + wordSize ↔ post = [] := by
  obtain ⟨-, -, hpost⟩ := hn.tiles hc
  cases post with
  | nil => exact iff_of_true hpost rfl
  | cons c post =>
    have hlt := hpost.bounds (b := c) List.mem_cons_self
    refine iff_of_false (fun he => ?_) (List.cons_ne_nil c post)
    simp only [minBlock] at hlt
    omega

end Heap

namespace Allocator

open Heap

variable {a a' : Allocator} {cs pre post : List TaggedBlock} {b : TaggedBlock}
  {next : Option TaggedBlock} {ls : Nat → List Nat} {settings : Settings} {live : List Nat}
  {n p q size : Nat}

/-! ## Counters -/

/-- In a state that clients can reach, the counters are the figures on the blocks shown. -/
theorem Reachable.tally_of_shows (h : Reachable settings a live) (hcs : a.Shows cs) :
    a.Tally cs := by
  obtain ⟨cs', ls', ht, -, hc⟩ := h.audited
  exact (shows_of_sound ht.sound).unique hcs ▸ hc

/-- After a change of size that was granted. -/
theorem Reachable.resized (h : Reachable settings a live) (hp : p ∈ live) {answer : Option Nat}
    (hrun : a.resize (some p) n = .ok (.ok answer, a')) :
    Reachable settings a' (Request.live live (.resize (some p) n) answer) :=
  .granted h (fun _ hptr => Option.some.inj hptr ▸ hp) hrun

/-- A change of size that is granted changes the counters by what it has done to the block. -/
theorem Reachable.resize_counted (h : Reachable settings a live) (ht : a.Tracks live cs ls)
    (hb : b ∈ cs) (ha : b.2.status = .allocated)
    (hrun : a.resize (some b.1) n = .ok (.ok (some q), a')) :
    ∃ new cs', a'.Shows cs' ∧ (q, ⟨new, .allocated⟩) ∈ cs' ∧ a'.liveBlocks = a.liveBlocks ∧
      a'.liveBytes + b.2.size = a.liveBytes + new := by
  have hlegal : b.1 ∈ live := (ht.live b.1).mpr ⟨b, hb, ha, rfl⟩
  have h' := h.resized hlegal hrun
  rcases resize_some_spec ht.sound hb ha n with ⟨e, a₁, hres, -⟩ |
    ⟨new, a₁, cs', ls', hres, hout, -⟩
  · cases hrun.symm.trans hres
  · obtain ⟨hnew, rfl⟩ := Prod.mk.inj (Except.ok.inj (hrun.symm.trans hres))
    obtain ⟨⟨q, new, status⟩, rfl, rfl⟩ := Option.map_eq_some_iff.mp (Except.ok.inj hnew).symm
    obtain rfl : status = .allocated := hout.swaps.allocated _ rfl
    have hc := h.tally_of_shows (shows_of_sound ht.sound)
    have hc' := h'.tally_of_shows (shows_of_sound hout.sound)
    have hsw : Swaps cs cs' ((some b).map Prod.fst) (some (q, ⟨new, .allocated⟩)) := hout.swaps
    obtain ⟨hlen, hsum⟩ := hsw.figures ht.sound.chain.tiles hout.sound.chain.tiles
      fun c hc => Option.some.inj hc ▸ mem_allocations.mpr ⟨hb, ha⟩
    refine ⟨new, cs', shows_of_sound hout.sound, hout.swaps.mem_of_new, ?_, ?_⟩
    · rw [hc.blocks, hc'.blocks]
      exact Nat.add_right_cancel hlen
    · rw [hc.bytes, hc'.bytes]
      simpa [bytesOf] using hsum

/-- A change of size that is refused has left nothing but a warning. -/
theorem resize_refused (hs : a.heap.Sound cs ls) (hb : b ∈ cs) (ha : b.2.status = .allocated)
    {e : Refusal} (hrun : a.resize (some b.1) n = .ok (.error e, a')) : a.Refused a' := by
  rcases resize_some_spec hs hb ha n with ⟨_, _, hres, hr⟩ | ⟨_, _, _, _, hres, -⟩
  · obtain ⟨-, rfl⟩ := Prod.mk.inj (Except.ok.inj (hrun.symm.trans hres))
    exact hr
  · cases hrun.symm.trans hres

/-! ## Moving -/

/-- Two allocators with the same blocks, lists and counters. -/
structure SameLayout (a a' : Allocator) : Prop where
  blocks : ∃ cs, a.Shows cs ∧ a'.Shows cs
  lists : ∀ k < Bucket.count, ∃ ns, a.heap.nodes k = .ok ns ∧ a'.heap.nodes k = .ok ns
  size : a.heap.size = a'.heap.size
  liveBlocks : a.liveBlocks = a'.liveBlocks
  liveBytes : a.liveBytes = a'.liveBytes

theorem SameLayout.of_sound (hs : a.heap.Sound cs ls) (hs' : a'.heap.Sound cs ls) (hc : a.Tally cs)
    (hc' : a'.Tally cs) : a.SameLayout a' :=
  ⟨⟨cs, shows_of_sound hs, shows_of_sound hs'⟩,
    fun k hk => ⟨ls k, hs.consistent.nodes hk, hs'.consistent.nodes hk⟩, (hs.extent_eq hs').2,
    hc.blocks.trans hc'.blocks.symm, hc.bytes.trans hc'.bytes.symm⟩

/-- A request is answered alike whatever operation makes it, and the heap is left alike. -/
theorem serve_symbol (hs : a.heap.Sound cs ls) (hn : n ≠ 0) (hsize : blockSizeFor n = some size)
    (symbol symbol' : String) :
    ∃ result a₁ a₂, a.serve symbol n = .ok (result, a₁) ∧ a.serve symbol' n = .ok (result, a₂) ∧
      a₁.heap = a₂.heap ∧ result ≠ .ok none := by
  obtain ⟨hb, -⟩ := blockSizeFor_spec hsize
  obtain ⟨result, heap, hrun⟩ :
      ∃ result heap, a.heap.acquire a.limit size = .ok (result, heap) := by
    rcases hs.acquire hb a.limit with ⟨_, hrun⟩ | ⟨_, _, _, _, hrun, -⟩ <;> exact ⟨_, _, hrun⟩
  obtain ⟨a₁, h₁, rfl⟩ := serve_of_acquire hn hsize hrun symbol
  obtain ⟨a₂, h₂, heq⟩ := serve_of_acquire hn hsize hrun symbol'
  refine ⟨_, a₁, a₂, h₁, h₂, heq.symm, ?_⟩
  cases result <;> simp [Except.map, Except.mapError]

/-- A move leaves the blocks and the lists that a request and a release leave. -/
theorem move_layout (hs : a.heap.Sound cs ls) (hb : b ∈ cs) (ha : b.2.status = .allocated)
    (hn : n ≠ 0) (hsize : blockSizeFor n = some size) (hlt : b.2.size < size) {a₁ a₂ : Allocator}
    (hserve : a.serve "realloc" n = .ok (.ok (some q), a₁)) (heap : a₂.heap = a₁.heap) :
    ∃ a₃ a' cs' ls', a₂.release b.1 = .ok (.ok (), a₃) ∧ a₃.heap.Sound cs' ls' ∧
      a.move b.1 n size b.2.size = .ok (.ok (some q), a') ∧ a'.heap.Sound cs' ls' ∧ q ≠ b.1 := by
  obtain ⟨c, cs₁, ls₁, rfl, h₁, hsup⟩ := serve_block hs hserve
  have hle := hsup.le hsize
  have hne : c.1 ≠ b.1 := Ne.symm (h₁.swaps.fresh c rfl b hb ha (by simp))
  obtain ⟨a', -, -, hmove, -⟩ := move_served hs hb ha hlt hserve h₁ hle
  obtain ⟨_, _, copied, mem, a₄, hserve', hcopied, hcopy, hfree, htarget, hheap, -⟩ :=
    move_granted hn hmove
  obtain ⟨-, rfl⟩ := Prod.mk.inj (Except.ok.inj (hserve.symm.trans hserve'))
  obtain rfl := Option.some.inj htarget
  obtain ⟨_, cs₂, ls₂, -, -, hb₂, -, hs₂, -, -, hout⟩ :=
    move_copied hs hb ha hsize hlt hserve hcopied hcopy
  -- The payload is no part of the layout, so both releases find the same neighbours.
  obtain ⟨pre, prev, next, post, har⟩ := exists_around hs₂.shape.separated hb₂
  obtain ⟨h₃, hrun, hbec, -⟩ := hout.sound.release har ha
  obtain ⟨_, hrun', -⟩ := free_granted hfree
  obtain ⟨-, rfl⟩ := Prod.mk.inj (Except.ok.inj (hrun.symm.trans hrun'))
  obtain ⟨a₃, hrelease, hbec', -⟩ := release_merges (heap ▸ hs₂ : a₂.heap.Sound cs₂ ls₂) har ha
  exact ⟨a₃, a', _, _, hrelease, hbec'.sound, hmove, hheap ▸ hbec.sound, hne⟩

/-- After a request that was granted, a client can release what was live before. -/
theorem Reachable.allocate_release (h : Reachable settings a live) (hp : p ∈ live)
    {a₁ a₂ : Allocator} (halloc : a.allocate n = .ok (.ok (some q), a₁))
    (hrelease : a₁.release p = .ok (.ok (), a₂)) : ∃ live', Reachable settings a₂ live' := by
  have hstill : p ∈ Request.live live (.allocate n) (some q) := by
    simp [Request.live, Request.pointer, hp]
  exact ⟨_, (h.allocated halloc).released hstill hrelease⟩

/-- An allocation that cannot stay where it is moves just as the client could have it moved, or is
refused just as the request for the new block is. -/
theorem Reachable.resize_moved (h : Reachable settings a live) (ht : a.Tracks live cs ls)
    (hb : b ∈ cs) (ha : b.2.status = .allocated) (hn : n ≠ 0) (hsize : blockSizeFor n = some size)
    (hlt : b.2.size < size)
    (hrun : a.heap.resize a.limit b.1 size = .ok (.ok (.mustMove b.2.size), a.heap)) :
    (∃ e a' a₁, a.resize (some b.1) n = .ok (.error e, a') ∧
        a.allocate n = .ok (.error e, a₁) ∧ a.Refused a') ∨
      ∃ q a' a₁ a₂, a.resize (some b.1) n = .ok (.ok (some q), a') ∧
        a.allocate n = .ok (.ok (some q), a₁) ∧ q ≠ b.1 ∧ a₁.release b.1 = .ok (.ok (), a₂) ∧
        a'.SameLayout a₂ := by
  have hs := ht.sound
  have hlegal : b.1 ∈ live := (ht.live b.1).mpr ⟨b, hb, ha, rfl⟩
  have hfit : a.fit b.1 n = a.move b.1 n size b.2.size := fit_of_resize hs hb ha hsize hrun
  obtain ⟨result, a₁, a₂, hserve, hserve', heap, hsome⟩ :=
    serve_symbol hs hn hsize "realloc" "malloc"
  have halloc := allocate_of_serve hs hserve'
  cases result with
  | error e =>
    have hmove : a.move b.1 n size b.2.size = .ok (.error e, a₁) := by
      unfold move
      rw [hserve]
      rfl
    have hresize := resize_of_fit hs hb ha hn (hfit.trans hmove)
    exact .inl ⟨e, a₁, a₂, hresize, halloc, resize_refused hs hb ha hresize⟩
  | ok answer =>
    obtain ⟨q, rfl⟩ := Option.ne_none_iff_exists'.mp fun hnone => hsome (congrArg _ hnone)
    obtain ⟨a₃, a', cs', ls', hrelease, hs₃, hmove, hs', hne⟩ :=
      move_layout hs hb ha hn hsize hlt hserve heap.symm
    have hresize := resize_of_fit hs hb ha hn (hfit.trans hmove)
    -- Both ways the client is in a state with these blocks, and the counters follow from them.
    have h' := h.resized hlegal hresize
    obtain ⟨_, h₃⟩ := h.allocate_release hlegal halloc hrelease
    exact .inr ⟨q, a', a₂, a₃, hresize, halloc, hne, hrelease,
      .of_sound hs' hs₃ (h'.tally_of_shows (shows_of_sound hs'))
        (h₃.tally_of_shows (shows_of_sound hs₃))⟩

/-! ## Changes of size -/

/-- How giving the allocation `b` a block of `size` bytes, for `n` bytes, ends in a heap that can
grow up to `limit`.  In it, `b` comes after the blocks `pre`, then a free block `next` if there is
one there, and then `post`.  The first fields of a case say when it is the one. -/
inductive Resizes (a : Allocator) (limit : Nat) (pre : List TaggedBlock) (b : TaggedBlock)
    (next : Option TaggedBlock) (post : List TaggedBlock) (n size : Nat) :
    Except Refusal (Option Nat) → Allocator → Prop where
  /-- The room holds the block and a free one. -/
  | split {a' : Allocator} (room : size + minBlock ≤ roomSize b next)
      (blocks : a'.Shows (pre ++ (b.1, ⟨size, .allocated⟩) ::
        (b.1 + size, ⟨roomSize b next - size, .free⟩) :: post))
      (extent : a'.heap.size = a.heap.size) :
      Resizes a limit pre b next post n size (.ok (some b.1)) a'
  /-- The room holds the block and no other, and becomes one block. -/
  | whole {a' : Allocator} (room : size ≤ roomSize b next)
      (tight : roomSize b next < size + minBlock)
      (blocks : a'.Shows (pre ++ (b.1, ⟨roomSize b next, .allocated⟩) :: post))
      (extent : a'.heap.size = a.heap.size) :
      Resizes a limit pre b next post n size (.ok (some b.1)) a'
  /-- The room ends the heap, which grows by what is missing. -/
  | extended {a' : Allocator} (room : roomSize b next < size)
      (last : b.1 + roomSize b next = a.heap.epilog + wordSize)
      (fits : a.heap.size + (size - roomSize b next) ≤ limit)
      (blocks : a'.Shows (pre ++ [(b.1, ⟨size, .allocated⟩)]))
      (extent : a'.heap.size = a.heap.size + (size - roomSize b next)) :
      Resizes a limit pre b next post n size (.ok (some b.1)) a'
  /-- The room ends the heap, which may not grow by what is missing. -/
  | refused {a' : Allocator} {cause : Exhausted} (room : roomSize b next < size)
      (last : b.1 + roomSize b next = a.heap.epilog + wordSize)
      (exceeds : limit < a.heap.size + (size - roomSize b next)) (unchanged : a.Refused a') :
      Resizes a limit pre b next post n size (.error (.outOfMemory cause)) a'
  /-- The allocation moves, as if it was released after a request for the new one. -/
  | moved {a' a₁ a₂ : Allocator} {q : Nat} (room : roomSize b next < size)
      (inner : b.1 + roomSize b next ≠ a.heap.epilog + wordSize)
      (served : a.allocate n = .ok (.ok (some q), a₁)) (other : q ≠ b.1)
      (released : a₁.release b.1 = .ok (.ok (), a₂)) (same : a'.SameLayout a₂) :
      Resizes a limit pre b next post n size (.ok (some q)) a'
  /-- It would have to move, and the request for the new one is refused. -/
  | unmoved {a' a₁ : Allocator} {e : Refusal} (room : roomSize b next < size)
      (inner : b.1 + roomSize b next ≠ a.heap.epilog + wordSize)
      (denied : a.allocate n = .ok (.error e, a₁)) (unchanged : a.Refused a') :
      Resizes a limit pre b next post n size (.error e) a'

/-- A size that the room holds is carved out of it. -/
theorem resize_inPlace (hs : a.heap.Sound cs ls) (hbefore : Before cs pre b next post)
    (ha : b.2.status = .allocated) (hn : n ≠ 0) (hsize : blockSizeFor n = some size)
    (hle : size ≤ roomSize b next) :
    ∃ a' ls', a.resize (some b.1) n = .ok (.ok (some b.1), a') ∧
      a.heap.Becomes cs a'.heap (pre ++ carved b.1 (roomSize b next) size ++ post) ls' ∧
      a'.heap.epilog = a.heap.epilog := by
  have hb : b ∈ cs := by simp [hbefore.blocks]
  obtain ⟨heap, hrun, hbec, hepilog⟩ :=
    hs.resize_inPlace hbefore ha a.limit (blockSizeFor_spec hsize).1 hle
  obtain ⟨a', hfit, rfl⟩ := fit_of_resize hs hb ha hsize hrun
  exact ⟨a', _, resize_of_fit hs hb ha hn hfit, hbec, hepilog⟩

/-- A size that the room holds. -/
theorem resizes_inPlace (hs : a.heap.Sound cs ls) (hbefore : Before cs pre b next post)
    (ha : b.2.status = .allocated) (hn : n ≠ 0) (hsize : blockSizeFor n = some size)
    (hle : size ≤ roomSize b next) (limit : Nat) :
    ∃ result a', a.resize (some b.1) n = .ok (result, a') ∧
      a.Resizes limit pre b next post n size result a' := by
  obtain ⟨a', _, hresize, hbec, hepilog⟩ := resize_inPlace hs hbefore ha hn hsize hle
  have hextent : a'.heap.size = a.heap.size := hs.size_eq (n := 0) hbec.sound hepilog
  have hshows := shows_of_sound hbec.sound
  refine ⟨_, a', hresize, ?_⟩
  by_cases hr : minBlock ≤ roomSize b next - size
  · rw [carved_of_remainder hr] at hshows
    have hroom : size + minBlock ≤ roomSize b next := by
      omega
    exact .split hroom (by simpa using hshows) hextent
  · rw [carved_of_no_remainder hr] at hshows
    have htight : roomSize b next < size + minBlock := by
      omega
    exact .whole hle htight (by simpa using hshows) hextent

/-- A size that the last room does not hold. -/
theorem resizes_last (hs : a.heap.Sound cs ls) (hbefore : Before cs pre b next [])
    (ha : b.2.status = .allocated) (hn : n ≠ 0) (hsize : blockSizeFor n = some size)
    (hlt : roomSize b next < size) :
    ∃ result a', a.resize (some b.1) n = .ok (result, a') ∧
      a.Resizes (min a.limit maxWord) pre b next [] n size result a' := by
  have hb : b ∈ cs := by simp [hbefore.blocks]
  have hlast := (hbefore.ends_iff hs.chain).mpr rfl
  cases hg : a.heap.growthRefusal a.limit (size - roomSize b next) with
  | none =>
    obtain ⟨heap, hrun, hbec, hepilog⟩ :=
      hs.resize_grown hbefore ha (blockSizeFor_spec hsize).1 hlt rfl hg
    obtain ⟨a', hfit, rfl⟩ := fit_of_resize hs hb ha hsize hrun
    exact ⟨_, a', resize_of_fit hs hb ha hn hfit, .extended hlt hlast (growthRefusal_eq_none.mp hg)
      (shows_of_sound hbec.sound) (hs.size_eq hbec.sound hepilog)⟩
  | some cause =>
    obtain ⟨a', hfit⟩ :=
      fit_of_resize hs hb ha hsize (hs.resize_refused hbefore ha hlt rfl hg)
    have hresize := resize_of_fit hs hb ha hn hfit
    exact ⟨_, a', hresize, .refused hlt hlast (growthRefusal_ne_none.mp (by simp [hg]))
      (resize_refused hs hb ha hresize)⟩

/-- Any size. -/
theorem Reachable.resizes (h : Reachable settings a live) (ht : a.Tracks live cs ls)
    (hbefore : Before cs pre b next post) (ha : b.2.status = .allocated) (hn : n ≠ 0)
    (hsize : blockSizeFor n = some size) :
    ∃ result a', a.resize (some b.1) n = .ok (result, a') ∧
      a.Resizes (min a.limit maxWord) pre b next post n size result a' := by
  have hs := ht.sound
  have hb : b ∈ cs := by simp [hbefore.blocks]
  by_cases hle : size ≤ roomSize b next
  · exact resizes_inPlace hs hbefore ha hn hsize hle _
  · have hlt := Nat.lt_of_not_le hle
    by_cases hpost : post = []
    · subst hpost
      exact resizes_last hs hbefore ha hn hsize hlt
    · have hinner := mt (hbefore.ends_iff hs.chain).mp hpost
      have hsmall : b.2.size < size := Nat.lt_of_le_of_lt (Nat.le_add_right ..) hlt
      rcases h.resize_moved ht hb ha hn hsize hsmall (hs.resize_mustMove hbefore hlt hpost) with
        ⟨e, a', _, hresize, halloc, hr⟩ | ⟨q, a', _, _, hresize, halloc, hne, hrelease, hsame⟩
      · exact ⟨_, a', hresize, .unmoved hlt hinner halloc hr⟩
      · exact ⟨_, a', hresize, .moved hlt hinner halloc hne hrelease hsame⟩

/-- In every state that clients can reach, a live allocation that is to hold `n` bytes stays where
it is if its room holds a block for them, or ends the heap, which then grows by exactly what is
missing, if it may; otherwise it moves to where a request for `n` bytes would be served.  The blocks
before it stay as they are unless it moves, and the counters change by what its block has gained. -/
theorem Reachable.resize_exact (h : Reachable settings a live) (hp : p ∈ live) (hn : 0 < n)
    (hsize : blockSizeFor n = some size) :
    ∃ cs pre old next post result a',
      a.Shows cs ∧ Before cs pre (p, ⟨old, .allocated⟩) next post ∧
      a.resize (some p) n = .ok (result, a') ∧
      a.Resizes (min settings.heapLimit maxWord) pre (p, ⟨old, .allocated⟩) next post n size
        result a' ∧
      ∀ q, result = .ok (some q) → ∃ new cs', a'.Shows cs' ∧ (q, ⟨new, .allocated⟩) ∈ cs' ∧
        a'.liveBlocks = a.liveBlocks ∧ a'.liveBytes + old = a.liveBytes + new := by
  obtain ⟨cs, ls, ht, -⟩ := h.tracks
  obtain ⟨⟨p, old, status⟩, hb, rfl, rfl⟩ := (ht.live p).mp hp
  obtain ⟨pre, prev, next, post, har⟩ := exists_around ht.sound.shape.separated hb
  obtain ⟨result, a', hrun, hresizes⟩ :=
    h.resizes ht har.before_next rfl (Nat.ne_of_gt hn) hsize
  rw [h.strained.2] at hresizes
  refine ⟨cs, _, old, next, post, result, a', shows_of_sound ht.sound, har.before_next, hrun,
    hresizes, fun q hq => ?_⟩
  exact h.resize_counted ht hb rfl (hq ▸ hrun)

/-- The room is 48 bytes at the end of the heap, and 72 are needed. -/
theorem resize_exact_shrunk :
    ∃ a a', session {} [.allocate 40, .resize (some 112) 8] = some (a, [112]) ∧
      a.Shows [(112, ⟨16, .allocated⟩), (128, ⟨32, .free⟩)] ∧
      a.resize (some 112) 60 = .ok (.ok (some 112), a') ∧ a'.Shows [(112, ⟨72, .allocated⟩)] ∧
      a'.heap.size = a.heap.size + 24 ∧ a'.liveBytes + 16 = a.liveBytes + 72 := by
  obtain ⟨a, hrun, hshows, -, hepilog, hsize⟩ := exists_shrunk
  obtain ⟨cs, pre, old, next, post, result, a', hcs, hbefore, hresize, hresizes, hcounted⟩ :=
    Reachable.resize_exact (.of_session hrun) (List.mem_singleton_self 112) (by decide)
      (show blockSizeFor 60 = some 72 by decide)
  obtain rfl := hcs.unique hshows
  obtain ⟨rfl, rfl, rfl, rfl⟩ := before_shrunk hbefore
  cases hresizes with
  | split room => exact absurd room (by decide)
  | whole room => exact absurd room (by decide)
  | extended room last fits blocks extent =>
    obtain ⟨new, cs', hcs', hnew, -, hbytes⟩ := hcounted 112 rfl
    obtain rfl := hcs'.unique blocks
    obtain ⟨-, rfl⟩ : 112 = 112 ∧ new = 72 := by simpa using hnew
    exact ⟨a, a', hrun, hshows, hresize, blocks, extent, hbytes⟩
  | refused room last exceeds =>
    rw [hsize] at exceeds
    exact absurd exceeds (by decide)
  | moved room inner =>
    rw [hepilog] at inner
    exact absurd rfl inner
  | unmoved room inner =>
    rw [hepilog] at inner
    exact absurd rfl inner

end Allocator

end SegFit
