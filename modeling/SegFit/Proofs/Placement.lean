/-
  What is placed for a request.  A block taken from a free one, from fresh space or from the room
  behind it has the block size for the request, or eight bytes more where the rest could not stand
  alone (`Snug`), and the heap has grown by what the grant says.  No other request changes the
  block, so in every run the payload of a live allocation is what was last asked for, rounded up
  to eight bytes, or eight bytes more (`History.slack_bounded`).
-/
import SegFit.Proofs.Answers
import SegFit.Proofs.Histories

namespace SegFit

/-- A block of `placed` bytes serves a block size of `size` bytes with no rest, or with one that
cannot stand alone. -/
def Snug (size placed : Nat) : Prop :=
  placed = size ∨ placed = size + alignment

/-- The bytes by which the heap grew for a grant. -/
def Grant.growth : Grant → Nat
  | .reused .. => 0
  | .grown _ growth _ => growth

/-- The bytes by which the heap grew when a block changed its size. -/
def Resized.growth : Resized → Nat
  | .inPlace .. => 0
  | .grown _ _ growth => growth
  | .mustMove _ => 0

namespace Heap

variable {h h' : Heap} {cs : List TaggedBlock} {ls : Nat → List Nat} {limit size : Nat}

/-! ## Heaps -/

/-- Of an aligned region, an allocation takes the size asked for or all, which is eight bytes
more then. -/
theorem snug_placed {total : Nat} (hb : BlockSize size) (ht : total % alignment = 0)
    (hle : size ≤ total) : Snug size (placed total size) := by
  have ha := hb.aligned
  unfold placed Snug
  split
  · exact .inl rfl
  · simp only [alignment, minBlock] at *
    omega

/-- The sizes of blocks are aligned. -/
theorem Chain.size_aligned (hc : h.Chain firstBlock cs) {b : TaggedBlock} (hb : b ∈ cs) :
    b.2.size % alignment = 0 :=
  (hc.marked hb).encodable.1

/-- A block that was taken is snug, and the heap has grown by what the grant says. -/
theorem Sound.acquire_placed (hs : h.Sound cs ls) (hb : BlockSize size) {grant : Grant}
    (hrun : h.acquire limit size = .ok (.ok grant, h')) :
    ∃ cs' ls', h'.Sound cs' ls' ∧ (grant.block, ⟨grant.placed size, .allocated⟩) ∈ cs' ∧
      Snug size (grant.placed size) ∧ h'.size = h.size + grant.growth := by
  cases hx : fit cs ls size with
  | some x =>
    obtain ⟨⟨found, status⟩, hm, hf, -, hle⟩ := hs.consistent.listed.fit hs.chain.tiles hx
    obtain rfl : status = .free := Tag.isFree_iff.mp hf
    obtain ⟨pre, post, hcs⟩ := List.append_of_mem hm
    obtain ⟨_, hrun', hbec, hep⟩ := hs.acquire_reused limit hb hx hcs
    obtain ⟨hgrant, rfl⟩ := Prod.mk.inj (Except.ok.inj (hrun.symm.trans hrun'))
    obtain rfl := Except.ok.inj hgrant
    exact ⟨_, _, hbec.sound, by simp [carved, Grant.block, Grant.placed],
      snug_placed hb (hs.chain.size_aligned hm) hle, hs.size_eq hbec.sound hep⟩
  | none =>
    obtain ⟨pre, last, he⟩ := exists_endsIn hs.shape.separated
    cases hg : h.growthRefusal limit (h.growthFor last size) with
    | some cause => cases hrun.symm.trans (hs.acquire_refused hb hx he hg)
    | none =>
      obtain ⟨_, hrun', hbec, hep⟩ := hs.acquire_grown hb hx he hg
      obtain ⟨hgrant, rfl⟩ := Prod.mk.inj (Except.ok.inj (hrun.symm.trans hrun'))
      obtain rfl := Except.ok.inj hgrant
      exact ⟨_, _, hbec.sound, by simp [Grant.block, Grant.placed], .inl rfl,
        hs.size_eq hbec.sound hep⟩

/-- So is one that has changed its size where it is. -/
theorem Sound.resize_placed (hs : h.Sound cs ls) {b : TaggedBlock} (hb : b ∈ cs)
    (ha : b.2.status = .allocated) (hsz : BlockSize size) {done : Resized}
    (hrun : h.resize limit b.1 size = .ok (.ok done, h')) :
    h'.size = h.size + done.growth ∧ ((∃ old, done = .mustMove old) ∨
      ∃ cs' ls' new, h'.Sound cs' ls' ∧ (b.1, ⟨new, .allocated⟩) ∈ cs' ∧ Snug size new) := by
  obtain ⟨pre, prev, next, post, hr⟩ := exists_around hs.shape.separated hb
  have hn := hr.before_next
  obtain ⟨-, hmid, -⟩ := hn.tiles hs.chain
  by_cases hle : size ≤ roomSize b next
  · obtain ⟨_, hrun', hbec, hep⟩ := hs.resize_inPlace hn ha limit hsz hle
    obtain ⟨hdone, rfl⟩ := Prod.mk.inj (Except.ok.inj (hrun.symm.trans hrun'))
    obtain rfl := Except.ok.inj hdone
    have hroom : roomSize b next % alignment = 0 := by
      have hb := hs.chain.size_aligned hb
      cases next with
      | none => exact hb
      | some c =>
        have hc := hs.chain.size_aligned (b := c) (by simp [hn.blocks])
        simp only [roomSize, Option.map_some, Option.getD_some, alignment] at *
        omega
    exact ⟨hs.size_eq hbec.sound hep, .inr ⟨_, _, _, hbec.sound, by simp [carved],
      snug_placed hsz hroom hle⟩⟩
  · have hlt := Nat.lt_of_not_le hle
    by_cases hlast : post = []
    · cases hg : h.growthRefusal limit (size - roomSize b next) with
      | some cause => cases hrun.symm.trans (hs.resize_refused hn ha hlt hlast hg)
      | none =>
        obtain ⟨_, hrun', hbec, hep⟩ := hs.resize_grown hn ha hsz hlt hlast hg
        obtain ⟨hdone, rfl⟩ := Prod.mk.inj (Except.ok.inj (hrun.symm.trans hrun'))
        obtain rfl := Except.ok.inj hdone
        exact ⟨hs.size_eq hbec.sound hep, .inr ⟨_, _, size, hbec.sound, by simp, .inl rfl⟩⟩
    · obtain ⟨hdone, rfl⟩ :=
        Prod.mk.inj (Except.ok.inj (hrun.symm.trans (hs.resize_mustMove hn hlt hlast)))
      obtain rfl := Except.ok.inj hdone
      exact ⟨rfl, .inl ⟨_, rfl⟩⟩

end Heap

/-- The bytes that a request asks for. -/
def Request.bytes : Request → Option Nat
  | .allocate n => some n
  | .allocateZeroed count size => some (count * size)
  | .resize _ n => some n
  | _ => none

/-- The bytes of the last request that was granted with the allocation at `ptr`. -/
def requested (es : List Exchange) (ptr : Nat) : Option Nat :=
  es.reverse.findSome? fun e => if e.2 = .ok (some ptr) then e.1.bytes else none

/-- The block at `ptr` is allocated, and snug for a request of `n` bytes. -/
def Fitted (cs : List TaggedBlock) (ptr n : Nat) : Prop :=
  0 < n ∧ ∃ size placed, blockSizeFor n = some size ∧ (ptr, ⟨placed, .allocated⟩) ∈ cs ∧
    Snug size placed

/-- Only the block that is given up loses its fit. -/
theorem Fitted.of_swaps {cs cs' : List TaggedBlock} {gone : Option Nat} {new : Option TaggedBlock}
    {ptr n : Nat} (h : Fitted cs ptr n) (hsw : Heap.Swaps cs cs' gone new) (hg : gone ≠ some ptr) :
    Fitted cs' ptr n := by
  obtain ⟨hn, size, placed, hsize, hm, hsnug⟩ := h
  exact ⟨hn, size, placed, hsize, hsw.mem_of_mem hm rfl hg, hsnug⟩

namespace Allocator

open Heap

variable {a a' : Allocator} {cs cs' : List TaggedBlock} {ls ls' : Nat → List Nat} {b : TaggedBlock}
  {symbol : String} {ptr n size : Nat}

/-! ## Steps -/

theorem serve_fitted (hs : a.heap.Sound cs ls) (hs' : a'.heap.Sound cs' ls')
    (h : a.serve symbol n = .ok (.ok (some ptr), a')) : Fitted cs' ptr n := by
  have hn : n ≠ 0 := by
    rintro rfl
    cases h
  obtain ⟨size, _, hsize, hrun, hptr⟩ := serve_granted hn h
  obtain rfl := Option.some.inj hptr
  obtain ⟨grant, hgrant, rfl, -⟩ := acquire_granted hrun
  obtain ⟨_, _, hs₁, hm, hsnug, -⟩ := hs.acquire_placed (blockSizeFor_spec hsize).1 hgrant
  obtain rfl := hs₁.chain.unique hs'.chain
  exact ⟨Nat.pos_of_ne_zero hn, size, _, hsize, hm, hsnug⟩

/-- Clearing the payload leaves the block. -/
theorem serveZeroed_fitted (hs : a.heap.Sound cs ls) (hs' : a'.heap.Sound cs' ls')
    (h : a.serveZeroed n = .ok (.ok (some ptr), a')) : Fitted cs' ptr n := by
  obtain ⟨a₁, hserve, ⟨hnone, -⟩ | ⟨_, hptr, hclear⟩⟩ := serveZeroed_granted h
  · cases hnone
  · obtain rfl := Option.some.inj hptr
    obtain ⟨c, cs₁, ls₁, rfl, h₁, -⟩ := serve_block hs hserve
    obtain ⟨m, hm, h₂, -⟩ := clear_spec h₁
    obtain rfl := Except.ok.inj (hclear.symm.trans hm)
    obtain rfl := h₂.sound.chain.unique hs'.chain
    exact serve_fitted hs h₁.sound hserve

/-- The old block goes, and the one that was served stays. -/
theorem move_fitted (hs : a.heap.Sound cs ls) (hs' : a'.heap.Sound cs' ls') (hb : b ∈ cs)
    (ha : b.2.status = .allocated) (hn : n ≠ 0) (hsize : blockSizeFor n = some size)
    (hlt : b.2.size < size) (h : a.move b.1 n size b.2.size = .ok (.ok (some ptr), a')) :
    Fitted cs' ptr n := by
  obtain ⟨target, a₁, copied, mem, a₂, hserve, hcopied, hcopy, hfree, htarget, hheap, -⟩ :=
    move_granted hn h
  obtain rfl := Option.some.inj htarget
  obtain ⟨c, cs₁, ls₁, rfl, hc, hb₁, -, hs₁, -, -, h₂⟩ :=
    move_copied hs hb ha hsize hlt hserve hcopied hcopy
  have hfit := serve_fitted hs hs₁ hserve
  obtain ⟨a₃, cs₃, ls₃, hfree', h₃⟩ := free_spec h₂.sound hb₁ ha "realloc"
  obtain ⟨-, rfl⟩ := Prod.mk.inj (Except.ok.inj (hfree.symm.trans hfree'))
  obtain rfl := (hheap ▸ h₃.sound).chain.unique hs'.chain
  have hne : c.1 ≠ b.1 := Ne.symm (h₂.swaps.fresh c rfl b hb ha (by simp))
  exact hfit.of_swaps h₃.swaps fun he => hne (Option.some.inj he).symm

theorem fit_fitted (hs : a.heap.Sound cs ls) (hs' : a'.heap.Sound cs' ls') (hb : b ∈ cs)
    (ha : b.2.status = .allocated) (hn : n ≠ 0)
    (h : a.fit b.1 n = .ok (.ok (some ptr), a')) : Fitted cs' ptr n := by
  obtain ⟨size, done, heap, hsize, hrun, hdone⟩ := fit_granted h
  obtain ⟨hsz, -⟩ := blockSizeFor_spec hsize
  -- In place, the block is the one that the heap has resized.
  have hplace : ptr = b.1 → a'.heap = heap → (∀ old, done ≠ .mustMove old) → Fitted cs' ptr n := by
    rintro rfl rfl hstay
    obtain ⟨-, ⟨old, hmove⟩ | ⟨_, _, new, hs₁, hm, hsnug⟩⟩ := hs.resize_placed hb ha hsz hrun
    · exact absurd hmove (hstay old)
    · obtain rfl := hs₁.chain.unique hs'.chain
      exact ⟨Nat.pos_of_ne_zero hn, size, new, hsize, hm, hsnug⟩
  cases done with
  | inPlace | grown => exact hplace (Option.some.inj hdone.1) hdone.2.1 fun _ => by simp
  | mustMove old =>
    rcases hs.resize hb ha hsz a.limit with ⟨_, hrun'⟩ | ⟨hrun', hlt⟩ |
      ⟨_, _, _, _, _, hrun', -, -, -, hplaced⟩
    · cases hrun.symm.trans hrun'
    · cases hrun.symm.trans hrun'
      exact move_fitted hs hs' hb ha hn hsize hlt hdone
    · cases hrun.symm.trans hrun'
      rcases hplaced with hplaced | ⟨_, _, hplaced, -⟩ <;> cases hplaced

/-- Whatever the request, the block that it is granted is snug. -/
theorem perform_fitted {live : List Nat} {r : Request} (ht : a.Tracks live cs ls)
    (hs' : a'.heap.Sound cs' ls') (hlegal : ∀ ptr, r.pointer = some ptr → ptr ∈ live)
    (h : a.perform r = .ok (.ok (some ptr), a')) : ∃ n, r.bytes = some n ∧ Fitted cs' ptr n := by
  have hs := ht.sound
  cases r with
  | allocate n => exact ⟨n, rfl, serve_fitted hs hs' (settle_eq_ok h)⟩
  | allocateZeroed count size =>
    rw [perform, allocateZeroed] at h
    split at h
    · exact ⟨count * size, rfl, serveZeroed_fitted hs hs' (settle_eq_ok h)⟩
    · cases h
  | release p =>
    obtain ⟨⟨result, _⟩, -, h⟩ := bind_eq_ok.mp h
    cases result <;> cases h
  | write p i part =>
    obtain ⟨⟨result, _⟩, -, h⟩ := bind_eq_ok.mp h
    cases result <;> cases h
  | read p i m =>
    obtain ⟨result, -, h⟩ := bind_eq_ok.mp h
    cases result <;> cases h
  | resize p n =>
    refine ⟨n, rfl, ?_⟩
    cases p with
    | none =>
      obtain ⟨a₁, hserve, hheap, -⟩ := change_none_granted (settle_eq_ok h)
      exact serve_fitted hs (hheap ▸ hs') hserve
    | some p =>
      obtain ⟨b, hb, ha, rfl⟩ := (ht.live p).mp (hlegal p rfl)
      have h : a.change (some b.1) n = _ := settle_eq_ok h
      by_cases hn : n = 0
      · subst hn
        obtain ⟨_, -, hnone, -⟩ := change_zero_granted h
        cases hnone
      · rw [change_some hn] at h
        exact fit_fitted hs hs' hb ha hn h

/-! ## Runs -/

variable {settings : Settings} {es : List Exchange} {live : List Nat}

/-- An exchange that is not granted with `ptr` leaves what was last requested for it. -/
theorem requested_concat (e : Exchange) :
    requested (es ++ [e]) ptr =
      (if e.2 = .ok (some ptr) then e.1.bytes else none).or (requested es ptr) := by
  simp only [requested, List.reverse_append, List.reverse_singleton, List.singleton_append,
    List.findSome?_cons]
  cases if e.2 = .ok (some ptr) then e.1.bytes else none <;> rfl

/-- The block that a request gets is the one that it is answered, or was there before. -/
theorem Done.answer_or_mem {new : Option TaggedBlock} {answer : Option Nat} {r : Request}
    (h : Done a cs new a' answer r) {c : TaggedBlock} (hc : new = some c) :
    answer = some c.1 ∨ c ∈ cs := by
  subst hc
  cases r with
  | allocate | allocateZeroed | resize => exact .inl h.1
  | release => cases h.2
  | write =>
    obtain ⟨-, d, hd, -, hnew, -⟩ := h
    exact .inr (Option.some.inj hnew ▸ hd)
  | read =>
    obtain ⟨-, -, d, hd, -, hnew⟩ := h
    exact .inr (Option.some.inj hnew ▸ hd)

/-- Every live allocation is snug for what was last requested for it. -/
theorem History.fitted (h : History settings es a live) :
    ∃ cs ls, a.Tracks live cs ls ∧
      ∀ ptr ∈ live, ∃ n, requested es ptr = some n ∧ Fitted cs ptr n := by
  induction h with
  | start h => exact ⟨_, _, (ofSettings_spec h).1, by simp⟩
  | @step es a a' live r result _ legal hrun ih =>
    obtain ⟨cs, ls, ht, hall⟩ := ih
    rcases perform_spec ht legal (fits_of_perform ht legal hrun) with ⟨e, _, hrun', hr⟩ |
      ⟨answer, new, _, cs', ls', hrun', hout, hdone⟩
    · cases hrun.symm.trans hrun'
      refine ⟨cs, ls, ⟨hr.heap ▸ ht.sound, ht.live⟩, fun ptr hptr => ?_⟩
      rw [requested_concat, if_neg (by simp)]
      exact hall ptr hptr
    · cases hrun.symm.trans hrun'
      have ht' := hout.tracks ht legal hdone
      refine ⟨cs', ls', ht', fun ptr hptr => ?_⟩
      rw [requested_concat]
      by_cases hanswer : answer = some ptr
      · subst hanswer
        obtain ⟨n, hn, hfit⟩ := perform_fitted ht hout.sound legal hrun
        exact ⟨n, by simp [hn], hfit⟩
      · -- The allocation was live before, and its block is still there.
        obtain ⟨⟨x, tag⟩, hc, hac, rfl⟩ := (ht'.live ptr).mp hptr
        have hcs : (x, tag) ∈ cs := ((hout.swaps.mem _ hac).mp hc).elim
          (fun hnew => (hdone.answer_or_mem hnew).resolve_left hanswer) And.left
        obtain ⟨n, hn, hpos, size, placed, hsize, hm, hsnug⟩ :=
          hall x ((ht.live x).mpr ⟨_, hcs, hac, rfl⟩)
        cases ht.sound.chain.tiles.eq_of_offset hm hcs rfl
        exact ⟨n, by simp [hanswer, hn], hpos, size, placed, hsize, hc, hsnug⟩

/-- The block size for a request is the bytes asked for, rounded up, and two tags. -/
theorem blockSizeFor_eq (hn : 0 < n) (h : blockSizeFor n = some size) :
    ∃ up, alignUp n = some up ∧ size = up + overhead := by
  obtain ⟨up, hup, h⟩ := Option.bind_eq_some_iff.mp h
  refine ⟨up, hup, ?_⟩
  -- A payload of one byte or more takes eight, so the least block is no exception.
  have hpos : alignment ≤ up := by
    unfold alignUp at hup
    split at hup
    · obtain rfl := Option.some.inj hup
      simp only [alignment] at *
      omega
    · cases hup
  split at h
  · obtain rfl := Option.some.inj h
    simp only [alignment, overhead, minBlock] at *
    omega
  · cases h

/-- In every run, the payload of a live allocation is what was last requested for it, rounded up
to eight bytes, or eight bytes more. -/
theorem History.slack_bounded (h : History settings es a live) (hptr : ptr ∈ live) :
    ∃ n up usable, requested es ptr = some n ∧ 0 < n ∧ alignUp n = some up ∧
      a.usable ptr = .ok (.ok usable) ∧ (usable = up ∨ usable = up + alignment) := by
  obtain ⟨cs, ls, ht, hall⟩ := h.fitted
  obtain ⟨n, hn, hpos, size, placed, hsize, hm, hsnug⟩ := hall ptr hptr
  obtain ⟨up, hup, rfl⟩ := blockSizeFor_eq hpos hsize
  refine ⟨n, up, _, hn, hpos, hup, usable_allocated ht.sound hm rfl, ?_⟩
  show placed - overhead = up ∨ placed - overhead = up + alignment
  simp only [Snug, overhead, alignment] at *
  omega

/-- A block of 32 bytes is released and taken again for 16 bytes, and then its neighbour goes. -/
def slackRun : List Request :=
  [.allocate 24, .allocate 8, .release 112, .allocate 16, .release 144]

/-- The rest of eight bytes cannot stand alone, so the payload has 24 bytes. -/
theorem slack_bounded_session :
    ∃ es a, es.map Prod.fst = slackRun ∧ History {} es a [112] ∧
      a.usable 112 = .ok (.ok 24) ∧
      ∃ n up, requested es 112 = some n ∧ 0 < n ∧ alignUp n = some up ∧
        (24 = up ∨ 24 = up + alignment) := by
  have hall : (session {} slackRun).map
      (fun s => decide (s.2 = [112] ∧ s.1.usable 112 = .ok (.ok 24))) = some true := by
    decide +kernel
  obtain ⟨⟨a, live⟩, hrun, hfacts⟩ := Option.map_eq_some_iff.mp hall
  obtain ⟨rfl, husable⟩ := of_decide_eq_true hfacts
  obtain ⟨es, hes, h⟩ := History.of_session hrun
  obtain ⟨n, up, usable, hn, hpos, hup, husable', hslack⟩ :=
    History.slack_bounded h (List.mem_singleton_self 112)
  obtain rfl := Except.ok.inj (Except.ok.inj (husable'.symm.trans husable))
  exact ⟨es, a, hes, h, husable, n, up, hn, hpos, hup, hslack⟩

end Allocator

end SegFit
