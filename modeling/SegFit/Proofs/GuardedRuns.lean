/-
  Runs with all of their arithmetic guarded.  As long as clients pass pointers of live
  allocations only, a guarded request ends as the plain one does: the heap operations agree by
  themselves, and the counters never overflow or stop at zero since they are the figures on the
  heap (`perform_guarded`).  The arena stays within its limit and never shrinks
  (`Strained.guarded`).
-/
import SegFit.Guarded.Allocator
import SegFit.Proofs.Accounts
import SegFit.Proofs.Answers
import SegFit.Proofs.GuardedHeap
import SegFit.Proofs.Runs

namespace SegFit

namespace Allocator

open Heap

variable {a a' a'' : Allocator} {cs cs' : List TaggedBlock} {ls ls' : Nat → List Nat}
  {b : TaggedBlock} {symbol : String} {ptr n size : Nat}

/-! ## Counters -/

theorem guardedCount_eq (hblocks : a.liveBlocks + 1 ≤ maxWord)
    (hbytes : a.liveBytes + n ≤ maxWord) :
    a.guardedCount n = .ok (a.countBlock n) := by
  unfold guardedCount
  rw [offset_of_le_maxWord (by omega), ok_bind, offset_of_le_maxWord (by omega)]
  rfl

theorem guardedDiscount_eq (hblocks : 1 ≤ a.liveBlocks) (hbytes : n ≤ a.liveBytes) :
    a.guardedDiscount n = .ok (a.discountBlock n) := by
  unfold guardedDiscount
  rw [difference_of_le hblocks, ok_bind, difference_of_le hbytes]
  rfl

theorem guardedRecount_eq {old new : Nat} (hsum : a.liveBytes + new ≤ 2 * maxWord)
    (hle : old ≤ a.liveBytes) : a.guardedRecount old new = .ok (a.recountBlock old new) := by
  unfold guardedRecount
  rw [offset_of_le_maxWord hsum, ok_bind, difference_of_le (by omega)]
  rfl

/-- From `a` to `a'` the counters have followed the heap, which has kept to its limit. -/
structure Audited (a a' : Allocator) : Prop where
  tally : ∀ cs', a'.heap.Chain firstBlock cs' → a'.Tally cs'
  grows : a.heap.Grows a.limit a'.heap

theorem Audited.refl (hc : a.heap.Chain firstBlock cs) (ht : a.Tally cs) : Audited a a :=
  ⟨fun _ hc' => hc'.unique hc ▸ ht, .of_size_eq rfl⟩

/-- Only the heap and the counters matter. -/
theorem Audited.congr (h : Audited a a') (hheap : a''.heap = a'.heap)
    (hblocks : a''.liveBlocks = a'.liveBlocks) (hbytes : a''.liveBytes = a'.liveBytes) :
    Audited a a'' := by
  refine ⟨fun cs' hc' => ?_, hheap ▸ h.grows⟩
  have ht := h.tally cs' (hheap ▸ hc')
  exact ⟨hblocks.trans ht.blocks, hbytes.trans ht.bytes⟩

theorem Audited.note (h : Audited a a') (e : Entry) : Audited a (a'.note e) :=
  h.congr rfl rfl rfl

/-! ## Steps -/

theorem noteGrowth_counts (a : Allocator) (symbol : String) (grant : Grant) :
    (a.noteGrowth symbol grant).heap = a.heap ∧
      (a.noteGrowth symbol grant).liveBlocks = a.liveBlocks ∧
      (a.noteGrowth symbol grant).liveBytes = a.liveBytes := by
  cases grant <;> exact ⟨rfl, rfl, rfl⟩

theorem acquire_guarded (hs : a.heap.Sound cs ls) (ht : a.Tally cs) (hsz : BlockSize size)
    {result : Except Refusal Nat} (h : a.acquire symbol size = .ok (result, a')) :
    a.guardedAcquire symbol size = .ok (result, a') ∧ Audited a a' := by
  obtain ⟨⟨outcome, heap⟩, hrun, h⟩ := bind_eq_ok.mp h
  obtain ⟨hrun', hgrows⟩ := guardedAcquire_of_ok (Nat.le_of_eq hs.span) hs.small hrun
  unfold guardedAcquire
  rw [hrun', ok_bind]
  rcases hs.acquire hsz a.limit with ⟨cause, hno⟩ | ⟨grant, _, cs', ls', hyes, hbec, hsw, -⟩
  · obtain ⟨rfl, rfl⟩ := Prod.mk.inj (Except.ok.inj (hrun.symm.trans hno))
    cases h
    exact ⟨rfl, (Audited.refl hs.chain ht).congr rfl rfl rfl⟩
  · obtain ⟨rfl, rfl⟩ := Prod.mk.inj (Except.ok.inj (hrun.symm.trans hyes))
    cases h
    dsimp only
    obtain ⟨hheap, hblocks, hbytes⟩ := { a with heap }.noteGrowth_counts symbol grant
    generalize { a with heap }.noteGrowth symbol grant = a₁ at hheap hblocks hbytes
    have hs' : (a₁.countBlock (grant.placed size)).heap.Sound cs' ls' := hheap ▸ hbec.sound
    have ht' : (a₁.countBlock (grant.placed size)).Tally cs' :=
      ht.of_swaps none (some (grant.block, ⟨grant.placed size, .allocated⟩)) hsw hs.chain hs'.chain
        (by simp) (congrArg (· + 1) hblocks) (congrArg (· + grant.placed size) hbytes)
    obtain ⟨hb, hy⟩ := ht'.le_maxWord hs'
    refine ⟨?_, Audited.note ⟨fun _ hc => hc.unique hs'.chain ▸ ht', hheap ▸ hgrows⟩ _⟩
    rw [guardedCount_eq hb hy]
    rfl

theorem serve_guarded (hs : a.heap.Sound cs ls) (ht : a.Tally cs)
    {result : Except Refusal (Option Nat)} (h : a.serve symbol n = .ok (result, a')) :
    a.guardedServe symbol n = .ok (result, a') ∧ Audited a a' := by
  have haud := Audited.refl hs.chain ht
  unfold serve sizeFor at h
  unfold guardedServe sizeFor
  by_cases hn : n = 0
  · rw [if_pos hn] at h ⊢
    cases h
    exact ⟨rfl, haud.note _⟩
  · rw [if_neg hn] at h ⊢
    cases hsize : blockSizeFor n with
    | none =>
      rw [hsize] at h
      cases h
      exact ⟨rfl, haud.note _⟩
    | some size =>
      rw [hsize] at h
      obtain ⟨⟨taken, a₁⟩, hrun, h⟩ := bind_eq_ok.mp h
      cases h
      obtain ⟨hrun', haud'⟩ := acquire_guarded hs ht (blockSizeFor_spec hsize).1 hrun
      refine ⟨?_, haud'⟩
      show (a.guardedAcquire symbol size >>= fun r => _) = _
      rw [hrun']
      rfl

theorem guardAccept_allocated (hs : a.heap.Sound cs ls) (hb : b ∈ cs)
    (ha : b.2.status = .allocated) : a.guardAccept b.1 = .ok () := by
  unfold guardAccept
  split
  · exact guardLive_of_ok (Nat.le_of_eq hs.span) hs.small (hs.consistent.liveSize hb ha)
  · rfl

theorem free_guarded (hs : a.heap.Sound cs ls) (ht : a.Tally cs) (hb : b ∈ cs)
    (ha : b.2.status = .allocated) {result : Except Refusal Unit}
    (h : a.free symbol b.1 = .ok (result, a')) :
    a.guardedFree symbol b.1 = .ok (result, a') ∧ Audited a a' := by
  obtain ⟨done, heap, cs', ls', hrun, hfreed, hbec, hsw, -⟩ := hs.release_allocated hb ha
  unfold free at h
  rw [accept_allocated hs hb ha, ok_bind] at h
  simp only [hrun, ok_bind] at h
  cases h
  obtain ⟨hrun', hsize⟩ := guardedRelease_of_ok hs.small hrun
  obtain ⟨hblocks, hbytes⟩ := ht.of_mem hb ha
  rw [← hfreed] at hbytes
  have ht' : ({ a with heap }.discountBlock done.freed).Tally cs' := by
    refine ht.of_swaps (some b) none hsw hs.chain hbec.sound.chain
      (fun x hx => Option.some.inj hx ▸ mem_allocations.mpr ⟨hb, ha⟩) ?_ ?_
    · show a.liveBlocks - 1 + 1 = a.liveBlocks + 0
      omega
    · show a.liveBytes - done.freed + (b.2.size + 0) = a.liveBytes + 0
      omega
  refine ⟨?_, Audited.note ⟨fun _ hc => hc.unique hbec.sound.chain ▸ ht', .of_size_eq hsize⟩ _⟩
  unfold guardedFree
  rw [guardAccept_allocated hs hb ha, ok_bind, accept_allocated hs hb ha, ok_bind]
  simp only [hrun', ok_bind]
  rw [guardedDiscount_eq (a := { a with heap }) hblocks hbytes]
  rfl

theorem move_guarded (hs : a.heap.Sound cs ls) (ht : a.Tally cs) (hb : b ∈ cs)
    (ha : b.2.status = .allocated) (hsize : blockSizeFor n = some size) (hlt : b.2.size < size)
    {result : Except Refusal (Option Nat)} (h : a.move b.1 n size b.2.size = .ok (result, a')) :
    a.guardedMove b.1 n size b.2.size = .ok (result, a') ∧ Audited a a' := by
  obtain ⟨⟨served, a₁⟩, hserve, h⟩ := bind_eq_ok.mp h
  obtain ⟨hserve', haud⟩ := serve_guarded hs ht hserve
  unfold guardedMove
  rw [hserve', ok_bind]
  cases served with
  | error e =>
    cases h
    exact ⟨rfl, haud⟩
  | ok block =>
    cases block with
    | none =>
      cases h
      exact ⟨rfl, haud⟩
    | some target =>
      obtain ⟨copied, hcopied, h⟩ := bind_eq_ok.mp h
      obtain ⟨mem, hcopy, h⟩ := bind_eq_ok.mp h
      obtain ⟨⟨freed, a₂⟩, hfree, h⟩ := bind_eq_ok.mp h
      obtain ⟨c, cs₁, ls₁, rfl, -, hb₁, -, hs₁, hmc, -, h₂⟩ :=
        move_copied hs hb ha hsize hlt hserve hcopied hcopy
      have ht₁ := haud.tally cs₁ hs₁.chain
      obtain ⟨hfree', haud₂⟩ := free_guarded h₂.sound ⟨ht₁.blocks, ht₁.bytes⟩ hb₁ ha hfree
      have hgrows : a.heap.Grows a.limit a₂.heap := by
        have hlimit : a₁.limit = a.limit := h₂.limit
        have hsame : a₁.heap.Grows a.limit ⟨mem, a₁.heap.epilog⟩ := .of_size_eq hmc.size
        exact (haud.grows.trans hsame).trans (hlimit ▸ haud₂.grows)
      have haud' : Audited a a₂ := ⟨haud₂.tally, hgrows⟩
      dsimp only
      rw [hcopied, ok_bind, hcopy, ok_bind, hfree', ok_bind]
      cases freed with
      | error e =>
        cases h
        exact ⟨rfl, haud'⟩
      | ok =>
        cases h
        exact ⟨rfl, haud'.note _⟩

/-- The counters can move from the old size of a block to its new one. -/
theorem recount_guarded (hs : a.heap.Sound cs ls) (ht : a.Tally cs) (hb : b ∈ cs)
    (ha : b.2.status = .allocated) (a₁ : Allocator) {new : Nat}
    (hsw : Swaps cs cs' (some b.1) (some (b.1, ⟨new, .allocated⟩))) (hs' : a₁.heap.Sound cs' ls')
    (hgrows : a.heap.Grows a.limit a₁.heap) (hblocks : a₁.liveBlocks = a.liveBlocks)
    (hbytes : a₁.liveBytes = a.liveBytes) :
    a₁.guardedRecount b.2.size new = .ok (a₁.recountBlock b.2.size new) ∧
      Audited a (a₁.recountBlock b.2.size new) := by
  have hle := (ht.of_mem hb ha).2
  have hs₁ : (a₁.recountBlock b.2.size new).heap.Sound cs' ls' := hs'
  have ht₁ : (a₁.recountBlock b.2.size new).Tally cs' := by
    refine ht.of_swaps (some b) (some (b.1, ⟨new, .allocated⟩)) hsw hs.chain hs₁.chain
      (fun x hx => Option.some.inj hx ▸ mem_allocations.mpr ⟨hb, ha⟩)
      (congrArg (· + 1) hblocks) ?_
    show a₁.liveBytes + new - b.2.size + (b.2.size + 0) = a.liveBytes + (new + 0)
    omega
  have hbound : a₁.liveBytes + new - b.2.size ≤ maxWord := (ht₁.le_maxWord hs₁).2
  have hold := (ht.le_maxWord hs).2
  exact ⟨guardedRecount_eq (by omega) (by omega), fun _ hc => hc.unique hs₁.chain ▸ ht₁, hgrows⟩

theorem fit_guarded (hs : a.heap.Sound cs ls) (ht : a.Tally cs) (hb : b ∈ cs)
    (ha : b.2.status = .allocated) {result : Except Refusal (Option Nat)}
    (h : a.fit b.1 n = .ok (result, a')) :
    a.guardedFit b.1 n = .ok (result, a') ∧ Audited a a' := by
  have haud := Audited.refl hs.chain ht
  unfold fit at h
  unfold guardedFit
  rw [guardAccept_allocated hs hb ha, ok_bind]
  rw [accept_allocated hs hb ha, ok_bind] at h ⊢
  simp only [sizeFor] at h ⊢
  cases hsize : blockSizeFor n with
  | none =>
    simp only [hsize] at h ⊢
    cases h
    exact ⟨rfl, haud.note _⟩
  | some size =>
    simp only [hsize] at h ⊢
    obtain ⟨⟨outcome, heap⟩, hrun, h⟩ := bind_eq_ok.mp h
    obtain ⟨hrun', hgrows⟩ := guardedResize_of_ok (Nat.le_of_eq hs.span) hs.small hrun
    rw [hrun', ok_bind]
    rcases hs.resize hb ha (blockSizeFor_spec hsize).1 a.limit with ⟨cause, hno⟩ | ⟨hstay, hlt⟩ |
      ⟨done, _, cs', ls', new, hyes, hbec, hsw, -, hdone⟩
    · obtain ⟨rfl, rfl⟩ := Prod.mk.inj (Except.ok.inj (hrun.symm.trans hno))
      cases h
      exact ⟨rfl, haud.note _⟩
    · obtain ⟨rfl, rfl⟩ := Prod.mk.inj (Except.ok.inj (hrun.symm.trans hstay))
      exact move_guarded hs ht hb ha hsize hlt h
    · obtain ⟨rfl, rfl⟩ := Prod.mk.inj (Except.ok.inj (hrun.symm.trans hyes))
      rcases hdone with rfl | ⟨absorbed, growth, rfl, rfl⟩
      · cases h
        obtain ⟨hok, haud'⟩ := recount_guarded hs ht hb ha { a with heap } hsw hbec.sound hgrows
          rfl rfl
        refine ⟨?_, haud'.note _⟩
        dsimp only
        rw [hok]
        rfl
      · cases h
        obtain ⟨hok, haud'⟩ := recount_guarded hs ht hb ha
          ({ a with heap }.note (.grew "realloc" growth heap.size)) hsw hbec.sound hgrows rfl rfl
        refine ⟨?_, haud'.note _⟩
        dsimp only
        rw [hok]
        rfl

theorem change_guarded (hs : a.heap.Sound cs ls) (ht : a.Tally cs) (hb : b ∈ cs)
    (ha : b.2.status = .allocated) {result : Except Refusal (Option Nat)}
    (h : a.change (some b.1) n = .ok (result, a')) :
    a.guardedChange (some b.1) n = .ok (result, a') ∧ Audited a a' := by
  unfold change at h
  unfold guardedChange
  dsimp only at h ⊢
  split at h
  · rw [if_pos ‹_›]
    obtain ⟨⟨freed, a₁⟩, hfree, h⟩ := bind_eq_ok.mp h
    obtain ⟨hfree', haud⟩ := free_guarded hs ht hb ha hfree
    rw [hfree', ok_bind]
    cases freed with
    | error e =>
      cases h
      exact ⟨rfl, haud⟩
    | ok =>
      cases h
      exact ⟨rfl, haud.note _⟩
  · rw [if_neg ‹_›]
    exact fit_guarded hs ht hb ha h

theorem change_none_guarded (hs : a.heap.Sound cs ls) (ht : a.Tally cs)
    {result : Except Refusal (Option Nat)} (h : a.change none n = .ok (result, a')) :
    a.guardedChange none n = .ok (result, a') ∧ Audited a a' := by
  obtain ⟨⟨served, a₁⟩, hserve, h⟩ := bind_eq_ok.mp h
  obtain ⟨hserve', haud⟩ := serve_guarded hs ht hserve
  show (a.guardedServe "realloc" n >>= fun r => _) = _ ∧ _
  rw [hserve', ok_bind]
  cases served with
  | error e =>
    cases h
    exact ⟨rfl, haud⟩
  | ok block =>
    cases h
    exact ⟨rfl, haud.note _⟩

theorem serveZeroed_guarded (hs : a.heap.Sound cs ls) (ht : a.Tally cs)
    {result : Except Refusal (Option Nat)} (h : a.serveZeroed n = .ok (result, a')) :
    a.guardedServeZeroed n = .ok (result, a') ∧ Audited a a' := by
  obtain ⟨⟨served, a₁⟩, hserve, h⟩ := bind_eq_ok.mp h
  obtain ⟨hserve', haud⟩ := serve_guarded hs ht hserve
  unfold guardedServeZeroed
  rw [hserve', ok_bind]
  cases served with
  | error e =>
    cases h
    exact ⟨rfl, haud⟩
  | ok block =>
    cases block with
    | none =>
      cases h
      exact ⟨rfl, haud⟩
    | some ptr =>
      obtain ⟨a₂, hclear, h⟩ := bind_eq_ok.mp h
      cases h
      obtain ⟨c, cs₁, ls₁, rfl, h₁, -⟩ := serve_block hs hserve
      obtain ⟨m, hm, h₂, hmc, -⟩ := clear_spec h₁
      obtain rfl := Except.ok.inj (hm.symm.trans hclear)
      have ht₁ := haud.tally cs₁ h₁.sound.chain
      refine ⟨?_, fun _ hc => hc.unique h₂.sound.chain ▸ ⟨ht₁.blocks, ht₁.bytes⟩,
        haud.grows.trans (.of_size_eq hmc.size)⟩
      dsimp only
      rw [hclear]
      rfl

/-! ## Requests -/

theorem guardVerify_eq (hs : a.heap.Sound cs ls) : a.guardVerify = .ok () := by
  unfold guardVerify
  split
  · exact hs.consistent.guardCheck (Nat.le_of_eq hs.span) hs.small
  · rfl

theorem guardedSettle_eq {α : Type} {x : Except Fault (Reply α)} {result : Except Refusal α}
    (hx : x = .ok (result, a)) (hs : a.heap.Sound cs ls) : guardedSettle x = .ok (result, a) := by
  have hlift : lift x = .ok (result, a) := by
    rw [hx]
    rfl
  unfold guardedSettle
  rw [hlift, ok_bind]
  dsimp only
  rw [guardVerify_eq hs]
  exact settle_ok hx hs

theorem guardPayload_eq (hs : a.heap.Sound cs ls) (hb : b ∈ cs) (ha : b.2.status = .allocated) :
    a.guardPayload b.1 = .ok () := by
  have hin := hs.consistent.payload_le hb
  have hsmall : a.heap.mem.size ≤ maxWord := hs.small
  unfold guardPayload
  rw [guardLive_of_ok (Nat.le_of_eq hs.span) hs.small (hs.consistent.liveSize hb ha), ok_bind,
    payloadSize_allocated hs hb ha, ok_bind]
  dsimp only
  rw [offset_of_le_maxWord (by omega)]
  rfl

variable {live : List Nat}

/-- A request that names a live allocation, if it names one, ends guarded as it does without. -/
theorem perform_guarded (ht : a.Tracks live cs ls) (hc : a.Tally cs) {r : Request}
    (hlegal : ∀ ptr, r.pointer = some ptr → ptr ∈ live) (hfits : r.Fits a)
    {result : Except Refusal (Option Nat)} (h : a.perform r = .ok (result, a'))
    (hs' : a'.heap.Sound cs' ls') :
    a.guardedPerform r = .ok (result, a') ∧ Audited a a' := by
  have hs := ht.sound
  have hblock : ∀ {ptr}, r.pointer = some ptr → ∃ b ∈ cs, b.2.status = .allocated ∧ b.1 = ptr :=
    fun hp => (ht.live _).mp (hlegal _ hp)
  have hsettle : ∀ {x : Except Fault (Reply (Option Nat))},
      x = .ok (result, a') ∧ Audited a a' → guardedSettle x = .ok (result, a') ∧ Audited a a' :=
    fun hx => ⟨guardedSettle_eq hx.1 hs', hx.2⟩
  cases r with
  | allocate n => exact hsettle (serve_guarded hs hc (settle_eq_ok h))
  | allocateZeroed count size =>
    rw [perform, allocateZeroed] at h
    unfold guardedPerform
    dsimp only
    split at h
    · rw [if_pos ‹_›]
      exact hsettle (serveZeroed_guarded hs hc (settle_eq_ok h))
    · rw [if_neg ‹_›, perform, allocateZeroed, if_neg ‹_›]
      cases h
      exact ⟨rfl, (Audited.refl hs.chain hc).note _⟩
  | release ptr =>
    obtain ⟨b, hb, ha, rfl⟩ := hblock rfl
    obtain ⟨⟨freed, a₁⟩, hrun, h⟩ := bind_eq_ok.mp h
    cases h
    obtain ⟨hrun', haud⟩ := free_guarded hs hc hb ha (settle_eq_ok hrun)
    refine ⟨?_, haud⟩
    show (guardedSettle (a.guardedFree "free" b.1) >>= fun r => _) = _
    rw [guardedSettle_eq hrun' hs']
    rfl
  | resize ptr n =>
    cases ptr with
    | none => exact hsettle (change_none_guarded hs hc (settle_eq_ok h))
    | some ptr =>
      obtain ⟨b, hb, ha, rfl⟩ := hblock rfl
      exact hsettle (change_guarded hs hc hb ha (settle_eq_ok h))
  | write ptr i part =>
    obtain ⟨b, hb, ha, rfl⟩ := hblock rfl
    have hguard : a.guardedPerform (.write b.1 i part) = a.perform (.write b.1 i part) := by
      show (lift (a.guardPayload b.1) >>= fun _ => _) = _
      rw [guardPayload_eq hs hb ha]
      rfl
    refine ⟨hguard.trans h, ?_⟩
    have hle := write_fits hs hb ha hfits
    obtain ⟨m, hrun, hout, hmc, -⟩ := writePayload_spec hs hb ha hle
    rw [perform, hrun] at h
    cases h
    exact ⟨fun _ hc' => hc'.unique hout.sound.chain ▸ ⟨hc.blocks, hc.bytes⟩, .of_size_eq hmc.size⟩
  | read ptr i n =>
    obtain ⟨b, hb, ha, rfl⟩ := hblock rfl
    have hguard : a.guardedPerform (.read b.1 i n) = a.perform (.read b.1 i n) := by
      show (lift (a.guardPayload b.1) >>= fun _ => _) = _
      rw [guardPayload_eq hs hb ha]
      rfl
    refine ⟨hguard.trans h, ?_⟩
    obtain ⟨_, -, h⟩ := bind_eq_ok.mp h
    obtain ⟨-, rfl⟩ := Prod.mk.inj (Except.ok.inj h)
    exact .refl hs.chain hc

/-- A request that names a live allocation, if it names one, and accesses payloads inside their
bounds: it ends, guarded or not, and all that is known of the allocator goes on. -/
theorem request_ends (ht : a.Tracks live cs ls) (hc : a.Tally cs) {r : Request}
    (hlegal : ∀ ptr, r.pointer = some ptr → ptr ∈ live) (hfits : r.Fits a) :
    ∃ result a' cs' ls', a.perform r = .ok (result, a') ∧ a.guardedPerform r = .ok (result, a') ∧
      a'.Tracks (match result with | .ok answer => r.live live answer | .error _ => live) cs' ls' ∧
      a'.Tally cs' ∧ a.heap.Grows a.limit a'.heap ∧ a'.limit = a.limit := by
  rcases perform_spec ht hlegal hfits with ⟨e, a', hrun, hr⟩ |
    ⟨answer, new, a', cs', ls', hrun, hout, hdone⟩
  · have hs' : a'.heap.Sound cs ls := hr.heap ▸ ht.sound
    obtain ⟨hrun', haud⟩ := perform_guarded ht hc hlegal hfits hrun hs'
    refine ⟨.error e, a', cs, ls, hrun, hrun', ⟨hs', ht.live⟩, haud.tally cs hs'.chain,
      haud.grows, ?_⟩
    obtain ⟨_, -, rfl⟩ := hr
    rfl
  · obtain ⟨hrun', haud⟩ := perform_guarded ht hc hlegal hfits hrun hout.sound
    exact ⟨.ok answer, a', cs', ls', hrun, hrun', hout.tracks ht hlegal hdone,
      haud.tally cs' hout.sound.chain, haud.grows, hout.limit⟩

/-! ## Runs short of memory -/

/-- The allocator while the system lets its arena grow up to `limit`. -/
def strain (a : Allocator) (limit : Nat) : Allocator :=
  { a with limit }

/-- The allocators that clients with the live allocations given can face, when every pointer
they passed was live at that moment, and the system may be short of memory: at each request it
decides how far the arena can grow, up to the limit of the settings. -/
inductive Strained (settings : Settings) : Allocator → List Nat → Prop where
  | start {a : Allocator} (h : ofSettings settings = .ok (.ok a)) : Strained settings a []
  | granted {a a' : Allocator} {allocations : List Nat} {r : Request} {answer : Option Nat}
      {limit : Nat} (before : Strained settings a allocations)
      (within : limit ≤ settings.heapLimit)
      (legal : ∀ ptr, r.pointer = some ptr → ptr ∈ allocations)
      (h : (a.strain limit).perform r = .ok (.ok answer, a')) :
      Strained settings a' (r.live allocations answer)
  | refused {a a' : Allocator} {allocations : List Nat} {r : Request} {e : Refusal}
      {limit : Nat} (before : Strained settings a allocations)
      (within : limit ≤ settings.heapLimit)
      (legal : ∀ ptr, r.pointer = some ptr → ptr ∈ allocations)
      (h : (a.strain limit).perform r = .ok (.error e, a')) :
      Strained settings a' allocations

variable {settings : Settings}

/-- A new allocator counts nothing, and has an arena within its limit. -/
theorem ofSettings_audited (h : ofSettings settings = .ok (.ok a)) :
    a.Tracks [] [] (fun _ => []) ∧ a.Tally [] ∧
      a.heap.size ≤ min settings.heapLimit maxWord := by
  obtain ⟨ht, -⟩ := ofSettings_spec h
  obtain ⟨-, -, hblocks, hbytes, hlimit⟩ := ofSettings_granted h
  have hend : firstBlock = a.heap.epilog + wordSize := ht.sound.chain.tiles
  have hspan := ht.sound.span
  refine ⟨ht, ⟨hblocks, hbytes⟩, Nat.le_min.mpr ⟨?_, ht.sound.small⟩⟩
  simp only [emptySize, firstBlock, prologEnd, epilogBytes, overhead, wordSize] at *
  omega

/-- In every state that clients can reach, also when memory is short, the live allocations are
the allocated blocks of a sound heap, the counters are their figures, and the arena is within
its limit. -/
theorem Strained.tracks (h : Strained settings a live) :
    ∃ cs ls, a.Tracks live cs ls ∧ a.Tally cs ∧ a.heap.size ≤ min settings.heapLimit maxWord := by
  -- One request more, refused or not.
  have hstep : ∀ {a a' : Allocator} {live : List Nat} {r : Request} {limit : Nat}
      {result : Except Refusal (Option Nat)},
      (∃ cs ls, a.Tracks live cs ls ∧ a.Tally cs ∧
        a.heap.size ≤ min settings.heapLimit maxWord) →
      limit ≤ settings.heapLimit → (∀ ptr, r.pointer = some ptr → ptr ∈ live) →
      (a.strain limit).perform r = .ok (result, a') →
      ∃ cs ls, a'.Tracks (match result with | .ok answer => r.live live answer | .error _ => live)
        cs ls ∧ a'.Tally cs ∧ a'.heap.size ≤ min settings.heapLimit maxWord := by
    rintro a a' live r limit result ⟨cs, ls, ht, hc, hsize⟩ hle hlegal hrun
    have ht' : (a.strain limit).Tracks live cs ls := ⟨ht.sound, ht.live⟩
    obtain ⟨_, _, cs', ls', hrun', -, htracks, htally, hgrows, -⟩ :=
      request_ends ht' ⟨hc.blocks, hc.bytes⟩ hlegal (fits_of_perform ht' hlegal hrun)
    obtain ⟨rfl, rfl⟩ := Prod.mk.inj (Except.ok.inj (hrun'.symm.trans hrun))
    refine ⟨cs', ls', htracks, htally, Nat.le_trans hgrows.bounded ?_⟩
    simp only [strain]
    omega
  induction h with
  | start h => exact ⟨_, _, ofSettings_audited h⟩
  | granted _ within legal hrun ih => exact hstep ih within legal hrun
  | refused _ within legal hrun ih => exact hstep ih within legal hrun

/-- A run in which memory is never short is one of these. -/
theorem Reachable.strained (h : Reachable settings a live) :
    Strained settings a live ∧ a.limit = settings.heapLimit := by
  have hlimit : ∀ {a a' : Allocator} {live : List Nat} {r : Request}
      {result : Except Refusal (Option Nat)}, Strained settings a live →
      (∀ ptr, r.pointer = some ptr → ptr ∈ live) → a.perform r = .ok (result, a') →
      a'.limit = a.limit := by
    intro a a' live r result h hlegal hrun
    obtain ⟨cs, ls, ht, hc, -⟩ := h.tracks
    obtain ⟨_, _, _, _, hrun', -, -, -, -, hl⟩ :=
      request_ends ht hc hlegal (fits_of_perform ht hlegal hrun)
    obtain ⟨-, rfl⟩ := Prod.mk.inj (Except.ok.inj (hrun'.symm.trans hrun))
    exact hl
  induction h with
  | start h => exact ⟨.start h, (ofSettings_granted h).2.1⟩
  | @granted a a' live r answer _ legal hrun ih =>
    obtain ⟨hst, hl⟩ := ih
    have hsame : a.strain settings.heapLimit = a := by rw [← hl]; rfl
    exact ⟨.granted hst (Nat.le_refl _) legal (hsame.symm ▸ hrun),
      (hlimit hst legal hrun).trans hl⟩
  | @refused a a' live r e _ legal hrun ih =>
    obtain ⟨hst, hl⟩ := ih
    have hsame : a.strain settings.heapLimit = a := by rw [← hl]; rfl
    exact ⟨.refused hst (Nat.le_refl _) legal (hsame.symm ▸ hrun),
      (hlimit hst legal hrun).trans hl⟩

/-- In every state that clients can reach the arena is within its limit and within what words
can address; and the next request ends in a reply, however much memory there is for it: with
all sums, differences, stored sizes and links, and counters guarded it ends alike, and the arena
has not shrunk and is still within its limit. -/
theorem Strained.guarded (h : Strained settings a live) :
    a.heap.size ≤ min settings.heapLimit maxWord ∧
    (∀ ptr ∈ live, ∃ n, a.usable ptr = .ok (.ok n)) ∧
    ∀ (r : Request) (limit : Nat), limit ≤ settings.heapLimit →
      (∀ ptr, r.pointer = some ptr → ptr ∈ live) → r.Fits a →
      ∃ result a', (a.strain limit).guardedPerform r = .ok (result, a') ∧
        (a.strain limit).perform r = .ok (result, a') ∧ a.heap.size ≤ a'.heap.size ∧
        a'.heap.size ≤ min settings.heapLimit maxWord := by
  obtain ⟨cs, ls, ht, hc, hsize⟩ := h.tracks
  refine ⟨hsize, fun ptr hptr => ?_, fun r limit hle hlegal hfits => ?_⟩
  · obtain ⟨b, hb, ha, rfl⟩ := (ht.live ptr).mp hptr
    exact ⟨_, usable_allocated ht.sound hb ha⟩
  · have ht' : (a.strain limit).Tracks live cs ls := ⟨ht.sound, ht.live⟩
    have hfits' : r.Fits (a.strain limit) := by cases r <;> exact hfits
    obtain ⟨result, a', _, _, hrun, hrun', -, -, hgrows, -⟩ :=
      request_ends ht' ⟨hc.blocks, hc.bytes⟩ hlegal hfits'
    refine ⟨result, a', hrun', hrun, hgrows.le, Nat.le_trans hgrows.bounded ?_⟩
    simp only [strain]
    omega

/-- A block that has to grow when there is no memory left. -/
theorem guarded_session :
    ∃ a, session {} [.allocate 8] = some (a, [112]) ∧ a.heap.size ≤ min defaultLimit maxWord ∧
      ∃ result a', (a.strain 0).guardedPerform (.resize (some 112) 100) = .ok (result, a') ∧
        a.heap.size ≤ a'.heap.size := by
  have hlive : (session {} [.allocate 8]).map Prod.snd = some [112] := by decide +kernel
  obtain ⟨⟨a, live⟩, hrun, rfl⟩ := Option.map_eq_some_iff.mp hlive
  obtain ⟨hsize, -, hnext⟩ := Strained.guarded (Reachable.of_session hrun).strained.1
  obtain ⟨result, a', hguarded, -, hle, -⟩ := hnext (.resize (some 112) 100) 0 (Nat.zero_le _)
    (fun ptr hp => by
      cases hp
      exact List.mem_singleton_self _) trivial
  exact ⟨a, hrun, hsize, result, a', hguarded, hle⟩

end Allocator

end SegFit
