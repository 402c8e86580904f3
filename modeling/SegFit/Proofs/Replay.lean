/-
  The journal tells the counters.  At the level of traces, every allocation, release and growth
  leaves a record of its own, made when the counters have just changed by what it tells
  (`Accounted`); so along any run, however often the journal is drained, the counters in each
  record are what the records up to it add up to (`Client.Reachable.replays`).
-/
import SegFit.Proofs.GuardedRuns
import SegFit.Proofs.Levels
import SegFit.Proofs.Placement

namespace SegFit

open Heap

/-! ## Adding up records -/

/-- The number of allocations that `rs` tells of. -/
def allocCount (rs : List Record) : Nat :=
  rs.countP fun r => r.entry.event = "alloc"

/-- The number of releases that `rs` tells of. -/
def freeCount (rs : List Record) : Nat :=
  rs.countP fun r => r.entry.event = "free"

/-- The bytes by which the heap has grown according to `rs`. -/
def growthSum (rs : List Record) : Nat :=
  ((rs.filter fun r => r.entry.event = "heap_grow").map fun r => r.entry.size.getD 0).sum

/-- The counters are what the records add up to. -/
structure Snapshot.Agrees (s : Snapshot) (rs : List Record) : Prop where
  blocks : s.liveBlocks + freeCount rs = allocCount rs
  size : s.heapSize = emptySize + growthSum rs

/-- The counters in every record are what the records up to it add up to. -/
def Replays (rs : List Record) : Prop :=
  ∀ pre r post, rs = pre ++ r :: post → r.snapshot.Agrees (pre ++ [r])

/-- An entry that tells of no allocation, release or growth. -/
def Entry.Idle (e : Entry) : Prop :=
  e.event ≠ "alloc" ∧ e.event ≠ "free" ∧ e.event ≠ "heap_grow"

/-- Counters that change by what one more record tells stay right. -/
theorem Snapshot.Agrees.concat {s t : Snapshot} {rs : List Record} {r : Record} (h : s.Agrees rs)
    (hblocks : t.liveBlocks + freeCount [r] = s.liveBlocks + allocCount [r])
    (hsize : t.heapSize = s.heapSize + growthSum [r]) : t.Agrees (rs ++ [r]) := by
  obtain ⟨h1, h2⟩ := h
  unfold allocCount freeCount at *
  unfold growthSum at *
  constructor
  · show t.liveBlocks + (rs ++ [r]).countP _ = (rs ++ [r]).countP _
    rw [List.countP_append, List.countP_append]
    omega
  · show t.heapSize = emptySize + (((rs ++ [r]).filter _).map _).sum
    rw [List.filter_append, List.map_append, List.sum_append]
    omega

theorem Replays.concat {rs : List Record} {r : Record} (h : Replays rs)
    (hr : r.snapshot.Agrees (rs ++ [r])) : Replays (rs ++ [r]) := by
  intro pre q post he
  rcases List.eq_nil_or_concat post with rfl | ⟨post, last, rfl⟩
  · obtain ⟨rfl, hlast⟩ := List.append_inj' he rfl
    obtain rfl := List.singleton_inj.mp hlast
    exact hr
  · have he : rs ++ [r] = pre ++ q :: post ++ [last] := by simpa using he
    exact h pre q post (List.append_inj' he rfl).1

namespace Allocator

/-- The records drained and those still in the journal of `a` tell its counters, at every record
and now. -/
structure Accounted (drained : List Record) (a : Allocator) : Prop where
  level : a.journal.minLevel = .trace
  past : Replays (drained ++ a.journal.records.toList)
  now : a.snapshot.Agrees (drained ++ a.journal.records.toList)

variable {drained : List Record} {a a' b : Allocator} {cs : List TaggedBlock} {ls : Nat → List Nat}
  {x : TaggedBlock} {e : Entry} {symbol : String} {n size : Nat}

/-! ## Entries -/

/-- A record is made when the counters have changed by what it tells. -/
theorem Accounted.note (h : Accounted drained a) (hj : b.journal = a.journal)
    (hblocks : ∀ i, b.liveBlocks + freeCount [⟨i, e, b.snapshot⟩] =
      a.liveBlocks + allocCount [⟨i, e, b.snapshot⟩])
    (hsize : ∀ i, b.heap.size = a.heap.size + growthSum [⟨i, e, b.snapshot⟩]) :
    Accounted drained (b.note e) := by
  have henabled : a.journal.enabled e.level = true :=
    Journal.enabled_iff.mpr (h.level ▸ Nat.zero_le _)
  have hrecords : drained ++ (b.note e).journal.records.toList =
      drained ++ a.journal.records.toList ++ [⟨a.journal.nextId, e, b.snapshot⟩] := by
    show drained ++ (b.journal.record e b.snapshot).records.toList = _
    rw [hj, Journal.records_record, if_pos henabled, List.append_assoc]
  have hnow : b.snapshot.Agrees
      (drained ++ a.journal.records.toList ++ [⟨a.journal.nextId, e, b.snapshot⟩]) :=
    h.now.concat (hblocks _) (hsize _)
  refine ⟨?_, hrecords ▸ h.past.concat hnow, hrecords ▸ hnow⟩
  show (b.journal.record e b.snapshot).minLevel = .trace
  rw [Journal.minLevel_record, hj, h.level]

/-- A block more. -/
theorem Accounted.note_allocated (h : Accounted drained a) (hj : b.journal = a.journal)
    (hblocks : b.liveBlocks = a.liveBlocks + 1) (hsize : b.heap.size = a.heap.size)
    (he : e.event = "alloc") : Accounted drained (b.note e) :=
  h.note hj (by simp [freeCount, allocCount, he, hblocks]) (by simp [growthSum, he, hsize])

/-- A block less. -/
theorem Accounted.note_freed (h : Accounted drained a) (hj : b.journal = a.journal)
    (hblocks : b.liveBlocks + 1 = a.liveBlocks) (hsize : b.heap.size = a.heap.size)
    (he : e.event = "free") : Accounted drained (b.note e) :=
  h.note hj (by simp [freeCount, allocCount, he, hblocks]) (by simp [growthSum, he, hsize])

/-- A larger heap. -/
theorem Accounted.note_grew (h : Accounted drained a) (hj : b.journal = a.journal)
    (hblocks : b.liveBlocks = a.liveBlocks) (hsize : b.heap.size = a.heap.size + n)
    (he : e.event = "heap_grow") (hn : e.size = some n) : Accounted drained (b.note e) :=
  h.note hj (by simp [freeCount, allocCount, he, hblocks]) (by simp [growthSum, he, hn, hsize])

/-- Nothing that the journal tells of. -/
theorem Accounted.note_idle (h : Accounted drained a) (hj : b.journal = a.journal)
    (hblocks : b.liveBlocks = a.liveBlocks) (hsize : b.heap.size = a.heap.size) (he : e.Idle) :
    Accounted drained (b.note e) := by
  obtain ⟨h1, h2, h3⟩ := he
  exact h.note hj (by simp [freeCount, allocCount, h1, h2, hblocks]) (by simp [growthSum, h3, hsize])

/-- Only the counters and the journal matter. -/
theorem Accounted.congr (h : Accounted drained a) (hj : b.journal = a.journal)
    (hblocks : b.liveBlocks = a.liveBlocks) (hsize : b.heap.size = a.heap.size) :
    Accounted drained b := by
  refine ⟨hj ▸ h.level, hj ▸ h.past, hj ▸ ?_⟩
  exact ⟨(congrArg (· + _) hblocks).trans h.now.blocks, hsize.trans h.now.size⟩

/-- Records that are taken out stay part of what is told. -/
theorem Accounted.drain (h : Accounted drained a) :
    Accounted (drained ++ a.drain.1) a.drain.2 := by
  have hrest : drained ++ a.drain.1 ++ a.drain.2.journal.records.toList =
      drained ++ a.journal.records.toList := List.append_nil _
  exact ⟨h.level, by rw [hrest]; exact h.past, by rw [hrest]; exact h.now⟩

/-! ## Steps -/

theorem acquire_accounted (h : Accounted drained a) (hs : a.heap.Sound cs ls) (hb : BlockSize size)
    {result : Except Refusal Nat} (hrun : a.acquire symbol size = .ok (result, a')) :
    Accounted drained a' := by
  obtain ⟨⟨outcome, heap⟩, hheap, hrun⟩ := bind_eq_ok.mp hrun
  cases outcome with
  | error cause =>
    cases hrun
    rcases hs.acquire hb a.limit with ⟨_, hno⟩ | ⟨_, _, _, _, hyes, -⟩
    · cases hheap.symm.trans hno
      exact h.note_idle rfl rfl rfl (by simp [Entry.Idle, Entry.outOfMemory])
    · cases hheap.symm.trans hyes
  | ok grant =>
    obtain ⟨_, _, -, -, -, hgrow⟩ := hs.acquire_placed hb hheap
    cases hrun
    cases grant with
    | reused => exact h.note_allocated rfl rfl hgrow rfl
    | grown block growth isLast =>
      have hgrown : Accounted drained ({ a with heap }.note (.grew symbol growth heap.size)) :=
        h.note_grew rfl rfl hgrow rfl rfl
      exact hgrown.note_allocated rfl rfl rfl rfl

theorem serve_accounted (h : Accounted drained a) (hs : a.heap.Sound cs ls)
    {result : Except Refusal (Option Nat)} (hrun : a.serve symbol n = .ok (result, a')) :
    Accounted drained a' := by
  unfold serve sizeFor at hrun
  split at hrun
  · cases hrun
    exact h.note_idle rfl rfl rfl (by simp [Entry.Idle, Entry.zeroSize])
  · cases hsize : blockSizeFor n with
    | none =>
      rw [hsize] at hrun
      cases hrun
      exact h.note_idle rfl rfl rfl (by simp [Entry.Idle, Entry.requestTooLarge])
    | some size =>
      rw [hsize] at hrun
      obtain ⟨⟨taken, a₁⟩, hrun₁, hrun⟩ := bind_eq_ok.mp hrun
      cases hrun
      exact acquire_accounted h hs (blockSizeFor_spec hsize).1 hrun₁

theorem free_accounted (h : Accounted drained a) (hs : a.heap.Sound cs ls) (hc : a.Tally cs)
    (hx : x ∈ cs) (hax : x.2.status = .allocated) {result : Except Refusal Unit}
    (hrun : a.free symbol x.1 = .ok (result, a')) : Accounted drained a' := by
  obtain ⟨done, heap, _, _, hheap, -⟩ := hs.release_allocated hx hax
  unfold free at hrun
  rw [accept_allocated hs hx hax, ok_bind] at hrun
  simp only [hheap, ok_bind] at hrun
  cases hrun
  exact h.note_freed rfl (Nat.sub_add_cancel (hc.of_mem hx hax).1)
    (guardedRelease_of_ok hs.small hheap).2 rfl

/-- A move tells of the new block and then of the old one. -/
theorem move_accounted (h : Accounted drained a) (hs : a.heap.Sound cs ls) (hc : a.Tally cs)
    (hx : x ∈ cs) (hax : x.2.status = .allocated) (hsize : blockSizeFor n = some size)
    (hlt : x.2.size < size) {result : Except Refusal (Option Nat)}
    (hrun : a.move x.1 n size x.2.size = .ok (result, a')) : Accounted drained a' := by
  obtain ⟨⟨served, a₁⟩, hserve, hrun⟩ := bind_eq_ok.mp hrun
  have h₁ := serve_accounted h hs hserve
  rcases served with e | _ | target
  · cases hrun
    exact h₁
  · cases hrun
    exact h₁
  · obtain ⟨copied, hdiff, hrun⟩ := bind_eq_ok.mp hrun
    obtain ⟨mem, hcopy, hrun⟩ := bind_eq_ok.mp hrun
    obtain ⟨⟨freed, a₂⟩, hfree, hrun⟩ := bind_eq_ok.mp hrun
    obtain ⟨c, cs₁, ls₁, rfl, -, hx₁, -, hs₁, hmc, -, h₂⟩ :=
      move_copied hs hx hax hsize hlt hserve hdiff hcopy
    have hc₁ := (serve_guarded hs hc hserve).2.tally cs₁ hs₁.chain
    have hcopied : Accounted drained { a₁ with heap := ⟨mem, a₁.heap.epilog⟩ } :=
      h₁.congr rfl rfl hmc.size
    have hfreed := free_accounted hcopied h₂.sound ⟨hc₁.blocks, hc₁.bytes⟩ hx₁ hax hfree
    cases freed with
    | error e =>
      cases hrun
      exact hfreed
    | ok =>
      cases hrun
      exact hfreed.note_idle rfl rfl rfl (by simp [Entry.Idle, Entry.moved])

theorem fit_accounted (h : Accounted drained a) (hs : a.heap.Sound cs ls) (hc : a.Tally cs)
    (hx : x ∈ cs) (hax : x.2.status = .allocated) {result : Except Refusal (Option Nat)}
    (hrun : a.fit x.1 n = .ok (result, a')) : Accounted drained a' := by
  unfold fit at hrun
  rw [accept_allocated hs hx hax, ok_bind] at hrun
  simp only [sizeFor] at hrun
  cases hsize : blockSizeFor n with
  | none =>
    simp only [hsize] at hrun
    cases hrun
    exact h.note_idle rfl rfl rfl (by simp [Entry.Idle, Entry.requestTooLarge])
  | some size =>
    simp only [hsize] at hrun
    obtain ⟨⟨outcome, heap⟩, hheap, hrun⟩ := bind_eq_ok.mp hrun
    have hsz := (blockSizeFor_spec hsize).1
    rcases hs.resize hx hax hsz a.limit with ⟨cause, hno⟩ | ⟨hstay, hlt⟩ |
      ⟨done, _, _, _, new, hyes, -, -, -, hdone⟩
    · cases hheap.symm.trans hno
      cases hrun
      exact h.note_idle rfl rfl rfl (by simp [Entry.Idle, Entry.outOfMemory])
    · cases hheap.symm.trans hstay
      exact move_accounted h hs hc hx hax hsize hlt hrun
    · cases hheap.symm.trans hyes
      obtain ⟨hgrow, -⟩ := hs.resize_placed hx hax hsz hheap
      rcases hdone with rfl | ⟨absorbed, growth, rfl, rfl⟩
      · cases hrun
        exact h.note_idle rfl rfl hgrow (by simp [Entry.Idle, Entry.resizedInPlace])
      · cases hrun
        have hgrown : Accounted drained ({ a with heap }.note (.grew "realloc" growth heap.size)) :=
          h.note_grew rfl rfl hgrow rfl rfl
        exact hgrown.note_idle rfl rfl rfl (by simp [Entry.Idle, Entry.resizedByGrowth])

theorem change_none_accounted (h : Accounted drained a) (hs : a.heap.Sound cs ls)
    {result : Except Refusal (Option Nat)} (hrun : a.change none n = .ok (result, a')) :
    Accounted drained a' := by
  obtain ⟨⟨served, a₁⟩, hserve, hrun⟩ := bind_eq_ok.mp hrun
  have h₁ := serve_accounted h hs hserve
  cases served with
  | error e =>
    cases hrun
    exact h₁
  | ok block =>
    cases hrun
    exact h₁.note_idle rfl rfl rfl (by simp [Entry.Idle, Entry.resizedNothing])

theorem change_accounted (h : Accounted drained a) (hs : a.heap.Sound cs ls) (hc : a.Tally cs)
    (hx : x ∈ cs) (hax : x.2.status = .allocated) {result : Except Refusal (Option Nat)}
    (hrun : a.change (some x.1) n = .ok (result, a')) : Accounted drained a' := by
  by_cases hn : n = 0
  · subst hn
    obtain ⟨⟨freed, a₁⟩, hfree, hrun⟩ := bind_eq_ok.mp hrun
    have h₁ := free_accounted h hs hc hx hax hfree
    cases freed with
    | error e =>
      cases hrun
      exact h₁
    | ok =>
      cases hrun
      exact h₁.note_idle rfl rfl rfl (by simp [Entry.Idle, Entry.resizedToNothing])
  · rw [change_some hn] at hrun
    exact fit_accounted h hs hc hx hax hrun

theorem serveZeroed_accounted (h : Accounted drained a) (hs : a.heap.Sound cs ls)
    {result : Except Refusal (Option Nat)} (hrun : a.serveZeroed n = .ok (result, a')) :
    Accounted drained a' := by
  obtain ⟨⟨served, a₁⟩, hserve, hrun⟩ := bind_eq_ok.mp hrun
  have h₁ := serve_accounted h hs hserve
  rcases served with e | _ | ptr
  · cases hrun
    exact h₁
  · cases hrun
    exact h₁
  · obtain ⟨a₂, hclear, hrun⟩ := bind_eq_ok.mp hrun
    cases hrun
    obtain ⟨c, _, _, rfl, hout, -⟩ := serve_block hs hserve
    obtain ⟨m, hm, -, hmc, -⟩ := clear_spec hout
    obtain rfl := Except.ok.inj (hm.symm.trans hclear)
    exact h₁.congr rfl rfl hmc.size

/-! ## Requests -/

variable {live : List Nat} {r : Request} {result : Except Refusal (Option Nat)}

/-- A request that names a live allocation, if it names one, leaves records of what it did. -/
theorem perform_accounted (h : Accounted drained a) (ht : a.Tracks live cs ls) (hc : a.Tally cs)
    (hlegal : ∀ ptr, r.pointer = some ptr → ptr ∈ live)
    (hrun : a.perform r = .ok (result, a')) : Accounted drained a' := by
  have hs := ht.sound
  have hblock : ∀ {ptr}, r.pointer = some ptr → ∃ x ∈ cs, x.2.status = .allocated ∧ x.1 = ptr :=
    fun hp => (ht.live _).mp (hlegal _ hp)
  have hfits := fits_of_perform ht hlegal hrun
  cases r with
  | allocate n => exact serve_accounted h hs (settle_eq_ok hrun)
  | allocateZeroed count size =>
    rw [perform, allocateZeroed] at hrun
    split at hrun
    · exact serveZeroed_accounted h hs (settle_eq_ok hrun)
    · cases hrun
      exact h.note_idle rfl rfl rfl (by simp [Entry.Idle, Entry.sizeOverflow])
  | release ptr =>
    obtain ⟨x, hx, hax, rfl⟩ := hblock rfl
    obtain ⟨⟨freed, a₁⟩, hrun₁, hrun⟩ := bind_eq_ok.mp hrun
    cases hrun
    exact free_accounted h hs hc hx hax (settle_eq_ok hrun₁)
  | resize ptr n =>
    cases ptr with
    | none => exact change_none_accounted h hs (settle_eq_ok hrun)
    | some ptr =>
      obtain ⟨x, hx, hax, rfl⟩ := hblock rfl
      exact change_accounted h hs hc hx hax (settle_eq_ok hrun)
  | write ptr i part =>
    obtain ⟨x, hx, hax, rfl⟩ := hblock rfl
    obtain ⟨m, hwrite, -, hmc, -⟩ := writePayload_spec hs hx hax (write_fits hs hx hax hfits)
    rw [perform, hwrite] at hrun
    cases hrun
    exact h.congr rfl rfl hmc.size
  | read ptr i n =>
    obtain ⟨_, -, hrun⟩ := bind_eq_ok.mp hrun
    obtain ⟨-, rfl⟩ := Prod.mk.inj (Except.ok.inj hrun)
    exact h

/-- Whatever the request, its records are numbered on. -/
theorem perform_numbered (h : Numbered drained a.journal)
    (hrun : a.perform r = .ok (result, a')) : Numbered drained a'.journal := by
  have hR : Recorded fun j _ => Numbered drained j := fun _ _ e s h => h.record e s
  have hboth : Concur (Beside fun j _ => Numbered drained j) (a.perform r) (a.perform r) :=
    Beside.perform hR ⟨rfl, rfl, rfl, rfl, rfl, rfl, h⟩ r
  rw [hrun] at hboth
  cases hboth with
  | answered _ h' => exact h'.journal

/-- A new allocator has told of its start. -/
theorem ofSettings_accounted {settings : Settings} (h : ofSettings settings = .ok (.ok a))
    (hl : settings.minLevel = .trace) : Accounted [] a ∧ Numbered [] a.journal := by
  have hsize : a.heap.size = emptySize := by
    obtain ⟨⟨hs, -⟩, -⟩ := ofSettings_spec h
    have hend : firstBlock = a.heap.epilog + wordSize := hs.chain.tiles
    have hspan := hs.span
    simp only [emptySize, firstBlock, prologEnd, epilogBytes, overhead, wordSize] at *
    omega
  rcases ofSettings_of_limit settings.heapLimit with ⟨e, he⟩ | ⟨-, heap, hok⟩
  · cases h.symm.trans (he settings rfl)
  · cases h.symm.trans (hok settings rfl)
    have hnew : Numbered [] (fresh heap settings).journal := ⟨rfl, rfl⟩
    have hbare : Accounted [] (fresh heap settings) :=
      ⟨hl, fun pre r post he => by simp [fresh, Journal.empty] at he, rfl, hsize⟩
    exact ⟨hbare.note_idle rfl rfl rfl (by simp [Entry.Idle, Entry.started]), hnew.record _ _⟩

end Allocator

/-! ## Runs -/

/-- What every call keeps: the live allocations are the allocated blocks of the heap, the counters
are their figures, and the records tell the counters. -/
structure Client.Told (c : Client) (live : List Nat) (cs : List TaggedBlock)
    (ls : Nat → List Nat) : Prop where
  tracks : c.allocator.Tracks live cs ls
  tally : c.allocator.Tally cs
  accounted : c.allocator.Accounted c.drained
  numbered : Numbered c.drained c.allocator.journal

namespace Client

open Allocator

variable {settings : Settings} {c c' : Client} {live : List Nat} {cs : List TaggedBlock}
  {ls : Nat → List Nat}

/-- One call more. -/
theorem Told.call {call : Call} {response : Response} (h : c.Told live cs ls)
    (hlegal : ∀ ptr, call.pointer = some ptr → ptr ∈ live)
    (hrun : c.call call = .ok (response, c')) :
    ∃ cs' ls', c'.Told (call.live live response) cs' ls' := by
  obtain ⟨ht, hc, ha, hn⟩ := h
  cases call with
  | request r =>
    obtain ⟨⟨result, a⟩, hperform, hrun⟩ := bind_eq_ok.mp hrun
    cases hrun
    obtain ⟨_, _, cs', ls', hends, -, ht', hc', -⟩ :=
      request_ends ht hc hlegal (fits_of_perform ht hlegal hperform)
    cases hperform.symm.trans hends
    refine ⟨cs', ls', ?_, hc', perform_accounted ha ht hc hlegal hperform,
      perform_numbered hn hperform⟩
    cases result <;> exact ht'
  | usable ptr =>
    obtain ⟨_, -, hrun⟩ := bind_eq_ok.mp hrun
    cases hrun
    exact ⟨cs, ls, ht, hc, ha, hn⟩
  | payload ptr =>
    obtain ⟨_, -, hrun⟩ := bind_eq_ok.mp hrun
    cases hrun
    exact ⟨cs, ls, ht, hc, ha, hn⟩
  | check =>
    -- The heap passes, so there is no record of a violation.
    have hpass : c.allocator.check = .ok (.ok (), c.allocator) := by
      unfold Allocator.check
      rw [ht.sound.check]
      rfl
    rw [Client.call, hpass] at hrun
    cases hrun
    exact ⟨cs, ls, ht, hc, ha, hn⟩
  | verify =>
    obtain ⟨a, hverify, hrun⟩ := bind_eq_ok.mp hrun
    obtain rfl := verify_eq_ok hverify
    cases hrun
    exact ⟨cs, ls, ht, hc, ha, hn⟩
  | drain =>
    cases hrun
    exact ⟨cs, ls, ⟨ht.sound, ht.live⟩, ⟨hc.blocks, hc.bytes⟩, ha.drain, hn.drain⟩

theorem Reachable.told (h : Reachable settings c live) (hl : settings.minLevel = .trace) :
    ∃ cs ls, c.Told live cs ls := by
  induction h with
  | start h =>
    obtain ⟨ht, hc, -⟩ := ofSettings_audited h
    obtain ⟨ha, hn⟩ := ofSettings_accounted h hl
    exact ⟨_, _, ht, hc, ha, hn⟩
  | call _ legal hrun ih =>
    obtain ⟨cs, ls, h⟩ := ih
    exact h.call legal hrun

/-- At the level of traces, the records of a run, those drained and then those still in the
journal, are numbered from 1 on as long as there are numbers; in every one of them the counters
are what the records up to it add up to, and those of the allocator are what all records add up
to. -/
theorem Reachable.replays (h : Reachable settings c live) (hl : settings.minLevel = .trace) :
    (c.records.length < UInt64.size →
      c.records.map Record.id = List.range' 1 c.records.length) ∧
    (∀ pre r post, c.records = pre ++ r :: post → r.snapshot.Agrees (pre ++ [r])) ∧
    c.allocator.snapshot.Agrees c.records := by
  obtain ⟨cs, ls, -, -, ha, hn⟩ := h.told hl
  refine ⟨fun hlen => ?_, ha.past, ha.now⟩
  rw [List.range'_eq_map_range]
  refine hn.ids.trans (List.map_congr_left fun i hi => ?_)
  have hi : i < c.records.length := List.mem_range.mp hi
  rw [recordNumber, Nat.mod_eq_of_lt (by omega)]
  omega

/-- A block is released after the records of its allocation were drained: the start, the growth of
the heap and the allocation, and then the release. -/
theorem replays_release :
    ∃ c live, session { minLevel := .trace }
        [.request (.allocate 8), .drain, .request (.release 112)] = some (c, live) ∧
      c.drained.length = 3 ∧ c.records.length = 4 ∧ c.records.map Record.id = List.range' 1 4 ∧
      (∀ pre r post, c.records = pre ++ r :: post → r.snapshot.Agrees (pre ++ [r])) ∧
      c.allocator.snapshot.Agrees c.records := by
  have hall : (session { minLevel := .trace }
      [.request (.allocate 8), .drain, .request (.release 112)]).map
      (fun s => decide (s.1.drained.length = 3 ∧ s.1.records.length = 4)) = some true := by
    decide +kernel
  obtain ⟨⟨c, live⟩, hrun, hfacts⟩ := Option.map_eq_some_iff.mp hall
  obtain ⟨hdrained, hlen⟩ := of_decide_eq_true hfacts
  obtain ⟨hids, hpast, hnow⟩ := Reachable.replays (.of_session hrun) rfl
  rw [hlen] at hids
  exact ⟨c, live, hrun, hdrained, hlen, hids (by decide), hpast, hnow⟩

end Client

end SegFit
