/-
  What an answered step has done.  The specifications of the steps begin with a sound heap; the
  lemmas here begin with an answer, and give the heap operation behind it, the counters after
  it, and for a refusal its kind: where the pointer is good, only a want of memory is left
  (`fit_shortage`).  Whether a request is served does not depend on the operation that makes it
  (`serve_granted_iff`).
-/
import SegFit.Proofs.Requests

namespace SegFit

/-- The refusals for want of memory. -/
def Refusal.Shortage : Refusal → Prop
  | .outOfMemory _ | .requestTooLarge _ => True
  | _ => False

namespace Allocator

open Heap

variable {a a' : Allocator} {cs : List TaggedBlock} {ls : Nat → List Nat} {b : TaggedBlock}
  {symbol : String} {ptr n size old : Nat} {answer : Option Nat} {e : Refusal}

/-! ## Verification -/

/-- Verification that passes has changed nothing. -/
theorem verify_eq_ok (h : a.verify = .ok a') : a' = a := by
  unfold verify check at h
  cases hc : a.heap.check with
  | error cause =>
    rw [hc] at h
    cases h
  | ok verdict =>
    rw [hc] at h
    cases verdict with
    | error v =>
      obtain ⟨_, hv, h⟩ := bind_eq_ok.mp h
      obtain rfl := Except.ok.inj hv
      obtain ⟨_, -, h⟩ := bind_eq_ok.mp h
      cases h
    | ok => exact (Except.ok.inj h).symm

/-- A step that can only end in a fault answers a run what it answers. -/
theorem lift_eq_ok {α : Type} {x : Except Fault α} {y : α} (h : lift x = .ok y) : x = .ok y := by
  cases x with
  | error cause => cases h
  | ok => exact congrArg Except.ok (Except.ok.inj h)

/-- An operation that is answered has ended as its step. -/
theorem settle_eq_ok {α : Type} {x : Except Fault (Reply α)} {reply : Reply α}
    (h : settle x = .ok reply) : x = .ok reply := by
  obtain ⟨⟨result, a⟩, hr, hrest⟩ := bind_eq_ok.mp h
  refine (lift_eq_ok hr).trans ?_
  dsimp only at hrest
  split at hrest
  · obtain ⟨a', ha, hrest⟩ := bind_eq_ok.mp hrest
    rw [verify_eq_ok ha] at hrest
    exact congrArg Except.ok (Except.ok.inj hrest)
  · exact congrArg Except.ok (Except.ok.inj hrest)

/-! ## Serving -/

/-- A block that was taken is one that the heap has granted. -/
theorem acquire_granted (h : a.acquire symbol size = .ok (.ok ptr, a')) :
    ∃ grant, a.heap.acquire a.limit size = .ok (.ok grant, a'.heap) ∧ ptr = grant.block ∧
      a'.liveBlocks = a.liveBlocks + 1 ∧ a'.liveBytes = a.liveBytes + grant.placed size := by
  obtain ⟨⟨result, heap⟩, hrun, h⟩ := bind_eq_ok.mp h
  cases result with
  | error cause => cases h
  | ok grant => cases grant <;> cases h <;> exact ⟨_, hrun, rfl, rfl, rfl⟩

theorem acquire_shortage (h : a.acquire symbol size = .ok (.error e, a')) : e.Shortage := by
  obtain ⟨⟨result, heap⟩, -, h⟩ := bind_eq_ok.mp h
  cases result with
  | error cause =>
    cases h
    trivial
  | ok grant => cases h

/-- What the heap grants, any operation can take. -/
theorem acquire_of_grant {grant : Grant} {heap : Heap}
    (h : a.heap.acquire a.limit size = .ok (.ok grant, heap)) (symbol : String) :
    ∃ a', a.acquire symbol size = .ok (.ok grant.block, a') := by
  unfold acquire
  rw [h]
  exact ⟨_, rfl⟩

/-- A request for bytes that is served gets a block of the size for it. -/
theorem serve_granted (hn : n ≠ 0) (h : a.serve symbol n = .ok (.ok answer, a')) :
    ∃ size ptr, blockSizeFor n = some size ∧ a.acquire symbol size = .ok (.ok ptr, a') ∧
      answer = some ptr := by
  unfold serve sizeFor at h
  rw [if_neg hn] at h
  cases hsize : blockSizeFor n with
  | none =>
    rw [hsize] at h
    cases h
  | some size =>
    rw [hsize] at h
    obtain ⟨⟨result, a₁⟩, hrun, h⟩ := bind_eq_ok.mp h
    cases result with
    | error e => cases h
    | ok ptr =>
      cases h
      exact ⟨size, ptr, rfl, hrun, rfl⟩

/-- The block that a request was served with. -/
theorem serve_block (hs : a.heap.Sound cs ls) (h : a.serve symbol n = .ok (.ok (some ptr), a')) :
    ∃ c cs' ls', c.1 = ptr ∧ Outcome a cs none (some c) a' cs' ls' ∧ Supplies n (some c) := by
  rcases serve_spec hs symbol n with ⟨e, _, hrun, -⟩ | ⟨new, _, cs', ls', hrun, hout, hsup⟩
  · cases hrun.symm.trans h
  · obtain ⟨hnew, rfl⟩ := Prod.mk.inj (Except.ok.inj (hrun.symm.trans h))
    obtain ⟨c, rfl, hc⟩ := Option.map_eq_some_iff.mp (Except.ok.inj hnew)
    exact ⟨c, cs', ls', hc, hout, hsup⟩

theorem serve_shortage (h : a.serve symbol n = .ok (.error e, a')) : e.Shortage := by
  unfold serve sizeFor at h
  split at h
  · cases h
  · cases hsize : blockSizeFor n with
    | none =>
      rw [hsize] at h
      cases h
      trivial
    | some size =>
      rw [hsize] at h
      obtain ⟨⟨result, a₁⟩, hrun, h⟩ := bind_eq_ok.mp h
      cases result with
      | error e =>
        cases h
        exact acquire_shortage hrun
      | ok ptr => cases h

/-- A request for bytes is served exactly if the heap grants a block of the size for it. -/
theorem serve_granted_iff (hn : n ≠ 0) :
    (∃ answer a', a.serve symbol n = .ok (.ok answer, a')) ↔
      ∃ size grant heap, blockSizeFor n = some size ∧
        a.heap.acquire a.limit size = .ok (.ok grant, heap) := by
  constructor
  · rintro ⟨answer, a', h⟩
    obtain ⟨size, ptr, hsize, hrun, -⟩ := serve_granted hn h
    obtain ⟨grant, hgrant, -⟩ := acquire_granted hrun
    exact ⟨size, grant, _, hsize, hgrant⟩
  · rintro ⟨size, grant, heap, hsize, hgrant⟩
    obtain ⟨a', hrun⟩ := acquire_of_grant hgrant symbol
    refine ⟨some grant.block, a', ?_⟩
    unfold serve sizeFor
    rw [if_neg hn, hsize]
    show (a.acquire symbol size >>= fun r => _) = _
    rw [hrun]
    rfl

/-! ## Freeing -/

theorem accept_granted (h : a.accept symbol ptr = .ok (.ok (), a')) : a' = a := by
  obtain ⟨result, -, h⟩ := bind_eq_ok.mp h
  cases result with
  | error e => cases h
  | ok =>
    cases h
    rfl

/-- A block that was freed is one that the heap has taken back. -/
theorem free_granted (h : a.free symbol ptr = .ok (.ok (), a')) :
    ∃ done, a.heap.release ptr = .ok (done, a'.heap) ∧
      a'.liveBlocks = a.liveBlocks - 1 ∧ a'.liveBytes = a.liveBytes - done.freed := by
  obtain ⟨⟨result, a₁⟩, ha, hrest⟩ := bind_eq_ok.mp h
  cases result with
  | error e => cases hrest
  | ok =>
    obtain rfl := accept_granted ha
    obtain ⟨⟨done, heap⟩, hrun, hrest⟩ := bind_eq_ok.mp hrest
    cases hrest
    exact ⟨done, hrun, rfl, rfl⟩

/-! ## Fitting -/

/-- A move takes a block, copies the payload, and frees the old block. -/
theorem move_granted (hn : n ≠ 0) (h : a.move ptr n size old = .ok (.ok answer, a')) :
    ∃ target a₁ copied mem a₂, a.serve "realloc" n = .ok (.ok (some target), a₁) ∧
      difference (min size old) overhead = .ok copied ∧
      a₁.heap.mem.copy ptr target copied = .ok mem ∧
      Allocator.free { a₁ with heap := ⟨mem, a₁.heap.epilog⟩ } "realloc" ptr = .ok (.ok (), a₂) ∧
      answer = some target ∧ a'.heap = a₂.heap ∧ a'.liveBlocks = a₂.liveBlocks ∧
      a'.liveBytes = a₂.liveBytes := by
  obtain ⟨⟨result, a₁⟩, hserve, h⟩ := bind_eq_ok.mp h
  cases result with
  | error e => cases h
  | ok block =>
    obtain ⟨_, target, -, -, rfl⟩ := serve_granted hn hserve
    obtain ⟨copied, hcopied, h⟩ := bind_eq_ok.mp h
    obtain ⟨mem, hmem, h⟩ := bind_eq_ok.mp h
    obtain ⟨⟨freed, a₂⟩, hfree, h⟩ := bind_eq_ok.mp h
    cases freed with
    | error e => cases h
    | ok =>
      cases h
      exact ⟨target, a₁, copied, mem, a₂, hserve, hcopied, hmem, hfree, rfl, rfl, rfl, rfl⟩

/-- When the payload has been copied, the block that was served holds a part of what the old one
holds, and both are there. -/
theorem move_copied (hs : a.heap.Sound cs ls) (hb : b ∈ cs) (ha : b.2.status = .allocated)
    (hsize : blockSizeFor n = some size) (hlt : b.2.size < size) {target copied : Nat}
    {mem : Memory} (hserve : a.serve "realloc" n = .ok (.ok (some target), a'))
    (hcopied : difference (min size b.2.size) overhead = .ok copied)
    (hcopy : a'.heap.mem.copy b.1 target copied = .ok mem) :
    ∃ c cs' ls', c.1 = target ∧ c ∈ cs' ∧ b ∈ cs' ∧ copied + overhead ≤ b.2.size ∧
      a'.heap.Sound cs' ls' ∧ a'.heap.mem.ChangesOnly mem (Memory.InRange c.1 copied) ∧
      (∀ k < copied, mem.byte (c.1 + k) = a'.heap.mem.byte (b.1 + k)) ∧
      Outcome a cs none (some c) { a' with heap := ⟨mem, a'.heap.epilog⟩ } cs' ls' := by
  obtain ⟨c, cs', ls', rfl, h₁, hsup⟩ := serve_block hs hserve
  have hle := hsup.le hsize
  have hb₁ : b ∈ cs' := h₁.swaps.mem_of_mem hb ha (by simp)
  have hlarge := (hs.chain.bounds hb).2.2
  rw [Nat.min_eq_right (Nat.le_of_lt hlt), hs.chain.difference_overhead hb] at hcopied
  obtain rfl := Except.ok.inj hcopied
  obtain ⟨m, hm, hmc, hmb, h₂⟩ := h₁.copy_payload hb₁ (n := b.2.size - overhead)
    (by simp only [minBlock, overhead] at *; omega) (by simp only [minBlock, overhead] at *; omega)
  obtain rfl := Except.ok.inj (hm.symm.trans hcopy)
  exact ⟨c, cs', ls', rfl, h₁.swaps.mem_of_new, hb₁,
    by simp only [minBlock, overhead] at *; omega, h₁.sound, hmc, hmb, h₂⟩

/-- Of a move only the request can be refused. -/
theorem move_shortage (hs : a.heap.Sound cs ls) (hb : b ∈ cs) (ha : b.2.status = .allocated)
    (hn : n ≠ 0) (hsize : blockSizeFor n = some size) (hlt : b.2.size < size)
    (h : a.move b.1 n size b.2.size = .ok (.error e, a')) : e.Shortage := by
  rcases serve_spec hs "realloc" n with ⟨e', a₁, hrun, -⟩ | ⟨new, a₁, cs₁, ls₁, hrun, h₁, hsup⟩
  · unfold move at h
    rw [hrun] at h
    cases h
    exact serve_shortage hrun
  · obtain ⟨c, rfl⟩ := hsup.exists_eq hn
    have hle := hsup.le hsize
    obtain ⟨_, _, _, hmove, -, -⟩ := move_served hs hb ha hlt hrun h₁ hle
    cases h.symm.trans hmove

/-- A block that fits again has another size where it is, or was moved. -/
theorem fit_granted (h : a.fit ptr n = .ok (.ok answer, a')) :
    ∃ size done heap, blockSizeFor n = some size ∧
      a.heap.resize a.limit ptr size = .ok (.ok done, heap) ∧
      match done with
      | .inPlace old new => answer = some ptr ∧ a'.heap = heap ∧ a'.liveBlocks = a.liveBlocks ∧
          a'.liveBytes = a.liveBytes + new - old
      | .grown old _ _ => answer = some ptr ∧ a'.heap = heap ∧ a'.liveBlocks = a.liveBlocks ∧
          a'.liveBytes = a.liveBytes + size - old
      | .mustMove old =>
        Allocator.move { a with heap := heap } ptr n size old = .ok (.ok answer, a') := by
  obtain ⟨⟨result, a₁⟩, ha, hrest⟩ := bind_eq_ok.mp h
  cases result with
  | error e => cases hrest
  | ok =>
    obtain rfl := accept_granted ha
    dsimp only [sizeFor] at hrest
    cases hsize : blockSizeFor n with
    | none =>
      rw [hsize] at hrest
      cases hrest
    | some size =>
      rw [hsize] at hrest
      obtain ⟨⟨result, heap⟩, hrun, hrest⟩ := bind_eq_ok.mp hrest
      cases result with
      | error cause => cases hrest
      | ok done =>
        refine ⟨size, done, heap, rfl, hrun, ?_⟩
        cases done with
        | inPlace old new =>
          cases hrest
          exact ⟨rfl, rfl, rfl, rfl⟩
        | grown old absorbed growth =>
          cases hrest
          exact ⟨rfl, rfl, rfl, rfl⟩
        | mustMove old => exact hrest

/-- How fitting an allocated block follows from what the heap does. -/
theorem fit_of_resize (hs : a.heap.Sound cs ls) (hb : b ∈ cs) (ha : b.2.status = .allocated)
    (hsize : blockSizeFor n = some size) {result : Except Exhausted Resized} {heap : Heap}
    (hrun : a.heap.resize a.limit b.1 size = .ok (result, heap)) :
    match result with
    | .error cause => ∃ a', a.fit b.1 n = .ok (.error (.outOfMemory cause), a')
    | .ok (.mustMove old) => a.fit b.1 n = Allocator.move { a with heap := heap } b.1 n size old
    | .ok _ => ∃ a', a.fit b.1 n = .ok (.ok (some b.1), a') ∧ a'.heap = heap := by
  unfold fit
  rw [accept_allocated hs hb ha, ok_bind]
  simp only [sizeFor, hsize, hrun, ok_bind]
  cases result with
  | error cause => exact ⟨_, rfl⟩
  | ok done =>
    cases done with
    | inPlace | grown => exact ⟨_, rfl, rfl⟩
    | mustMove => rfl

/-- An allocated block is refused another size only for want of memory. -/
theorem fit_shortage (hs : a.heap.Sound cs ls) (hb : b ∈ cs) (ha : b.2.status = .allocated)
    (hn : n ≠ 0) (h : a.fit b.1 n = .ok (.error e, a')) : e.Shortage := by
  cases hsize : blockSizeFor n with
  | none =>
    unfold fit at h
    rw [accept_allocated hs hb ha, ok_bind] at h
    simp only [sizeFor, hsize] at h
    cases h
    trivial
  | some size =>
    obtain ⟨hsz, -⟩ := blockSizeFor_spec hsize
    rcases hs.resize hb ha hsz a.limit with ⟨cause, hrun⟩ | ⟨hrun, hlt⟩ |
      ⟨done, h', cs', ls', new, hrun, -, -, -, hdone⟩
    · obtain ⟨_, hfit⟩ := fit_of_resize hs hb ha hsize hrun
      cases h.symm.trans hfit
      trivial
    · rw [fit_of_resize hs hb ha hsize hrun] at h
      exact move_shortage hs hb ha hn hsize hlt h
    · rcases hdone with rfl | ⟨absorbed, growth, rfl, -⟩
      all_goals
        obtain ⟨_, hfit, -⟩ := fit_of_resize hs hb ha hsize hrun
        cases h.symm.trans hfit

/-! ## Requests -/

/-- A request for zero bytes is served, and what it got is cleared. -/
theorem serveZeroed_granted (h : a.serveZeroed n = .ok (.ok answer, a')) :
    ∃ a₁, a.serve "calloc" n = .ok (.ok answer, a₁) ∧
      ((answer = none ∧ a' = a₁) ∨ ∃ ptr, answer = some ptr ∧ a₁.clear ptr = .ok a') := by
  obtain ⟨⟨result, a₁⟩, hserve, h⟩ := bind_eq_ok.mp h
  cases result with
  | error e => cases h
  | ok block =>
    cases block with
    | none =>
      cases h
      exact ⟨a', hserve, .inl ⟨rfl, rfl⟩⟩
    | some ptr =>
      obtain ⟨a₂, hclear, h⟩ := bind_eq_ok.mp h
      cases h
      exact ⟨a₁, hserve, .inr ⟨ptr, rfl, hclear⟩⟩

/-- A change of size without a block is a request. -/
theorem change_none_granted (h : a.change none n = .ok (.ok answer, a')) :
    ∃ a₁, a.serve "realloc" n = .ok (.ok answer, a₁) ∧ a'.heap = a₁.heap ∧
      a'.liveBlocks = a₁.liveBlocks ∧ a'.liveBytes = a₁.liveBytes := by
  obtain ⟨⟨result, a₁⟩, hserve, h⟩ := bind_eq_ok.mp h
  cases result with
  | error e => cases h
  | ok block =>
    cases h
    exact ⟨a₁, hserve, rfl, rfl, rfl⟩

/-- A change of size to nothing frees the block. -/
theorem change_zero_granted (h : a.change (some ptr) 0 = .ok (.ok answer, a')) :
    ∃ a₁, a.free "realloc" ptr = .ok (.ok (), a₁) ∧ answer = none ∧ a'.heap = a₁.heap ∧
      a'.liveBlocks = a₁.liveBlocks ∧ a'.liveBytes = a₁.liveBytes := by
  obtain ⟨⟨result, a₁⟩, hfree, h⟩ := bind_eq_ok.mp h
  cases result with
  | error e => cases h
  | ok =>
    cases h
    exact ⟨a₁, hfree, rfl, rfl, rfl, rfl⟩

/-- Any other change of size fits the block. -/
theorem change_some (hn : n ≠ 0) : a.change (some ptr) n = a.fit ptr n :=
  if_neg hn

/-- The operation ends as its step, since any heap that the step leaves passes its check. -/
theorem resize_of_fit (hs : a.heap.Sound cs ls) (hb : b ∈ cs) (ha : b.2.status = .allocated)
    (hn : n ≠ 0) {result : Except Refusal (Option Nat)} (h : a.fit b.1 n = .ok (result, a')) :
    a.resize (some b.1) n = .ok (result, a') := by
  rcases resize_some_spec hs hb ha n with ⟨e, a₁, hres, -⟩ | ⟨new, a₁, _, _, hres, -⟩
  all_goals
    have hstep := (settle_eq_ok hres).symm.trans ((change_some hn).trans h)
    rw [hres, Except.ok.inj hstep]

/-- A change of size of an allocated block is refused only for want of memory. -/
theorem change_shortage (hs : a.heap.Sound cs ls) (hb : b ∈ cs) (ha : b.2.status = .allocated)
    (h : a.change (some b.1) n = .ok (.error e, a')) : e.Shortage := by
  by_cases hn : n = 0
  · obtain ⟨a₁, _, _, hfree, -⟩ := free_spec hs hb ha "realloc"
    simp only [change, if_pos hn, hfree, ok_bind] at h
    cases h
  · rw [change_some hn] at h
    exact fit_shortage hs hb ha hn h

/-! ## New allocators -/

/-- An allocator before its first entry. -/
def fresh (heap : Heap) (settings : Settings) : Allocator :=
  ⟨heap, settings.heapLimit, settings, .empty settings.minLevel, 0, 0⟩

/-- Whether there is a new allocator, and its heap, depend on the limit only. -/
theorem ofSettings_of_limit (limit : Nat) :
    (∃ e, ∀ s : Settings, s.heapLimit = limit → ofSettings s = .ok (.error e)) ∨
      emptySize ≤ limit ∧ ∃ heap, ∀ s : Settings, s.heapLimit = limit →
        ofSettings s = .ok (.ok ((fresh heap s).note .started)) := by
  have hempty : ¬(Arena.empty limit).size ≠ 0 := not_not_intro rfl
  have hsize : (Memory.empty.extend emptySize).size = emptySize := by
    rw [Memory.size_extend]
    rfl
  obtain ⟨m, hlay, -⟩ := layOut_spec hsize
  have hmem : (Arena.empty limit).mem = Memory.empty := rfl
  cases hg : growthRefusal (Arena.empty limit).size (Arena.empty limit).limit emptySize with
  | some cause =>
    refine .inl ⟨.outOfMemory cause, fun s hs => ?_⟩
    rw [ofSettings, hs, ofArena, if_neg hempty, Arena.grow, hg]
    rfl
  | none =>
    refine .inr ⟨?_, ⟨m, firstHeader⟩, fun s hs => ?_⟩
    · unfold SegFit.growthRefusal at hg
      split at hg
      · rename_i hle
        exact (Nat.le_min.mp (Nat.le_trans (Nat.le_add_left ..) hle)).1
      · cases hg
    · rw [ofSettings, hs, ofArena, if_neg hempty, Arena.grow, hg]
      simp only [hmem, hlay, ok_bind]
      rw [fresh, hs]
      rfl

/-- A new allocator has the settings given, the limit they name, and counts nothing. -/
theorem ofSettings_granted {settings : Settings} (h : ofSettings settings = .ok (.ok a)) :
    a.settings = settings ∧ a.limit = settings.heapLimit ∧ a.liveBlocks = 0 ∧ a.liveBytes = 0 ∧
      emptySize ≤ settings.heapLimit := by
  rcases ofSettings_of_limit settings.heapLimit with ⟨e, he⟩ | ⟨hle, heap, hok⟩
  · cases h.symm.trans (he settings rfl)
  · cases h.symm.trans (hok settings rfl)
    exact ⟨rfl, rfl, rfl, rfl, hle⟩

end Allocator

end SegFit
