/-
  Runs.  A request that names a live allocation, and accesses of payloads that stay inside
  them, are refused or granted, never stopped (`perform_spec`); so in every state that clients
  can reach the heap is sound and the live allocations are its allocated blocks
  (`Reachable.tracks`).
-/
import SegFit.Proofs.Requests
import SegFit.Proofs.Sentinels

namespace SegFit

open Heap

/-- The access that a request makes to a payload, if it makes one, stays inside. -/
def Request.Fits (a : Allocator) : Request → Prop
  | .write ptr i part => ∃ usable, a.payloadSize ptr = .ok (.ok usable) ∧ i + part.size ≤ usable
  | .read ptr i n =>
    ∃ usable, a.payloadSize ptr = .ok (.ok usable) ∧ i + n.getD (usable - i) ≤ usable
  | _ => True

namespace Allocator

variable {a a' : Allocator} {cs cs' : List TaggedBlock} {ls ls' : Nat → List Nat} {b : TaggedBlock}

/-! ## Payload access -/

theorem payloadSize_allocated (hs : a.heap.Sound cs ls) (hb : b ∈ cs)
    (ha : b.2.status = .allocated) : a.payloadSize b.1 = .ok (.ok (b.2.size - overhead)) := by
  unfold payloadSize
  rw [hs.consistent.liveSize hb ha, ok_bind]
  show (difference b.2.size overhead >>= fun n => _) = _
  rw [hs.chain.difference_overhead hb]
  rfl

theorem usable_allocated (hs : a.heap.Sound cs ls) (hb : b ∈ cs) (ha : b.2.status = .allocated) :
    a.usable b.1 = .ok (.ok (b.2.size - overhead)) := by
  unfold usable
  rw [validate_allocated hs hb ha, ok_bind]
  show (a.heap.mem.blockSize b.1 >>= fun size => _) = _
  rw [hs.consistent.blockSize hb, ok_bind, hs.chain.difference_overhead hb]
  rfl

/-- What an access that stays inside the payload comes to. -/
theorem write_fits (hs : a.heap.Sound cs ls) (hb : b ∈ cs) (ha : b.2.status = .allocated) {i : Nat}
    {part : ByteArray} (h : (Request.write b.1 i part).Fits a) :
    i + part.size ≤ b.2.size - overhead := by
  obtain ⟨usable, hu, hle⟩ := h
  rw [payloadSize_allocated hs hb ha] at hu
  exact Except.ok.inj (Except.ok.inj hu) ▸ hle

theorem read_fits (hs : a.heap.Sound cs ls) (hb : b ∈ cs) (ha : b.2.status = .allocated) {i : Nat}
    {n : Option Nat} (h : (Request.read b.1 i n).Fits a) :
    i + n.getD (b.2.size - overhead - i) ≤ b.2.size - overhead := by
  obtain ⟨usable, hu, hle⟩ := h
  rw [payloadSize_allocated hs hb ha] at hu
  exact Except.ok.inj (Except.ok.inj hu) ▸ hle

/-- The whole payload of an allocation, as it is read. -/
theorem readPayload_allocated (hs : a.heap.Sound cs ls) (hb : b ∈ cs) (ha : b.2.status = .allocated)
    {i : Nat} {n : Option Nat} :
    a.readPayload b.1 i n =
      if i + n.getD (b.2.size - overhead - i) ≤ b.2.size - overhead then
        .ok (.ok (a.heap.mem.slice (b.1 + i) (n.getD (b.2.size - overhead - i))))
      else .error .outOfBounds := by
  have hin := hs.consistent.payload_le hb
  unfold readPayload
  rw [payloadSize_allocated hs hb ha, ok_bind]
  show (payloadSpan _ i n >>= fun k => _) = _
  unfold payloadSpan
  split
  · rw [ok_bind, Memory.read, if_pos (by omega)]
    rfl
  · rfl

/-- A granted request, seen as one that gives its block up and gets it again. -/
theorem Outcome.self (hs : a.heap.Sound cs ls) (hb : b ∈ cs) (ha : b.2.status = .allocated) :
    Outcome a cs (some b.1) (some b) a cs ls := by
  refine ⟨hs, id, ⟨?_, fun c hc => ?_, ?_⟩, fun _ _ _ _ _ _ => rfl, rfl, rfl, .refl _⟩
  · intro c hc
    obtain rfl := Option.some.inj hc
    exact ha
  · constructor
    · intro hcm
      by_cases he : b.1 = c.1
      · exact .inl (congrArg some (hs.chain.tiles.eq_of_offset hb hcm he))
      · exact .inr ⟨hcm, fun h => he (Option.some.inj h)⟩
    · rintro (h | ⟨h, -⟩)
      · exact Option.some.inj h ▸ hb
      · exact h
  · intro c hc d _ _ hg he
    obtain rfl := Option.some.inj hc
    exact hg (congrArg some he.symm)

/-- Writing into a payload, inside its bounds, changes these bytes only. -/
theorem writePayload_spec (hs : a.heap.Sound cs ls) (hb : b ∈ cs) (ha : b.2.status = .allocated)
    {i : Nat} {part : ByteArray} (hfit : i + part.size ≤ b.2.size - overhead) :
    ∃ m, a.writePayload b.1 i part = .ok (.ok (), { a with heap := ⟨m, a.heap.epilog⟩ }) ∧
      Outcome a cs (some b.1) (some b) { a with heap := ⟨m, a.heap.epilog⟩ } cs ls ∧
      a.heap.mem.ChangesOnly m (Memory.InRange (b.1 + i) part.size) ∧
      ∀ k < part.size, m.byte (b.1 + i + k) = (part.data[k]?).getD 0 := by
  have hin := hs.consistent.payload_le hb
  have hlarge := (hs.chain.bounds hb).2.2
  obtain ⟨m, hm, hmc, hmb⟩ := Memory.write_spec (m := a.heap.mem) (i := b.1 + i) part (by omega)
  refine ⟨m, ?_, (Outcome.self hs hb ha).write_payload hmc fun j hj => ?_, hmc, hmb⟩
  · unfold writePayload
    rw [payloadSize_allocated hs hb ha, ok_bind]
    show (payloadSpan _ i (some part.size) >>= fun k => _) = _
    unfold payloadSpan
    rw [if_pos (by simpa using hfit), ok_bind, hm]
    rfl
  · simp only [Payload, Memory.InRange, minBlock, overhead] at *
    omega

/-! ## Requests -/

/-- What a granted request has done: it had `answer`, and `new` is the block that it got. -/
def Done (a : Allocator) (cs : List TaggedBlock) (new : Option TaggedBlock) (a' : Allocator)
    (answer : Option Nat) : Request → Prop
  | .allocate n => answer = new.map Prod.fst ∧ Supplies n new
  | .allocateZeroed count size => answer = new.map Prod.fst ∧ Supplies (count * size) new ∧
      ∀ c ∈ new, ∀ j, Payload c j → a'.heap.mem.byte j = 0
  | .release _ => answer = none ∧ new = none
  | .resize ptr n => answer = new.map Prod.fst ∧ Supplies n new ∧
      ∀ b ∈ cs, b.2.status = .allocated → ptr = some b.1 → ∀ c ∈ new, Carries a.heap a'.heap b c
  | .write ptr i part => answer = none ∧ ∃ b ∈ cs, b.1 = ptr ∧ new = some b ∧
      a.heap.mem.ChangesOnly a'.heap.mem (Memory.InRange (b.1 + i) part.size) ∧
      ∀ k < part.size, a'.heap.mem.byte (b.1 + i + k) = (part.data[k]?).getD 0
  | .read ptr .. => answer = none ∧ a' = a ∧ ∃ b ∈ cs, b.1 = ptr ∧ new = some b

/-- The allocator with the live allocations `live` has the heap with the blocks `cs` and the
lists `ls`. -/
structure Tracks (a : Allocator) (live : List Nat) (cs : List TaggedBlock) (ls : Nat → List Nat) :
    Prop where
  sound : a.heap.Sound cs ls
  live : ∀ p, p ∈ live ↔ ∃ b ∈ cs, b.2.status = .allocated ∧ b.1 = p

variable {live : List Nat}

/-- A request that names a live allocation, if it names one, is refused or granted. -/
theorem perform_spec (ht : a.Tracks live cs ls) {r : Request}
    (hlegal : ∀ ptr, r.pointer = some ptr → ptr ∈ live) (hfits : r.Fits a) :
    (∃ e a', a.perform r = .ok (.error e, a') ∧ a.Refused a') ∨
      ∃ answer new a' cs' ls', a.perform r = .ok (.ok answer, a') ∧
        Outcome a cs r.pointer new a' cs' ls' ∧ Done a cs new a' answer r := by
  have hs := ht.sound
  have hblock : ∀ {ptr}, r.pointer = some ptr → ∃ b ∈ cs, b.2.status = .allocated ∧ b.1 = ptr :=
    fun h => (ht.live _).mp (hlegal _ h)
  cases r with
  | allocate n =>
    rcases allocate_spec hs n with h | ⟨new, a', cs', ls', hrun, hout, hsup⟩
    · exact .inl h
    · exact .inr ⟨_, new, a', cs', ls', hrun, hout, rfl, hsup⟩
  | allocateZeroed count size =>
    rcases allocateZeroed_spec hs count size with h | ⟨new, a', cs', ls', hrun, hout, hrest⟩
    · exact .inl h
    · exact .inr ⟨_, new, a', cs', ls', hrun, hout, rfl, hrest⟩
  | release ptr =>
    obtain ⟨b, hb, ha, rfl⟩ := hblock rfl
    obtain ⟨a', cs', ls', hrun, hout⟩ := release_spec hs hb ha
    refine .inr ⟨none, none, a', cs', ls', ?_, hout, rfl, rfl⟩
    rw [perform, hrun]
    rfl
  | resize ptr n =>
    cases ptr with
    | none =>
      rcases resize_none_spec hs n with h | ⟨new, a', cs', ls', hrun, hout, hsup⟩
      · exact .inl h
      · exact .inr ⟨_, new, a', cs', ls', hrun, hout, rfl, hsup, fun _ _ _ h => by cases h⟩
    | some ptr =>
      obtain ⟨b, hb, ha, rfl⟩ := hblock rfl
      rcases resize_some_spec hs hb ha n with h | ⟨new, a', cs', ls', hrun, hout, hfit⟩
      · exact .inl h
      · refine .inr ⟨_, new, a', cs', ls', hrun, hout, rfl, hfit.supplies, fun c hc hac he => ?_⟩
        rw [hs.chain.tiles.eq_of_offset hc hb (Option.some.inj he).symm]
        exact hfit.carries
  | write ptr i part =>
    obtain ⟨b, hb, ha, rfl⟩ := hblock rfl
    have hle := write_fits hs hb ha hfits
    obtain ⟨m, hrun, hout, hmc, hmb⟩ := writePayload_spec hs hb ha hle
    refine .inr ⟨none, some b, _, cs, ls, ?_, hout, rfl, b, hb, rfl, rfl, hmc, hmb⟩
    rw [perform, hrun]
    rfl
  | read ptr i n =>
    obtain ⟨b, hb, ha, rfl⟩ := hblock rfl
    have hle := read_fits hs hb ha hfits
    refine .inr ⟨none, some b, a, cs, ls, ?_, .self hs hb ha, rfl, rfl, b, hb, rfl, rfl⟩
    rw [perform, readPayload_allocated hs hb ha, if_pos hle]
    rfl

/-- An access that ends outside of the payload stops the run. -/
theorem fits_of_perform (ht : a.Tracks live cs ls) {r : Request}
    (hlegal : ∀ ptr, r.pointer = some ptr → ptr ∈ live) {reply : Reply (Option Nat)}
    (hrun : a.perform r = .ok reply) : r.Fits a := by
  have hs := ht.sound
  cases r with
  | allocate | allocateZeroed | release | resize => trivial
  | write ptr i part =>
    obtain ⟨b, hb, ha, rfl⟩ := (ht.live ptr).mp (hlegal ptr rfl)
    have hu := payloadSize_allocated hs hb ha
    refine ⟨_, hu, Nat.le_of_not_lt fun hlt => ?_⟩
    have hfault : a.writePayload b.1 i part = .error .outOfBounds := by
      unfold writePayload
      rw [hu, ok_bind]
      show (payloadSpan _ i (some part.size) >>= fun k => _) = _
      unfold payloadSpan
      rw [if_neg (by simpa using hlt)]
      rfl
    rw [perform, hfault] at hrun
    cases hrun
  | read ptr i n =>
    obtain ⟨b, hb, ha, rfl⟩ := (ht.live ptr).mp (hlegal ptr rfl)
    refine ⟨_, payloadSize_allocated hs hb ha, Nat.le_of_not_lt fun hlt => ?_⟩
    rw [perform, readPayload_allocated hs hb ha, if_neg (Nat.not_le.mpr hlt)] at hrun
    cases hrun

/-- The live allocations after a granted request are the allocated blocks. -/
theorem Outcome.tracks (ht : a.Tracks live cs ls) {r : Request} {new : Option TaggedBlock}
    {answer : Option Nat} (hlegal : ∀ ptr, r.pointer = some ptr → ptr ∈ live)
    (hout : Outcome a cs r.pointer new a' cs' ls') (hdone : Done a cs new a' answer r) :
    a'.Tracks (r.live live answer) cs' ls' := by
  refine ⟨hout.sound, fun p => ?_⟩
  have hnew : (∃ b ∈ cs', b.2.status = .allocated ∧ b.1 = p) ↔
      new.map Prod.fst = some p ∨ (p ∈ live ∧ r.pointer ≠ some p) := by
    constructor
    · rintro ⟨b, hb, ha, rfl⟩
      rcases (hout.swaps.mem b ha).mp hb with rfl | ⟨hb, hg⟩
      · exact .inl rfl
      · exact .inr ⟨(ht.live _).mpr ⟨b, hb, ha, rfl⟩, hg⟩
    · rintro (h | ⟨h, hg⟩)
      · obtain ⟨b, rfl, rfl⟩ := Option.map_eq_some_iff.mp h
        have ha := hout.swaps.allocated b rfl
        exact ⟨b, hout.swaps.mem_of_new, ha, rfl⟩
      · obtain ⟨b, hb, ha, rfl⟩ := (ht.live p).mp h
        exact ⟨b, hout.swaps.mem_of_mem hb ha hg, ha, rfl⟩
  -- An access gives its block up and gets it again.
  have hself : ∀ {ptr}, r.pointer = some ptr → new.map Prod.fst = some ptr →
      (p ∈ live ↔ new.map Prod.fst = some p ∨ (p ∈ live ∧ r.pointer ≠ some p)) := by
    intro ptr hp hn
    rw [hn, hp]
    by_cases he : ptr = p
    · subst he
      simp [hlegal ptr hp]
    · simp [he]
  rw [hnew]
  cases r with
  | write ptr i part =>
    obtain ⟨-, b, -, rfl, rfl, -⟩ := hdone
    exact hself rfl rfl
  | read ptr i n =>
    obtain ⟨-, -, b, -, rfl, rfl⟩ := hdone
    exact hself rfl rfl
  | release ptr =>
    obtain ⟨rfl, rfl⟩ := hdone
    simp [Request.live, Request.pointer, ne_comm]
  | allocate n =>
    obtain ⟨rfl, -⟩ := hdone
    simp [Request.live, Request.pointer]
  | allocateZeroed count size =>
    obtain ⟨rfl, -⟩ := hdone
    simp [Request.live, Request.pointer]
  | resize ptr n =>
    obtain ⟨rfl, -⟩ := hdone
    simp [Request.live, Request.pointer, ne_comm]

/-! ## Reachable states -/

/-- A new allocator has a sound heap without blocks. -/
theorem ofSettings_spec {settings : Settings} (h : ofSettings settings = .ok (.ok a)) :
    a.Tracks [] [] (fun _ => []) ∧ a.heap.Exact [] := by
  have hsize : (Memory.empty.extend emptySize).size = emptySize := by
    rw [Memory.size_extend]
    rfl
  obtain ⟨m, hlay, hm, hprolog, hheader, hbare⟩ := layOut_spec hsize
  have ha : a.heap = ⟨m, firstHeader⟩ := by
    have hempty : ¬(Arena.empty settings.heapLimit).size ≠ 0 := not_not_intro rfl
    unfold ofSettings at h
    rw [ofArena, if_neg hempty, Arena.grow] at h
    cases hg : growthRefusal (Arena.empty settings.heapLimit).size
        (Arena.empty settings.heapLimit).limit emptySize with
    | some e =>
      rw [hg] at h
      cases h
    | none =>
      rw [hg] at h
      have hmem : (Arena.empty settings.heapLimit).mem = Memory.empty := rfl
      simp only [hmem, hlay, ok_bind] at h
      obtain rfl := Except.ok.inj (Except.ok.inj h)
      rfl
  have hchain : Chain ⟨m, firstHeader⟩ firstBlock [] := .nil hheader
  have hsz : (⟨m, firstHeader⟩ : Heap).size = emptySize := hm
  have hsound : Sound ⟨m, firstHeader⟩ [] fun _ => [] := by
    refine ⟨⟨hchain, trivial, fun b hb => ?_, by simp, by simp⟩, hsz.symm, ?_, ?_⟩
    · exact ⟨(hbare b hb).prologSucc, (hbare b hb).epilogPred, trivial⟩
    · rw [hsz]
      decide
    · show Memory.freeTag (Tag.decode (m.word prologEnd)) = none
      rw [hprolog]
      rfl
  refine ⟨⟨ha ▸ hsound, by simp⟩, ha ▸ ⟨by simp, fun b hb => ?_, fun b hb => ?_, hprolog⟩⟩
  · exact (hbare b hb).prologPred
  · exact (hbare b hb).epilogSucc

/-- After a release that was granted. -/
theorem Reachable.released {settings : Settings} {a' : Allocator} {ptr : Nat}
    (h : Reachable settings a live) (hptr : ptr ∈ live)
    (hrun : a.release ptr = .ok (.ok (), a')) :
    Reachable settings a' (Request.live live (.release ptr) none) := by
  refine .granted h (fun p hp => ?_) ?_
  · obtain rfl := Option.some.inj hp
    exact hptr
  · rw [perform, hrun]
    rfl

/-- After a request for bytes that was granted. -/
theorem Reachable.allocated {settings : Settings} {a' : Allocator} {n : Nat} {answer : Option Nat}
    (h : Reachable settings a live) (hrun : a.allocate n = .ok (.ok answer, a')) :
    Reachable settings a' (Request.live live (.allocate n) answer) :=
  .granted h (fun _ hp => nomatch hp) hrun

/-- In a state that clients can reach, the live allocations are the allocated blocks of a sound
heap, whose tags and sentinels are as the allocator writes them. -/
theorem Reachable.tracks {settings : Settings} (h : Reachable settings a live) :
    ∃ cs ls, a.Tracks live cs ls ∧ a.heap.Exact cs := by
  induction h with
  | start h => exact ⟨_, _, ofSettings_spec h⟩
  | @granted a a' live r answer _ legal hrun ih =>
    obtain ⟨cs, ls, ht, he⟩ := ih
    rcases perform_spec ht legal (fits_of_perform ht legal hrun) with ⟨e, a₁, hrun', -⟩ |
      ⟨answer', new, a₁, cs', ls', hrun', hout, hdone⟩
    · cases hrun.symm.trans hrun'
    · cases hrun.symm.trans hrun'
      exact ⟨cs', ls', hout.tracks ht legal hdone, hout.exact he⟩
  | @refused a a' live r e _ legal hrun ih =>
    obtain ⟨cs, ls, ht, he⟩ := ih
    rcases perform_spec ht legal (fits_of_perform ht legal hrun) with ⟨e', a₁, hrun', hr⟩ |
      ⟨answer', new, a₁, cs', ls', hrun', hout, hdone⟩
    · cases hrun.symm.trans hrun'
      refine ⟨cs, ls, ⟨hr.heap ▸ ht.sound, ht.live⟩, hr.heap ▸ he⟩
    · cases hrun.symm.trans hrun'

/-! ## A session -/

/-- Cuts up a block of 128 bytes, and gives the first two parts back. -/
def cutUp : List Request :=
  [.allocate 120, .resize (some 112) 8, .allocate 40, .allocate 8, .allocate 8, .release 112,
    .release 128]

/-- The parts that were given back are one free block now, and the part that was never taken is
another.  Between them are two allocations, of which the first has to move if it grows. -/
theorem session_cutUp :
    ∃ a, session {} cutUp = some (a, [192, 176]) ∧
      a.blocks = .ok [⟨112, 64, .free, some (16, 256)⟩, ⟨176, 16, .allocated, none⟩,
        ⟨192, 16, .allocated, none⟩, ⟨208, 32, .free, some (8, 248)⟩] ∧
      ∃ a', a.perform (.resize (some 176) 40) = .ok (.ok (some 112), a') := by
  have hall : (session {} cutUp).map (fun s => decide (s.2 = [192, 176] ∧
      s.1.blocks = .ok [⟨112, 64, .free, some (16, 256)⟩, ⟨176, 16, .allocated, none⟩,
        ⟨192, 16, .allocated, none⟩, ⟨208, 32, .free, some (8, 248)⟩] ∧
      (s.1.perform (.resize (some 176) 40)).toOption.map (fun reply => reply.1.toOption) =
        some (some (some 112)))) = some true := by decide +kernel
  obtain ⟨⟨a, live⟩, hrun, hfacts⟩ := Option.map_eq_some_iff.mp hall
  obtain ⟨rfl, hblocks, hmoved⟩ := of_decide_eq_true hfacts
  obtain ⟨⟨result, a'⟩, hreply, hanswer⟩ := Option.map_eq_some_iff.mp hmoved
  obtain rfl : result = .ok (some 112) := eq_ok_of_toOption hanswer
  exact ⟨a, hrun, hblocks, a', eq_ok_of_toOption hreply⟩

end Allocator

end SegFit
