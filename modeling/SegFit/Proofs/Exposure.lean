/-
  Pointers that nobody vouches for.  With validation on, clients may pass any number as a
  pointer.  As long as they leave the bytes at four modulo eight of their payloads even, no
  payload holds what could be read as the header of an allocated block, and every step keeps it
  so (`perform_clean`).  Then a pointer is refused exactly if it is not that of a live
  allocation, and no request stops the run (`Exposed.validated`).
-/
import SegFit.Proofs.Accepted
import SegFit.Proofs.Answers
import SegFit.Proofs.Unforged

namespace SegFit

open Heap

/-- Writes leave the bytes at four modulo eight of a payload even. -/
def Request.Tame : Request → Prop
  | .write _ i part =>
    ∀ (k : Nat) (_ : k < part.size), (i + k) % alignment = wordSize → part[k].toNat % 2 = 0
  | _ => True

instance (r : Request) : Decidable r.Tame :=
  match r with
  | .write _ i part => inferInstanceAs
      (Decidable (∀ (k : Nat) (_ : k < part.size), (i + k) % alignment = wordSize → _))
  | .allocate _ | .allocateZeroed .. | .release _ | .resize .. | .read .. => isTrue trivial

/-- The refusals of a pointer that is not that of a live allocation. -/
def Refusal.Rejects (e : Refusal) (ptr : Nat) : Prop :=
  e = .invalidPointer ptr ∨ e = .doubleFree ptr

/-- The pointer `ptr` was refused. -/
def Rejected {α : Type} (result : Except Refusal α) (ptr : Nat) : Prop :=
  ∃ e, result = .error e ∧ e.Rejects ptr

theorem not_rejected_ok {α : Type} {x : α} {ptr : Nat} : ¬ Rejected (.ok x) ptr := by
  rintro ⟨e, he, -⟩
  cases he

theorem Refusal.Shortage.not_rejects {e : Refusal} (h : e.Shortage) (ptr : Nat) :
    ¬ e.Rejects ptr := by
  rintro (rfl | rfl)
  · exact h
  · exact h

namespace Allocator

variable {a a' : Allocator} {cs cs' : List TaggedBlock} {ls ls' : Nat → List Nat} {b : TaggedBlock}
  {symbol : String} {ptr n size : Nat} {answer : Option Nat}

/-- The heap is sound, as the allocator writes it, and unforged. -/
structure Clean (a : Allocator) (cs : List TaggedBlock) (ls : Nat → List Nat) : Prop where
  sound : a.heap.Sound cs ls
  exact : a.heap.Exact cs
  unforged : a.heap.Unforged cs

/-! ## Steps -/

theorem acquire_unforged (hc : a.Clean cs ls) (hsz : BlockSize size)
    (h : a.acquire symbol size = .ok (.ok ptr, a')) (hc' : a'.heap.Chain firstBlock cs') :
    a'.heap.Unforged cs' := by
  obtain ⟨grant, hrun, -⟩ := acquire_granted h
  rcases hc.sound.acquire hsz a.limit with ⟨cause, hno⟩ | ⟨_, h', ds, ms, hyes, hbec, hsw, -⟩
  · cases hrun.symm.trans hno
  · obtain ⟨-, rfl⟩ := Prod.mk.inj (Except.ok.inj (hrun.symm.trans hyes))
    rw [hc'.unique hbec.sound.chain]
    exact hbec.unforged hc.exact hc.unforged hsw (by simp)

theorem serve_unforged (hc : a.Clean cs ls) (h : a.serve symbol n = .ok (.ok answer, a'))
    (hc' : a'.heap.Chain firstBlock cs') : a'.heap.Unforged cs' := by
  by_cases hn : n = 0
  · unfold serve at h
    rw [if_pos hn] at h
    obtain ⟨-, rfl⟩ := Prod.mk.inj (Except.ok.inj h)
    exact hc'.unique hc.sound.chain ▸ hc.unforged
  · obtain ⟨size, ptr, hsize, hrun, -⟩ := serve_granted hn h
    exact acquire_unforged hc (blockSizeFor_spec hsize).1 hrun hc'

theorem free_unforged (hc : a.Clean cs ls) (hb : b ∈ cs) (ha : b.2.status = .allocated)
    (h : a.free symbol b.1 = .ok (.ok (), a')) (hc' : a'.heap.Chain firstBlock cs') :
    a'.heap.Unforged cs' := by
  obtain ⟨done, hrun, -⟩ := free_granted h
  obtain ⟨_, h', ds, ms, hyes, -, hbec, hsw, hclean⟩ := hc.sound.release_allocated hb ha
  obtain ⟨-, rfl⟩ := Prod.mk.inj (Except.ok.inj (hrun.symm.trans hyes))
  rw [hc'.unique hbec.sound.chain]
  refine hbec.unforged hc.exact hc.unforged hsw fun x hx => .inr ?_
  exact Option.some.inj hx ▸ hclean

theorem move_unforged (hc : a.Clean cs ls) (hb : b ∈ cs) (ha : b.2.status = .allocated)
    (hn : n ≠ 0) (hsize : blockSizeFor n = some size) (hlt : b.2.size < size)
    (h : a.move b.1 n size b.2.size = .ok (.ok answer, a')) (hc' : a'.heap.Chain firstBlock cs') :
    a'.heap.Unforged cs' := by
  obtain ⟨target, a₁, copied, mem, a₂, hserve, hcopied, hcopy, hfree, -, hheap, -⟩ :=
    move_granted hn h
  obtain ⟨c, cs₁, ls₁, rfl, hcm, hb₁, hle, hs₁, hmc, hmb, h₂⟩ :=
    move_copied hc.sound hb ha hsize hlt hserve hcopied hcopy
  have hu₁ := serve_unforged hc hserve hs₁.chain
  have hu₂ : Unforged ⟨mem, a₁.heap.epilog⟩ cs₁ :=
    hu₁.copy hs₁.chain hb₁ (hs₁.chain.aligned.1 c hcm) hle hmc hmb
  rw [hheap] at hc' ⊢
  exact free_unforged ⟨h₂.sound, h₂.exact hc.exact, hu₂⟩ hb₁ ha hfree hc'

theorem fit_unforged (hc : a.Clean cs ls) (hb : b ∈ cs) (ha : b.2.status = .allocated)
    (hn : n ≠ 0) (h : a.fit b.1 n = .ok (.ok answer, a')) (hc' : a'.heap.Chain firstBlock cs') :
    a'.heap.Unforged cs' := by
  obtain ⟨size, done, heap, hsize, hrun, hdone⟩ := fit_granted h
  obtain ⟨hsz, -⟩ := blockSizeFor_spec hsize
  rcases hc.sound.resize hb ha hsz a.limit with ⟨cause, hno⟩ | ⟨hstay, hlt⟩ |
    ⟨_, h', ds, ms, new, hyes, hbec, hsw, -, hkind⟩
  · cases hrun.symm.trans hno
  · obtain ⟨hmust, rfl⟩ := Prod.mk.inj (Except.ok.inj (hrun.symm.trans hstay))
    obtain rfl := Except.ok.inj hmust
    exact move_unforged hc hb ha hn hsize hlt hdone hc'
  · obtain ⟨hsame, rfl⟩ := Prod.mk.inj (Except.ok.inj (hrun.symm.trans hyes))
    obtain rfl := Except.ok.inj hsame
    have hu : heap.Unforged ds := hbec.unforged hc.exact hc.unforged hsw fun x hx =>
      .inl ⟨_, rfl, Option.some.inj hx⟩
    have hheap : a'.heap = heap := by
      rcases hkind with rfl | ⟨absorbed, growth, rfl, -⟩
      · exact hdone.2.1
      · exact hdone.2.1
    rw [hheap] at hc' ⊢
    exact hc'.unique hbec.sound.chain ▸ hu

theorem change_unforged (hc : a.Clean cs ls) (hb : b ∈ cs) (ha : b.2.status = .allocated)
    (h : a.change (some b.1) n = .ok (.ok answer, a')) (hc' : a'.heap.Chain firstBlock cs') :
    a'.heap.Unforged cs' := by
  by_cases hn : n = 0
  · subst hn
    obtain ⟨a₁, hfree, -, hheap, -⟩ := change_zero_granted h
    rw [hheap] at hc' ⊢
    exact free_unforged hc hb ha hfree hc'
  · rw [change_some hn] at h
    exact fit_unforged hc hb ha hn h hc'

theorem serveZeroed_unforged (hc : a.Clean cs ls) (h : a.serveZeroed n = .ok (.ok answer, a'))
    (hc' : a'.heap.Chain firstBlock cs') : a'.heap.Unforged cs' := by
  obtain ⟨a₁, hserve, ⟨-, rfl⟩ | ⟨ptr, rfl, hclear⟩⟩ := serveZeroed_granted h
  · exact serve_unforged hc hserve hc'
  · obtain ⟨c, cs₁, ls₁, rfl, h₁, -⟩ := serve_block hc.sound hserve
    obtain ⟨m, hm, h₂, hmc, hzero⟩ := clear_spec h₁
    obtain rfl := Except.ok.inj (hm.symm.trans hclear)
    rw [hc'.unique h₂.sound.chain]
    refine (serve_unforged hc hserve h₁.sound.chain).of_changesOnly hmc fun j hj ho => ?_
    have hodd := ho.2
    rw [hzero j hj] at hodd
    cases hodd

theorem writePayload_unforged (hc : a.Clean cs ls) (hb : b ∈ cs) (ha : b.2.status = .allocated)
    {i : Nat} {part : ByteArray} (htame : (Request.write b.1 i part).Tame)
    (hfit : i + part.size ≤ b.2.size - overhead)
    (h : a.writePayload b.1 i part = .ok (.ok (), a')) (hc' : a'.heap.Chain firstBlock cs') :
    a'.heap.Unforged cs' := by
  obtain ⟨m, hrun, hout, hmc, hmb⟩ := writePayload_spec hc.sound hb ha hfit
  obtain ⟨-, rfl⟩ := Prod.mk.inj (Except.ok.inj (h.symm.trans hrun))
  rw [hc'.unique hout.sound.chain]
  refine hc.unforged.of_changesOnly hmc fun j hj ho => ?_
  obtain ⟨k, rfl⟩ : ∃ k, j = b.1 + i + k := ⟨j - (b.1 + i), by
    simp only [Memory.InRange] at hj
    omega⟩
  have hk : k < part.size := by
    simp only [Memory.InRange] at hj
    omega
  have hal := hc.sound.chain.aligned.1 b hb
  have hmod := ho.1
  have heven := htame k hk (by simp only [alignment, wordSize] at *; omega)
  have hodd := ho.2
  have hpart : (part.data[k]?).getD 0 = part[k] := by
    rw [Array.getElem?_eq_getElem hk]
    rfl
  rw [hmb k hk, hpart] at hodd
  omega

/-! ## Requests -/

/-- A request that validation lets pass, and that is tame, leaves a clean heap. -/
theorem perform_clean (hc : a.Clean cs ls) {r : Request} (htame : r.Tame)
    (hptr : ∀ ptr, r.pointer = some ptr → ∃ b ∈ cs, b.2.status = .allocated ∧ b.1 = ptr)
    (hfits : r.Fits a) (h : a.perform r = .ok (.ok answer, a')) (hs' : a'.heap.Sound cs' ls')
    (he' : a'.heap.Exact cs') : a'.Clean cs' ls' := by
  refine ⟨hs', he', ?_⟩
  have hc' := hs'.chain
  cases r with
  | allocate n => exact serve_unforged hc (settle_eq_ok h) hc'
  | allocateZeroed count size =>
    rw [perform, allocateZeroed] at h
    split at h
    · exact serveZeroed_unforged hc (settle_eq_ok h) hc'
    · cases h
  | release ptr =>
    obtain ⟨b, hb, ha, rfl⟩ := hptr ptr rfl
    obtain ⟨⟨result, a₁⟩, hrun, h⟩ := bind_eq_ok.mp h
    cases result with
    | error e => cases h
    | ok =>
      cases h
      exact free_unforged hc hb ha (settle_eq_ok hrun) hc'
  | resize ptr n =>
    have hrun := settle_eq_ok h
    cases ptr with
    | none =>
      obtain ⟨a₁, hserve, hheap, -⟩ := change_none_granted hrun
      rw [hheap] at hc' ⊢
      exact serve_unforged hc hserve hc'
    | some ptr =>
      obtain ⟨b, hb, ha, rfl⟩ := hptr ptr rfl
      exact change_unforged hc hb ha hrun hc'
  | write ptr i part =>
    obtain ⟨b, hb, ha, rfl⟩ := hptr ptr rfl
    have hle := write_fits hc.sound hb ha hfits
    obtain ⟨⟨result, a₁⟩, hrun, h⟩ := bind_eq_ok.mp h
    cases result with
    | error e => cases h
    | ok =>
      cases h
      exact writePayload_unforged hc hb ha htame hle (lift_eq_ok hrun) hc'
  | read ptr i n =>
    obtain ⟨result, -, h⟩ := bind_eq_ok.mp h
    obtain ⟨-, rfl⟩ := Prod.mk.inj (Except.ok.inj h)
    exact hc'.unique hc.sound.chain ▸ hc.unforged

/-! ## Pointers -/

/-- Either an allocated block is reported at `ptr`, or validation fails. -/
theorem Clean.reports_or_denies (hc : a.Clean cs ls) (ptr : Nat) :
    (a.Reports ptr ∧ ∃ b ∈ cs, b.2.status = .allocated ∧ b.1 = ptr) ∨
      (¬ a.Reports ptr ∧ ∃ e, a.heap.liveSize ptr = .ok (.error e) ∧ e.Rejects ptr) := by
  by_cases hp : a.Reports ptr
  · exact .inl ⟨hp, (reports_iff hc.sound).mp hp⟩
  · exact .inr ⟨hp, hc.sound.liveSize_refused hc.unforged (mt (reports_iff hc.sound).mpr hp)⟩

/-- A request whose pointer fails validation is refused, and leaves the heap as it was. -/
theorem perform_denied (hs : a.heap.Sound cs ls) (hv : a.settings.safety.validates = true)
    {r : Request} (hp : r.pointer = some ptr) {e : Refusal}
    (he : a.heap.liveSize ptr = .ok (.error e)) :
    ∃ a', a.perform r = .ok (.error e, a') ∧ a'.heap = a.heap ∧ a'.settings = a.settings := by
  have hpayload : a.payloadSize ptr = .ok (.error e) := by
    rw [payloadSize, he]
    rfl
  cases r with
  | write p i part =>
    obtain rfl : p = ptr := Option.some.inj hp
    refine ⟨a, ?_, rfl, rfl⟩
    rw [perform, writePayload, hpayload]
    rfl
  | read p i n =>
    obtain rfl : p = ptr := Option.some.inj hp
    refine ⟨a, ?_, rfl, rfl⟩
    rw [perform, readPayload, hpayload]
    rfl
  | allocate | allocateZeroed => cases hp
  | release p =>
    obtain ⟨a', hrun, hr⟩ := operate_denied hs hv (r := .release p) trivial hp he
    exact ⟨a', hrun, hr.heap, hr.settings⟩
  | resize p n =>
    obtain ⟨a', hrun, hr⟩ := operate_denied hs hv (r := .resize p n) trivial hp he
    exact ⟨a', hrun, hr.heap, hr.settings⟩

section

variable (hc : a.Clean cs ls) (hv : a.settings.safety.validates = true)
include hc hv

theorem release_rejected_iff (ptr : Nat) : ∃ result a', a.release ptr = .ok (result, a') ∧
    (Rejected result ptr ↔ ¬ a.Reports ptr) := by
  rcases hc.reports_or_denies ptr with ⟨hp, b, hb, ha, rfl⟩ | ⟨hp, e, he, hr⟩
  · obtain ⟨a', _, _, hrun, -⟩ := release_spec hc.sound hb ha
    exact ⟨.ok (), a', hrun, iff_of_false not_rejected_ok (not_not_intro hp)⟩
  · obtain ⟨a', hrun, -⟩ := release_rejected hc.sound hv he
    exact ⟨.error e, a', hrun, iff_of_true ⟨e, rfl, hr⟩ hp⟩

theorem resize_rejected_iff (ptr n : Nat) : ∃ result a', a.resize (some ptr) n = .ok (result, a') ∧
    (Rejected result ptr ↔ ¬ a.Reports ptr) := by
  rcases hc.reports_or_denies ptr with ⟨hp, b, hb, ha, rfl⟩ | ⟨hp, e, he, hr⟩
  · rcases resize_some_spec hc.sound hb ha n with ⟨e, a', hrun, -⟩ | ⟨_, a', _, _, hrun, -⟩
    · have hshort := change_shortage hc.sound hb ha (settle_eq_ok hrun)
      refine ⟨.error e, a', hrun, iff_of_false ?_ (not_not_intro hp)⟩
      rintro ⟨e', he, hr⟩
      obtain rfl := Except.error.inj he
      exact hshort.not_rejects _ hr
    · exact ⟨.ok _, a', hrun, iff_of_false not_rejected_ok (not_not_intro hp)⟩
  · obtain ⟨a', hrun, -⟩ := resize_rejected hc.sound hv he n
    exact ⟨.error e, a', hrun, iff_of_true ⟨e, rfl, hr⟩ hp⟩

theorem usable_rejected_iff (ptr : Nat) : ∃ result, a.usable ptr = .ok result ∧
    (Rejected result ptr ↔ ¬ a.Reports ptr) := by
  rcases hc.reports_or_denies ptr with ⟨hp, b, hb, ha, rfl⟩ | ⟨hp, e, he, hr⟩
  · exact ⟨_, usable_allocated hc.sound hb ha,
      iff_of_false not_rejected_ok (not_not_intro hp)⟩
  · refine ⟨.error e, ?_, iff_of_true ⟨e, rfl, hr⟩ hp⟩
    rw [usable, validate, if_pos hv, he]
    rfl

omit hv in
theorem readPayload_rejected_iff (ptr : Nat) : ∃ result, a.readPayload ptr 0 none = .ok result ∧
    (Rejected result ptr ↔ ¬ a.Reports ptr) := by
  rcases hc.reports_or_denies ptr with ⟨hp, b, hb, ha, rfl⟩ | ⟨hp, e, he, hr⟩
  · have hread := readPayload_allocated hc.sound hb ha (i := 0) (n := none)
    rw [if_pos (by simp)] at hread
    exact ⟨_, hread, iff_of_false not_rejected_ok (not_not_intro hp)⟩
  · refine ⟨.error e, ?_, iff_of_true ⟨e, rfl, hr⟩ hp⟩
    rw [readPayload, payloadSize, he]
    rfl

end

/-! ## Exposed states -/

/-- The allocators that clients can face who may pass any pointer, as long as what they write is
tame. -/
inductive Exposed (settings : Settings) : Allocator → List Nat → Prop where
  | start {a : Allocator} (h : ofSettings settings = .ok (.ok a)) : Exposed settings a []
  | granted {a a' : Allocator} {allocations : List Nat} {r : Request} {answer : Option Nat}
      (before : Exposed settings a allocations) (tame : r.Tame)
      (h : a.perform r = .ok (.ok answer, a')) :
      Exposed settings a' (r.live allocations answer)
  | refused {a a' : Allocator} {allocations : List Nat} {r : Request} {e : Refusal}
      (before : Exposed settings a allocations) (tame : r.Tame)
      (h : a.perform r = .ok (.error e, a')) :
      Exposed settings a' allocations

/-- One more request; none if it is not tame or stops the run. -/
def attempt : Allocator × List Nat → Request → Option (Allocator × List Nat)
  | (a, allocations), r =>
    if r.Tame then
      match a.perform r with
      | .ok (.ok answer, a) => some (a, r.live allocations answer)
      | .ok (.error _, a) => some (a, allocations)
      | .error _ => none
    else none

/-- A new allocator after the requests `rs`, whatever pointers they pass. -/
def exposure (settings : Settings) (rs : List Request) : Option (Allocator × List Nat) :=
  match ofSettings settings with
  | .ok (.ok a) => rs.foldlM attempt (a, [])
  | _ => none

variable {settings : Settings} {live live' : List Nat}

theorem Exposed.attempt {r : Request} (h : Exposed settings a live)
    (ha : attempt (a, live) r = some (a', live')) : Exposed settings a' live' := by
  rw [Allocator.attempt] at ha
  split at ha
  · split at ha
    · cases ha
      exact .granted h ‹_› ‹_›
    · cases ha
      exact .refused h ‹_› ‹_›
    · cases ha
  · cases ha

theorem Exposed.of_exposure {rs : List Request} (h : exposure settings rs = some (a, live)) :
    Exposed settings a live := by
  rw [exposure] at h
  split at h
  · rename_i a₀ h₀
    exact foldlM_keeps (P := fun s => Exposed settings s.1 s.2)
      (fun _ _ _ hs ht => hs.attempt ht) rs (.start h₀) h
  · cases h

/-- A heap without blocks has no odd word at four modulo eight. -/
theorem ofSettings_clean (h : ofSettings settings = .ok (.ok a)) : a.Clean [] fun _ => [] := by
  obtain ⟨ht, he⟩ := ofSettings_spec h
  refine ⟨ht.sound, he, fun j ho => ?_⟩
  refine ht.sound.header_of_odd he ?_ ho
  have hmod := ho.1
  have hend : firstBlock = a.heap.epilog + wordSize := ht.sound.chain.tiles
  by_cases hj : j < prologEnd
  · refine .inl ⟨j / nodeSize, ?_, ?_⟩ <;>
    · simp only [InWord, prologNode, prologEnd, Bucket.count, nodeSize, alignment, wordSize] at *
      omega
  · refine .inr (.inl ?_)
    simp only [firstBlock, prologEnd, Bucket.count, nodeSize, overhead, alignment, wordSize] at *
    omega

/-- With validation on, the heap of an exposed allocator is clean, and what is live are its
allocated blocks. -/
theorem Exposed.clean (h : Exposed settings a live) (hv : settings.safety.validates = true) :
    ∃ cs ls, a.Tracks live cs ls ∧ a.Clean cs ls ∧ a.settings = settings := by
  induction h with
  | start h => exact ⟨_, _, (ofSettings_spec h).1, ofSettings_clean h, (ofSettings_granted h).1⟩
  | @granted a a' live r answer _ tame hrun ih =>
    obtain ⟨cs, ls, ht, hc, hset⟩ := ih
    -- A pointer that is not live would have been refused.
    have hblock : ∀ ptr, r.pointer = some ptr → ∃ b ∈ cs, b.2.status = .allocated ∧ b.1 = ptr := by
      intro ptr hp
      rcases hc.reports_or_denies ptr with ⟨-, hb⟩ | ⟨-, e, he, -⟩
      · exact hb
      · obtain ⟨a₁, hrun', -⟩ := perform_denied hc.sound (hset ▸ hv) hp he
        cases hrun.symm.trans hrun'
    have hlegal : ∀ ptr, r.pointer = some ptr → ptr ∈ live := fun ptr hp =>
      (ht.live ptr).mpr (hblock ptr hp)
    have hfits := fits_of_perform ht hlegal hrun
    rcases perform_spec ht hlegal hfits with ⟨e, a₁, hrun', -⟩ |
      ⟨answer', new, a₁, cs', ls', hrun', hout, hdone⟩
    · cases hrun.symm.trans hrun'
    · cases hrun.symm.trans hrun'
      exact ⟨cs', ls', hout.tracks ht hlegal hdone,
        perform_clean hc tame hblock hfits hrun hout.sound (hout.exact hc.exact),
        hout.settings.trans hset⟩
  | @refused a a' live r e _ tame hrun ih =>
    obtain ⟨cs, ls, ht, hc, hset⟩ := ih
    have hsame : a'.heap = a.heap ∧ a'.settings = a.settings := by
      by_cases hlegal : ∀ ptr, r.pointer = some ptr → ptr ∈ live
      · rcases perform_spec ht hlegal (fits_of_perform ht hlegal hrun) with ⟨_, a₁, hrun', hr⟩ |
          ⟨_, _, a₁, _, _, hrun', -⟩
        · cases hrun.symm.trans hrun'
          exact ⟨hr.heap, hr.settings⟩
        · cases hrun.symm.trans hrun'
      · obtain ⟨ptr, hp⟩ := Classical.not_forall.mp hlegal
        obtain ⟨hp, hnot⟩ := Classical.not_imp.mp hp
        rcases hc.reports_or_denies ptr with ⟨-, hb⟩ | ⟨-, e', he, -⟩
        · exact absurd ((ht.live ptr).mpr hb) hnot
        · obtain ⟨a₁, hrun', hsame⟩ := perform_denied hc.sound (hset ▸ hv) hp he
          cases hrun.symm.trans hrun'
          exact hsame
    obtain ⟨hheap, hset'⟩ := hsame
    refine ⟨cs, ls, ⟨hheap ▸ ht.sound, ht.live⟩, ⟨hheap ▸ hc.sound, hheap ▸ hc.exact, ?_⟩,
      hset'.trans hset⟩
    exact hheap ▸ hc.unforged

end Allocator

end SegFit
