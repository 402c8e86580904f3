/-
  Settings that correct clients cannot see.  Validation accepts the pointer of every live
  allocation, whatever the payloads hold, and verification passes after every step; so with any
  level of safety, verified or not, the same requests get the same replies and leave the same
  bytes, counters and records (`History.transparent`).
-/
import SegFit.Proofs.Exposure
import SegFit.Proofs.Histories
import SegFit.Proofs.Lockstep

namespace SegFit

namespace Heap

/-- The same heap twice. -/
def Same (h k : Heap) : Prop :=
  h = k ∧ ∃ cs ls, h.Sound cs ls

theorem Sound.same {h : Heap} {cs : List TaggedBlock} {ls : Nat → List Nat} (hs : h.Sound cs ls) :
    h.Same h :=
  ⟨rfl, cs, ls, hs⟩

/-- What is done to one heap keeps it sound and has one answer. -/
theorem lockstep_same : Lockstep Same where
  sound := by
    rintro h _ ⟨rfl, cs, ls, hs⟩
    exact ⟨cs, ls, hs, hs⟩
  acquire := by
    rintro h _ size ⟨rfl, cs, ls, hs⟩ hsz limit
    rcases hs.acquire hsz limit with ⟨cause, hrun⟩ | ⟨grant, h', cs', ls', hrun, hbec, -⟩
    · exact ⟨_, _, _, hrun, hrun, hs.same⟩
    · exact ⟨_, _, _, hrun, hrun, hbec.sound.same⟩
  release := by
    rintro h _ cs ls x ⟨rfl, -⟩ hs hx ha
    obtain ⟨done, h', cs', ls', hrun, -, hbec, -⟩ := hs.release_allocated hx ha
    exact ⟨_, _, _, hrun, hrun, hbec.sound.same⟩
  resize := by
    rintro h _ cs ls size x ⟨rfl, -⟩ hs hx ha hsz limit
    rcases hs.resize hx ha hsz limit with ⟨cause, hrun⟩ | ⟨hrun, -⟩ |
      ⟨done, h', cs', ls', new, hrun, hbec, -⟩
    · exact ⟨_, _, _, hrun, hrun, hs.same⟩
    · exact ⟨_, _, _, hrun, hrun, hs.same⟩
    · exact ⟨_, _, _, hrun, hrun, hbec.sound.same⟩
  copy := by
    rintro h _ cs ls n x y ⟨rfl, -⟩ hs hx hy ha hnx hny
    obtain ⟨m, hm, hs', -⟩ := hs.copy_payload hx hy ha hnx hny
    exact ⟨m, m, hm, hm, hs'.same⟩
  fill := by
    rintro h _ cs ls x f ⟨rfl, -⟩ hs hx ha
    obtain ⟨m, hm, hs', -⟩ := hs.fill_payload hx ha f
    exact ⟨m, m, hm, hm, hs'.same⟩

end Heap

open Heap

namespace Allocator

variable {a a' b : Allocator} {cs : List TaggedBlock} {ls : Nat → List Nat} {live : List Nat}
  {s t : Settings} {r : Request} {result : Except Refusal (Option Nat)}

/-! ## One request -/

/-- Twins with the same heap differ in their settings at most. -/
theorem Twins.eq_with_settings (h : Twins Same a b) : b = { a with settings := b.settings } := by
  obtain ⟨⟨hheap, -⟩, hlimit, hjournal, hblocks, hbytes⟩ := h
  cases a
  cases b
  simp only at hheap hlimit hjournal hblocks hbytes
  simp only [hheap, hlimit, hjournal, hblocks, hbytes]

/-- No request changes the settings. -/
theorem perform_settings (ht : a.Tracks live cs ls)
    (hlegal : ∀ ptr, r.pointer = some ptr → ptr ∈ live) (hrun : a.perform r = .ok (result, a')) :
    a'.settings = a.settings := by
  rcases perform_spec ht hlegal (fits_of_perform ht hlegal hrun) with ⟨_, _, hrun', hr⟩ |
    ⟨_, _, _, _, _, hrun', hout, -⟩
  · cases hrun.symm.trans hrun'
    exact hr.settings
  · cases hrun.symm.trans hrun'
    exact hout.settings

/-- Payloads are accessed without regard to the settings. -/
theorem writePayload_with_settings (a : Allocator) (t : Settings) (ptr i : Nat) (part : ByteArray) :
    ({ a with settings := t } : Allocator).writePayload ptr i part =
      (a.writePayload ptr i part).map fun reply => (reply.1, { reply.2 with settings := t }) := by
  have hsize : ({ a with settings := t } : Allocator).payloadSize ptr = a.payloadSize ptr := rfl
  unfold writePayload
  rw [hsize]
  cases a.payloadSize ptr with
  | error cause => rfl
  | ok answer =>
    cases answer with
    | error e => rfl
    | ok usable =>
      rw [ok_bind, ok_bind]
      dsimp only
      cases payloadSpan usable i (some part.size) with
      | error cause => rfl
      | ok n =>
        rw [ok_bind, ok_bind]
        cases a.heap.mem.write (ptr + i) part <;> rfl

/-- With other settings, a request is answered alike and leaves the same but for the settings. -/
theorem perform_with_settings (ht : a.Tracks live cs ls) (t : Settings)
    (hlegal : ∀ ptr, r.pointer = some ptr → ptr ∈ live) (hrun : a.perform r = .ok (result, a')) :
    ({ a with settings := t } : Allocator).perform r =
      .ok (result, { a' with settings := t }) := by
  by_cases hop : r.Operates
  · have htwins : Twins Same a { a with settings := t } := ⟨ht.sound.same, rfl, rfl, rfl, rfl⟩
    obtain ⟨_, _, b', ha, hb, ht'⟩ := htwins.perform lockstep_same ht hop hlegal
    cases hrun.symm.trans ha
    have hsettings : b'.settings = t :=
      perform_settings (a := { a with settings := t }) ⟨ht.sound, ht.live⟩ hlegal hb
    rw [hb, ht'.eq_with_settings, hsettings]
  · cases r with
    | allocate | allocateZeroed | release | resize => exact absurd trivial hop
    | write ptr i part =>
      obtain ⟨reply, hw, hrun⟩ := bind_eq_ok.mp hrun
      rw [perform, writePayload_with_settings, lift_eq_ok hw]
      cases hrun
      rfl
    | read ptr i n =>
      obtain ⟨reply, hread, hrun⟩ := bind_eq_ok.mp hrun
      have hread' : ({ a with settings := t } : Allocator).readPayload ptr i n = .ok reply :=
        lift_eq_ok hread
      rw [perform, hread']
      cases hrun
      rfl

/-- A pointer of a live allocation is not refused, whatever its payload holds. -/
theorem perform_not_rejected (ht : a.Tracks live cs ls)
    (hlegal : ∀ ptr, r.pointer = some ptr → ptr ∈ live) (hrun : a.perform r = .ok (result, a'))
    {ptr : Nat} (hp : r.pointer = some ptr) : ¬ Rejected result ptr := by
  have hs := ht.sound
  have hfits := fits_of_perform ht hlegal hrun
  obtain ⟨x, hx, hax, rfl⟩ := (ht.live ptr).mp (hlegal ptr hp)
  cases r with
  | allocate | allocateZeroed => cases hp
  | release ptr =>
    obtain rfl : ptr = x.1 := Option.some.inj hp
    obtain ⟨_, _, _, hrelease, -⟩ := release_spec hs hx hax
    rw [perform, hrelease] at hrun
    cases hrun
    exact not_rejected_ok
  | resize ptr n =>
    obtain rfl : ptr = some x.1 := hp
    rintro ⟨e, rfl, hr⟩
    exact (change_shortage hs hx hax (settle_eq_ok hrun)).not_rejects _ hr
  | write ptr i part =>
    obtain rfl : ptr = x.1 := Option.some.inj hp
    obtain ⟨_, hwrite, -⟩ := writePayload_spec hs hx hax (write_fits hs hx hax hfits)
    rw [perform, hwrite] at hrun
    cases hrun
    exact not_rejected_ok
  | read ptr i n =>
    obtain rfl : ptr = x.1 := Option.some.inj hp
    rw [perform, readPayload_allocated hs hx hax, if_pos (read_fits hs hx hax hfits)] at hrun
    cases hrun
    exact not_rejected_ok

/-! ## Runs -/

/-- A new allocator with other settings of the same limit and level. -/
theorem ofSettings_with_settings (hlimit : t.heapLimit = s.heapLimit)
    (hlevel : t.minLevel = s.minLevel) (h : ofSettings s = .ok (.ok a)) :
    ofSettings t = .ok (.ok { a with settings := t }) := by
  rcases ofSettings_of_limit s.heapLimit with ⟨e, he⟩ | ⟨-, heap, hok⟩
  · cases h.symm.trans (he s rfl)
  · cases h.symm.trans (hok s rfl)
    rw [hok t hlimit, note, note, fresh, fresh, hlimit, hlevel]
    rfl

/-- What clients that pass pointers of live allocations only see of a run does not depend on the
level of safety, nor on whether the heap is verified: with other settings of the same limit and
level, the requests get the same replies and leave the same heap, counters and journal. -/
theorem History.transparent (hlimit : t.heapLimit = s.heapLimit) (hlevel : t.minLevel = s.minLevel)
    {es : List Exchange} (h : History s es a live) :
    History t es { a with settings := t } live ∧
    (∀ ptr ∈ live, ∃ n, a.usable ptr = .ok (.ok n) ∧
      ({ a with settings := t } : Allocator).usable ptr = .ok (.ok n)) ∧
    ∀ r : Request, (∀ ptr, r.pointer = some ptr → ptr ∈ live) → r.Fits a →
      ∃ result a', a.perform r = .ok (result, a') ∧
        ({ a with settings := t } : Allocator).perform r =
          .ok (result, { a' with settings := t }) ∧
        ∀ ptr, r.pointer = some ptr → ¬ Rejected result ptr := by
  have hrun : History t es { a with settings := t } live := by
    induction h with
    | start h => exact .start (ofSettings_with_settings hlimit hlevel h)
    | step before legal hrun ih =>
      obtain ⟨cs, ls, ht, -⟩ := before.reachable.tracks
      exact .step ih legal (perform_with_settings ht t legal hrun)
  obtain ⟨cs, ls, ht, -⟩ := h.reachable.tracks
  refine ⟨hrun, fun ptr hptr => ?_, fun r hlegal hfits => ?_⟩
  · obtain ⟨x, hx, hax, rfl⟩ := (ht.live ptr).mp hptr
    exact ⟨_, usable_allocated ht.sound hx hax,
      usable_allocated (a := { a with settings := t }) ht.sound hx hax⟩
  · obtain ⟨⟨result, a'⟩, hperform⟩ : ∃ reply, a.perform r = .ok reply := by
      rcases perform_spec ht hlegal hfits with ⟨_, _, hrun, -⟩ | ⟨_, _, _, _, _, hrun, -⟩
      · exact ⟨_, hrun⟩
      · exact ⟨_, hrun⟩
    exact ⟨result, a', hperform, perform_with_settings ht t hlegal hperform,
      fun ptr hp => perform_not_rejected ht hlegal hperform hp⟩

/-- A payload that looks like a tag of a free block, with no validation and with all of it. -/
theorem transparent_session :
    ∃ es a, es.map Prod.fst = [.allocate 8, .write 112 4 (ByteArray.mk #[16, 0, 0, 0])] ∧
      History {} es a [112] ∧
      History { safety := .hardened, verifyAlways := true } es
        { a with settings := { safety := .hardened, verifyAlways := true } } [112] := by
  have hlive : (session {} [.allocate 8, .write 112 4 (ByteArray.mk #[16, 0, 0, 0])]).map
      Prod.snd = some [112] := by decide +kernel
  obtain ⟨⟨a, live⟩, hrun, rfl⟩ := Option.map_eq_some_iff.mp hlive
  obtain ⟨es, hes, h⟩ := History.of_session hrun
  obtain ⟨h', -⟩ := History.transparent (s := {})
    (t := { safety := .hardened, verifyAlways := true }) rfl rfl h
  exact ⟨es, a, hes, h, h'⟩

end Allocator

end SegFit
