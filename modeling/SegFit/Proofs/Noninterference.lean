/-
  What clients write does not influence allocation.  Accesses to payloads can be left out of a
  history: what remains is one too, and ends in an allocator that is a twin (`History.quiet`).  So
  two runs that operate alike and write what they like get the same replies and leave the same
  layout, lists, counters and records (`History.noninterference`).
-/
import SegFit.Proofs.Histories
import SegFit.Proofs.Likeness

namespace SegFit

open Heap

instance : DecidablePred Request.Operates
  | .write .. | .read .. => isFalse id
  | .allocate _ | .allocateZeroed .. | .release _ | .resize .. => isTrue trivial

/-- The exchanges that allocate, release or resize. -/
def operations (es : List Exchange) : List Exchange :=
  es.filter fun e => e.1.Operates

namespace Allocator

variable {a a' b c : Allocator} {cs : List TaggedBlock} {ls : Nat → List Nat}
  {live live' : List Nat} {settings : Settings} {es fs : List Exchange}

/-! ## Twins -/

theorem Twins.symm (ht : Twins Alike a b) : Twins Alike b a :=
  ⟨ht.heap.symm, ht.limit.symm, ht.journal.symm, ht.liveBlocks.symm, ht.liveBytes.symm⟩

theorem Twins.trans (ht : Twins Alike a b) (ht' : Twins Alike b c) : Twins Alike a c :=
  ⟨ht.heap.trans ht'.heap, ht.limit.trans ht'.limit, ht.journal.trans ht'.journal,
    ht.liveBlocks.trans ht'.liveBlocks, ht.liveBytes.trans ht'.liveBytes⟩

/-- An access to a payload leaves the live allocations, and an allocator that is like it was. -/
theorem Twins.access (ht : Twins Alike a b) (hlive : a.Tracks live cs ls) {r : Request}
    (hop : ¬ r.Operates) (hlegal : ∀ ptr, r.pointer = some ptr → ptr ∈ live)
    {result : Except Refusal (Option Nat)} (hrun : a.perform r = .ok (result, a')) :
    Twins Alike a' b ∧ r.liveAfter live result = live := by
  have hs := hlive.sound
  have hfits := fits_of_perform hlive hlegal hrun
  cases r with
  | allocate | allocateZeroed | release | resize => exact absurd trivial hop
  | read ptr i n =>
    obtain ⟨reply, -, hrun⟩ := bind_eq_ok.mp hrun
    cases hrun
    cases reply with
    | error e => exact ⟨ht, rfl⟩
    | ok part => exact ⟨ht, rfl⟩
  | write ptr i part =>
    obtain ⟨x, hx, hax, rfl⟩ := (hlive.live ptr).mp (hlegal ptr rfl)
    have hfit := write_fits hs hx hax hfits
    have hlarge := (hs.chain.bounds hx).2.2
    obtain ⟨ls', hw⟩ := ht.heap.shared hs
    obtain ⟨m, hwrite, -, hm, -⟩ := writePayload_spec hs hx hax hfit
    rw [Allocator.perform, hwrite] at hrun
    cases hrun
    refine ⟨⟨hw.write_left hx hax hm fun j hj => ?_, ht.limit, ht.journal, ht.liveBlocks,
      ht.liveBytes⟩, rfl⟩
    simp only [Payload, Memory.InRange, minBlock, overhead] at *
    omega

/-! ## Runs -/

theorem operations_concat (es : List Exchange) (e : Exchange) :
    operations (es ++ [e]) = operations es ++ if e.1.Operates then [e] else [] := by
  rw [operations, List.filter_append, List.filter_singleton]
  simp [operations]

theorem map_operations (es : List Exchange) :
    (operations es).map Prod.fst = (es.map Prod.fst).filter fun r => r.Operates := by
  rw [List.filter_map]
  rfl

/-- Accesses can be left out. -/
theorem History.quiet (h : History settings es a live) :
    ∃ b, History settings (operations es) b live ∧ Twins Alike a b := by
  induction h with
  | @start a h =>
    obtain ⟨ht, he⟩ := ofSettings_spec h
    exact ⟨a, .start h, ⟨_, _, ht.sound, ht.sound, he, he⟩, rfl, rfl, rfl, rfl⟩
  | @step es a a' live r result before legal hrun ih =>
    obtain ⟨b, hb, ht⟩ := ih
    obtain ⟨cs, ls, hlive, -⟩ := before.reachable.tracks
    rw [operations_concat]
    by_cases hop : r.Operates
    · obtain ⟨_, _, b', ha, hperform, ht'⟩ := ht.perform lockstep_alike hlive hop legal
      cases hrun.symm.trans ha
      rw [if_pos hop]
      exact ⟨b', .step hb legal hperform, ht'⟩
    · obtain ⟨ht', hsame⟩ := ht.access hlive hop legal hrun
      rw [if_neg hop, List.append_nil, hsame]
      exact ⟨b, hb, ht'⟩

/-- Two runs with the same settings that allocate, release and resize alike are answered alike,
whatever they write into payloads in between: allocators, blocks and lists are the same, all words
that describe them are, and the next operation is answered alike. -/
theorem History.noninterference (h : History settings es a live)
    (h' : History settings fs b live')
    (hsame : (operations es).map Prod.fst = (operations fs).map Prod.fst) :
    operations es = operations fs ∧ live = live' ∧
    a.heap.size = b.heap.size ∧ a.heap.epilog = b.heap.epilog ∧
    a.liveBlocks = b.liveBlocks ∧ a.liveBytes = b.liveBytes ∧ a.journal = b.journal ∧
    (∃ bs, a.blocks = .ok bs ∧ b.blocks = .ok bs ∧
      ∀ i, a.heap.TagWord bs i ∨ a.heap.LinkWord bs i → a.heap.mem.word i = b.heap.mem.word i) ∧
    (∀ k < Bucket.count, ∃ ns, a.heap.nodes k = .ok ns ∧ b.heap.nodes k = .ok ns) ∧
    ∀ r : Request, r.Operates → (∀ ptr, r.pointer = some ptr → ptr ∈ live) →
      ∃ result a' b', a.perform r = .ok (result, a') ∧ b.perform r = .ok (result, b') := by
  obtain ⟨c, hc, ht⟩ := h.quiet
  obtain ⟨d, hd, ht'⟩ := h'.quiet
  obtain ⟨hes, rfl, rfl⟩ := hc.unique hd hsame
  have htwins := ht.trans ht'.symm
  obtain ⟨cs, ls, hlive, -⟩ := h.reachable.tracks
  obtain ⟨ls, hw⟩ := htwins.heap.shared hlive.sound
  have hs := hw.left
  have hs' := hw.right
  obtain ⟨hepilog, hsize⟩ := hs.extent_eq hs'
  refine ⟨hes, rfl, hsize, hepilog, htwins.liveBlocks, htwins.liveBytes, htwins.journal,
    ⟨_, hs.consistent.blocks, ?_, fun i hi => ?_⟩, fun k hk => ?_, fun r hop hlegal => ?_⟩
  · exact (hs.views_eq hs').symm ▸ hs'.consistent.blocks
  · exact hi.elim (tagWord_eq hs hs' hw.leftExact hw.rightExact)
      (linkWord_eq hs hs' hw.leftExact hw.rightExact)
  · exact ⟨ls k, hs.consistent.nodes hk, hs'.consistent.nodes hk⟩
  · obtain ⟨result, a', b', ha, hb, -⟩ := htwins.perform lockstep_alike hlive hop hlegal
    exact ⟨result, a', b', ha, hb⟩

/-- One run that writes what looks like a tag before it frees, and one that does not write. -/
theorem noninterference_session :
    ∃ a b, session {} [.allocate 8, .write 112 4 (ByteArray.mk #[16, 0, 0, 0]), .release 112] =
        some (a, []) ∧
      session {} [.allocate 8, .release 112] = some (b, []) ∧
      a.journal = b.journal ∧ ∃ bs, a.blocks = .ok bs ∧ b.blocks = .ok bs := by
  obtain ⟨hlive, hlive'⟩ : (session {} [.allocate 8, .write 112 4 (ByteArray.mk #[16, 0, 0, 0]),
      .release 112]).map Prod.snd = some [] ∧
      (session {} [.allocate 8, .release 112]).map Prod.snd = some [] := by decide +kernel
  obtain ⟨⟨a, live⟩, hrun, rfl⟩ := Option.map_eq_some_iff.mp hlive
  obtain ⟨⟨b, live'⟩, hrun', rfl⟩ := Option.map_eq_some_iff.mp hlive'
  obtain ⟨es, hes, h⟩ := History.of_session hrun
  obtain ⟨fs, hfs, h'⟩ := History.of_session hrun'
  have hsame : (operations es).map Prod.fst = (operations fs).map Prod.fst := by
    rw [map_operations, map_operations, hes, hfs]
    rfl
  obtain ⟨-, -, -, -, -, -, hjournal, ⟨bs, hbs, hbs', -⟩, -⟩ :=
    History.noninterference h h' hsame
  exact ⟨a, b, hrun, hrun', hjournal, bs, hbs, hbs'⟩

end Allocator

end SegFit
