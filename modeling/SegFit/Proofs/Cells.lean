/-
  Allocations as independent cells.  The cell of an allocation is its payload as clients read
  it (`Cell`).  A cell that is handed out is aligned, large enough and apart from all others
  (`Placed`); what each request does to the cells is `Effect`, and it leaves every cell that
  it does not name as it was.
-/
import SegFit.Proofs.Runs

namespace SegFit

namespace Allocator

open Heap

variable {a a' : Allocator} {cs cs' : List TaggedBlock} {ls ls' : Nat → List Nat}
  {b c : TaggedBlock}

/-! ## Cells -/

/-- The payload of the allocation at `p` is `data`, and all of it may be used. -/
structure Cell (a : Allocator) (p : Nat) (data : ByteArray) : Prop where
  read : a.readPayload p 0 none = .ok (.ok data)
  usable : a.usable p = .ok (.ok data.size)

/-- The cell at `p` holds at least `n` bytes; it is aligned, lies among the blocks, and meets
no cell of `others`. -/
structure Placed (a : Allocator) (others : List Nat) (n p : Nat) (data : ByteArray) : Prop where
  cell : a.Cell p data
  aligned : p % alignment = 0
  large : n ≤ data.size
  first : firstBlock ≤ p
  last : p + data.size ≤ a.heap.epilog
  apart : ∀ q ∈ others, ∃ other, a.Cell q other ∧ (p + data.size ≤ q ∨ q + other.size ≤ p)

/-- A request for `n` bytes got its `answer`: no cell if `n = 0`, and otherwise one that is apart
from `others` and has the bytes that are asked for. -/
def Obtains (a : Allocator) (others : List Nat) (n : Nat) (answer : Option Nat)
    (bytes : ByteArray → Prop) : Prop :=
  if n = 0 then answer = none
  else ∃ p data, answer = some p ∧ a.Placed others n p data ∧ bytes data

/-- What a granted request with the answer given does besides leaving the cells of `others` as
they are. -/
def Effect (a a' : Allocator) (others : List Nat) (answer : Option Nat) : Request → Prop
  | .allocate n => a'.Obtains others n answer fun _ => True
  | .allocateZeroed count size => a'.Obtains others (count * size) answer fun data =>
      ∀ k < data.size, data.data[k]? = some 0
  | .release _ => answer = none
  | .resize ptr n => a'.Obtains others n answer fun data =>
      ∀ p old, ptr = some p → a.Cell p old →
        ∀ k < min old.size data.size, data.data[k]? = old.data[k]?
  | .write ptr i part => answer = none ∧ ∀ old, a.Cell ptr old → ∃ new, a'.Cell ptr new ∧
      new.size = old.size ∧ ∀ k < old.size, new.data[k]? =
        if i ≤ k ∧ k < i + part.size then part.data[k - i]? else old.data[k]?
  | .read .. => answer = none ∧ a' = a

/-! ## The cells of allocated blocks -/

/-- The bytes of the payload of a block. -/
def payload (a : Allocator) (b : TaggedBlock) : ByteArray :=
  a.heap.mem.slice b.1 (b.2.size - overhead)

theorem size_payload (hs : a.heap.Sound cs ls) (hb : b ∈ cs) :
    (a.payload b).size = b.2.size - overhead :=
  Memory.size_slice (hs.consistent.payload_le hb)

theorem getElem?_payload (hs : a.heap.Sound cs ls) (hb : b ∈ cs) {k : Nat}
    (hk : k < b.2.size - overhead) : (a.payload b).data[k]? = some (a.heap.mem.byte (b.1 + k)) :=
  Memory.getElem?_slice (hs.consistent.payload_le hb) hk

/-- The cell of an allocated block is the payload of the block. -/
theorem cell_iff (hs : a.heap.Sound cs ls) (hb : b ∈ cs) (ha : b.2.status = .allocated)
    {data : ByteArray} : a.Cell b.1 data ↔ data = a.payload b := by
  have hread : a.readPayload b.1 0 none = .ok (.ok (a.payload b)) := by
    rw [readPayload_allocated hs hb ha, if_pos (by simp)]
    rfl
  constructor
  · intro h
    exact Except.ok.inj (Except.ok.inj (h.read.symm.trans hread))
  · rintro rfl
    exact ⟨hread, by rw [usable_allocated hs hb ha, size_payload hs hb]⟩

/-- A payload whose bytes are kept is the same payload. -/
theorem payload_congr (hs : a.heap.Sound cs ls) (hs' : a'.heap.Sound cs' ls') (hb : b ∈ cs)
    (hb' : b ∈ cs') (hk : ∀ j, Payload b j → a'.heap.mem.byte j = a.heap.mem.byte j) :
    a'.payload b = a.payload b := by
  refine Memory.slice_congr (hs.consistent.payload_le hb) (hs'.consistent.payload_le hb')
    fun k hk' => hk _ ⟨Nat.le_add_right .., ?_⟩
  simp only [overhead] at *
  omega

/-- A cell that was not given up is kept. -/
theorem Outcome.cell_kept {gone : Option Nat} {new : Option TaggedBlock}
    (hout : Outcome a cs gone new a' cs' ls') (hs : a.heap.Sound cs ls) (hb : b ∈ cs)
    (ha : b.2.status = .allocated) (hg : gone ≠ some b.1) {data : ByteArray}
    (h : a.Cell b.1 data) : a'.Cell b.1 data := by
  have hb' := hout.swaps.mem_of_mem hb ha hg
  rw [(cell_iff hs hb ha).mp h, cell_iff hout.sound hb' ha]
  exact (payload_congr hs hout.sound hb hb' (hout.kept b hb ha hg)).symm

/-- The cell of a block that was added is apart from those that were kept. -/
theorem Outcome.placed {gone : Option Nat} {n : Nat} {live others : List Nat}
    (hout : Outcome a cs gone (some c) a' cs' ls') (ht : a.Tracks live cs ls)
    (hsup : Supplies n (some c)) (hothers : ∀ q ∈ others, q ∈ live ∧ gone ≠ some q) :
    a'.Placed others n c.1 (a'.payload c) := by
  have ha := hout.swaps.allocated c rfl
  have hc := hout.swaps.mem_of_new
  have hs' := hout.sound
  have hsize := size_payload hs' hc
  obtain ⟨hfirst, hlast, hlarge⟩ := hs'.chain.bounds hc
  obtain ⟨size, hn, hle⟩ := hsup.large c rfl
  have hroom := (blockSizeFor_spec hn).2
  refine ⟨(cell_iff hs' hc ha).mpr rfl, hs'.chain.aligned.1 c hc, ?_, hfirst, ?_, fun q hq => ?_⟩
  · simp only [overhead] at *
    omega
  · simp only [minBlock, overhead, wordSize] at *
    omega
  · obtain ⟨hq, hg⟩ := hothers q hq
    obtain ⟨d, hd, hda, rfl⟩ := (ht.live q).mp hq
    have hd' := hout.swaps.mem_of_mem hd hda hg
    have hne : c ≠ d := fun he => hout.swaps.fresh c rfl d hd hda hg (congrArg Prod.fst he.symm)
    have hap := (hs'.chain.tiles.eq_or_apart hc hd').resolve_left hne
    refine ⟨a'.payload d, (cell_iff hs' hd' hda).mpr rfl, ?_⟩
    rw [hsize, size_payload hs' hd']
    simp only [overhead]
    omega

/-! ## Requests -/

/-- What a request for `n` bytes got, with bytes that the payload of its block has. -/
theorem Outcome.obtains {gone : Option Nat} {new : Option TaggedBlock} {n : Nat}
    {live others : List Nat} (hout : Outcome a cs gone new a' cs' ls') (ht : a.Tracks live cs ls)
    (hsup : Supplies n new) (hothers : ∀ q ∈ others, q ∈ live ∧ gone ≠ some q)
    {bytes : ByteArray → Prop} (hbytes : ∀ c ∈ new, c ∈ cs' → bytes (a'.payload c)) :
    a'.Obtains others n (new.map Prod.fst) bytes := by
  rw [Obtains]
  split
  · rename_i hn
    rw [hsup.isNone.mpr hn]
    rfl
  · rename_i hn
    obtain ⟨c, rfl⟩ := hsup.exists_eq hn
    exact ⟨c.1, a'.payload c, rfl, hout.placed ht hsup hothers, hbytes c rfl hout.swaps.mem_of_new⟩

/-- A granted request has its effect on the cells. -/
theorem Outcome.effect {live others : List Nat} {r : Request} {new : Option TaggedBlock}
    {answer : Option Nat} (ht : a.Tracks live cs ls)
    (hlegal : ∀ ptr, r.pointer = some ptr → ptr ∈ live)
    (hout : Outcome a cs r.pointer new a' cs' ls') (hdone : Done a cs new a' answer r)
    (hothers : ∀ q ∈ others, q ∈ live ∧ r.pointer ≠ some q) : Effect a a' others answer r := by
  have hs := ht.sound
  have hs' := hout.sound
  cases r with
  | allocate n =>
    obtain ⟨rfl, hsup⟩ := hdone
    exact hout.obtains ht hsup hothers fun _ _ _ => trivial
  | allocateZeroed count size =>
    obtain ⟨rfl, hsup, hzero⟩ := hdone
    refine hout.obtains ht hsup hothers fun c hn hc k hk => ?_
    rw [size_payload hs' hc] at hk
    rw [getElem?_payload hs' hc hk, hzero c hn]
    exact ⟨Nat.le_add_right .., by simp only [overhead] at *; omega⟩
  | release ptr => exact hdone.1
  | resize ptr n =>
    obtain ⟨rfl, hsup, hcarry⟩ := hdone
    refine hout.obtains ht hsup hothers fun c hn hc p old hp hold k hk => ?_
    obtain ⟨b, hb, ha, rfl⟩ := (ht.live p).mp (hlegal p hp)
    rw [(cell_iff hs hb ha).mp hold] at hk ⊢
    rw [size_payload hs hb, size_payload hs' hc] at hk
    rw [getElem?_payload hs hb (by omega), getElem?_payload hs' hc (by omega),
      hcarry b hb ha hp c hn k (by simp only [overhead] at *; omega)
        (by simp only [overhead] at *; omega)]
  | write ptr i part =>
    obtain ⟨hanswer, b, hb, rfl, rfl, honly, hbytes⟩ := hdone
    have ha := hout.swaps.allocated b rfl
    have hb' := hout.swaps.mem_of_new
    refine ⟨hanswer, fun old hold => ⟨a'.payload b, (cell_iff hs' hb' ha).mpr rfl, ?_, ?_⟩⟩
    · rw [(cell_iff hs hb ha).mp hold, size_payload hs hb, size_payload hs' hb']
    · rw [(cell_iff hs hb ha).mp hold]
      intro k hk
      rw [size_payload hs hb] at hk
      rw [getElem?_payload hs' hb' hk]
      split
      · have := hbytes (k - i) (by omega)
        rw [show b.1 + i + (k - i) = b.1 + k by omega] at this
        rw [this, Array.getElem?_eq_getElem (show k - i < part.data.size from by
          have h : part.data.size = part.size := rfl
          omega)]
        rfl
      · rw [getElem?_payload hs hb hk, honly.byte _ fun hin => ?_]
        simp only [Memory.InRange] at hin
        omega
  | read ptr i n => exact ⟨hdone.1, hdone.2.1⟩

/-- In every state that clients can reach, each live allocation is a cell, and the next request
changes no cell but the one that it names; it has its effect if granted, and none on any cell if
refused. -/
theorem Reachable.independent_cells {settings : Settings} {live : List Nat}
    (h : Reachable settings a live) {r : Request}
    (legal : ∀ ptr, r.pointer = some ptr → ptr ∈ live) (hfits : r.Fits a) :
    (∀ q ∈ live, ∃ data, a.Cell q data) ∧
    ∃ result a', a.perform r = .ok (result, a') ∧
      match result with
      | .error _ => ∀ q ∈ live, ∀ data, a.Cell q data → a'.Cell q data
      | .ok answer =>
        (∀ q ∈ live, r.pointer ≠ some q → ∀ data, a.Cell q data → a'.Cell q data) ∧
          Effect a a' (live.filter fun q => r.pointer ≠ some q) answer r := by
  obtain ⟨cs, ls, ht, -⟩ := h.tracks
  have hs := ht.sound
  refine ⟨fun q hq => ?_, ?_⟩
  · obtain ⟨b, hb, ha, rfl⟩ := (ht.live q).mp hq
    exact ⟨_, (cell_iff hs hb ha).mpr rfl⟩
  rcases perform_spec ht legal hfits with ⟨e, a', hrun, hr⟩ |
    ⟨answer, new, a', cs', ls', hrun, hout, hdone⟩
  · refine ⟨.error e, a', hrun, fun q hq data hcell => ?_⟩
    obtain ⟨b, hb, ha, rfl⟩ := (ht.live q).mp hq
    have hs' : a'.heap.Sound cs ls := hr.heap ▸ hs
    rw [(cell_iff hs hb ha).mp hcell, cell_iff hs' hb ha, payload, payload, hr.heap]
  · refine ⟨.ok answer, a', hrun, fun q hq hg data hcell => ?_, hout.effect ht legal hdone ?_⟩
    · obtain ⟨b, hb, ha, rfl⟩ := (ht.live q).mp hq
      exact hout.cell_kept hs hb ha hg hcell
    · intro q hq
      simpa using List.mem_filter.mp hq

/-- One of two allocations moves, since it grows.  The other one keeps its bytes, and the new place
is apart from it. -/
theorem independent_cells_session :
    ∃ a, session {} cutUp = some (a, [192, 176]) ∧
      ∃ old other, a.Cell 176 old ∧ a.Cell 192 other ∧
      ∃ a', a.perform (.resize (some 176) 40) = .ok (.ok (some 112), a') ∧ a'.Cell 192 other ∧
        ∃ data, a'.Placed [192] 40 112 data ∧
          ∀ k < min old.size data.size, data.data[k]? = old.data[k]? := by
  obtain ⟨a, hrun, -, a', hmoved⟩ := session_cutUp
  obtain ⟨hcells, result, a₁, hnext, hmatch⟩ :=
    Reachable.independent_cells (r := .resize (some 176) 40) (.of_session hrun)
      (fun _ h => by cases h; decide) trivial
  cases hmoved.symm.trans hnext
  obtain ⟨old, hold⟩ := hcells 176 (by decide)
  obtain ⟨other, hother⟩ := hcells 192 (by decide)
  obtain ⟨hkept, heffect⟩ := hmatch
  obtain ⟨p, data, hp, hplaced, hbytes⟩ := heffect
  obtain rfl := Option.some.inj hp
  exact ⟨a, hrun, old, other, hold, hother, a', hmoved,
    hkept 192 (by decide) (by decide) other hother, data, hplaced,
    fun k hk => hbytes 176 old rfl hold k hk⟩

end Allocator

end SegFit
