/-
  How a step of an allocator can end.  Refused, it has left nothing but a warning in the
  journal.  Granted, the heap is sound again, at most one allocation was given up and at most
  one added, all others have kept their bytes, and nothing above the level of information was
  noted (`Outcome`).
-/
import SegFit.Allocator.Steps
import SegFit.Proofs.LiveBlocks
import SegFit.Proofs.Payloads
import SegFit.Proofs.Views

namespace SegFit

/-! ## Journals -/

/-- An entry of a granted step. -/
def Entry.Plain (e : Entry) : Prop :=
  e.level ≠ .warn ∧ e.level ≠ .error

theorem Entry.plain_trace {e : Entry} (h : e.level = .trace) : e.Plain :=
  ⟨by simp [h], by simp [h]⟩

theorem Entry.plain_debug {e : Entry} (h : e.level = .debug) : e.Plain :=
  ⟨by simp [h], by simp [h]⟩

/-- From `j` to `j'`, only records of granted steps were added. -/
structure Journal.Quiet (j j' : Journal) : Prop where
  minLevel : j'.minLevel = j.minLevel
  records : ∃ rs : List Record, j'.records.toList = j.records.toList ++ rs ∧
    ∀ r ∈ rs, r.entry.Plain

namespace Journal

theorem Quiet.refl (j : Journal) : j.Quiet j :=
  ⟨rfl, [], by simp, by simp⟩

theorem Quiet.trans {i j k : Journal} (h₁ : i.Quiet j) (h₂ : j.Quiet k) : i.Quiet k := by
  obtain ⟨hl₁, rs, hr₁, hp₁⟩ := h₁
  obtain ⟨hl₂, ts, hr₂, hp₂⟩ := h₂
  refine ⟨hl₂.trans hl₁, rs ++ ts, by rw [hr₂, hr₁, List.append_assoc], fun r hr => ?_⟩
  exact (List.mem_append.mp hr).elim (hp₁ r) (hp₂ r)

theorem minLevel_record (j : Journal) (e : Entry) (s : Snapshot) :
    (j.record e s).minLevel = j.minLevel := by
  unfold record
  split <;> rfl

/-- An entry adds its record if its level is enabled, and nothing otherwise. -/
theorem records_record (j : Journal) (e : Entry) (s : Snapshot) :
    (j.record e s).records.toList =
      j.records.toList ++ if j.enabled e.level then [⟨j.nextId, e, s⟩] else [] := by
  unfold record
  split <;> simp

theorem quiet_record (j : Journal) {e : Entry} (he : e.Plain) (s : Snapshot) :
    j.Quiet (j.record e s) := by
  refine ⟨minLevel_record .., _, records_record .., fun r hr => ?_⟩
  split at hr
  · rw [List.mem_singleton.mp hr]
    exact he
  · cases hr

end Journal

namespace Allocator

open Heap

/-! ## Refusals -/

/-- From `a` to `a'`, nothing was done but a warning noted. -/
def Refused (a a' : Allocator) : Prop :=
  ∃ e : Entry, e.level = .warn ∧ a' = a.note e

theorem refused_note (a : Allocator) {e : Entry} (he : e.level = .warn) : a.Refused (a.note e) :=
  ⟨e, he, rfl⟩

theorem Refused.heap {a a' : Allocator} (h : a.Refused a') : a'.heap = a.heap := by
  obtain ⟨e, -, rfl⟩ := h
  rfl

theorem Refused.settings {a a' : Allocator} (h : a.Refused a') : a'.settings = a.settings := by
  obtain ⟨e, -, rfl⟩ := h
  rfl

/-! ## Grants -/

/-- From `a`, whose heap has the blocks `cs`, to `a'` in a granted step: the allocation at `gone`
is given up, `new` is added, and all others keep their bytes. -/
structure Outcome (a : Allocator) (cs : List TaggedBlock) (gone : Option Nat)
    (new : Option TaggedBlock) (a' : Allocator) (cs' : List TaggedBlock) (ls' : Nat → List Nat) :
    Prop where
  sound : a'.heap.Sound cs' ls'
  exact : a.heap.Exact cs → a'.heap.Exact cs'
  swaps : Swaps cs cs' gone new
  kept : ∀ c ∈ cs, c.2.status = .allocated → gone ≠ some c.1 → ∀ j, Payload c j →
    a'.heap.mem.byte j = a.heap.mem.byte j
  settings : a'.settings = a.settings
  limit : a'.limit = a.limit
  quiet : a.journal.Quiet a'.journal

variable {a a' a'' : Allocator} {cs cs' cs'' : List TaggedBlock} {ls ls' ls'' : Nat → List Nat}
  {gone : Option Nat} {new : Option TaggedBlock}

theorem Outcome.refl (hs : a.heap.Sound cs ls) : Outcome a cs none none a cs ls :=
  ⟨hs, id, .refl cs, fun _ _ _ _ _ _ => rfl, rfl, rfl, .refl _⟩

/-- Counters do not matter, and the journal may gain plain entries. -/
theorem Outcome.congr (h : Outcome a cs gone new a' cs' ls') (hh : a''.heap = a'.heap)
    (hs : a''.settings = a'.settings) (hl : a''.limit = a'.limit)
    (hq : a'.journal.Quiet a''.journal) : Outcome a cs gone new a'' cs' ls' :=
  ⟨hh ▸ h.sound, hh ▸ h.exact, h.swaps, hh ▸ h.kept, hs.trans h.settings, hl.trans h.limit,
    h.quiet.trans hq⟩

theorem Outcome.note (h : Outcome a cs gone new a' cs' ls') {e : Entry} (he : e.Plain) :
    Outcome a cs gone new (a'.note e) cs' ls' :=
  h.congr rfl rfl rfl (a'.journal.quiet_record he _)

theorem Outcome.countBlock (h : Outcome a cs gone new a' cs' ls') (n : Nat) :
    Outcome a cs gone new (a'.countBlock n) cs' ls' :=
  h.congr rfl rfl rfl (.refl _)

theorem Outcome.discountBlock (h : Outcome a cs gone new a' cs' ls') (n : Nat) :
    Outcome a cs gone new (a'.discountBlock n) cs' ls' :=
  h.congr rfl rfl rfl (.refl _)

theorem Outcome.recountBlock (h : Outcome a cs gone new a' cs' ls') (m n : Nat) :
    Outcome a cs gone new (a'.recountBlock m n) cs' ls' :=
  h.congr rfl rfl rfl (.refl _)

/-- A heap operation as a step of the allocator. -/
theorem Outcome.of_becomes (hs : a.heap.Sound cs ls) {h' : Heap} (hb : a.heap.Becomes cs h' cs' ls')
    (hsw : Swaps cs cs' gone new) : Outcome a cs gone new { a with heap := h' } cs' ls' :=
  ⟨hb.sound, hb.exact, hsw, fun _ hc ha hg _ hj =>
    hb.payload hs.chain hc ha (hsw.mem_of_mem hc ha hg) ha hj hj, rfl, rfl, .refl _⟩

/-- Writing into the payload of the block that was added. -/
theorem Outcome.write_payload {b : TaggedBlock} (h : Outcome a cs gone (some b) a' cs' ls')
    {m : Memory} {S : Nat → Prop} (hm : a'.heap.mem.ChangesOnly m S) (hS : ∀ j, S j → Payload b j) :
    Outcome a cs gone (some b) { a' with heap := ⟨m, a'.heap.epilog⟩ } cs' ls' := by
  have ha := h.swaps.allocated b rfl
  have hb := h.swaps.mem_of_new
  obtain ⟨hs, he⟩ := h.sound.write_payload hb ha hm hS
  refine ⟨hs, fun hx => he (h.exact hx), h.swaps, fun c hc hac hg j hj => ?_, h.settings, h.limit,
    h.quiet⟩
  have hcm := h.swaps.mem_of_mem hc hac hg
  have hne : c ≠ b := fun he => h.swaps.fresh b rfl c hc hac hg (congrArg Prod.fst he)
  have hkeep : ¬ S j := fun hs' => h.sound.chain.payload_disjoint hcm hb hne hj (hS j hs')
  exact (hm.byte j hkeep).trans (h.kept c hc hac hg j hj)

/-- Copying from another payload into that of the block that was added. -/
theorem Outcome.copy_payload {b c : TaggedBlock} (h : Outcome a cs gone (some c) a' cs' ls')
    (hb : b ∈ cs') {n : Nat} (hnb : n + overhead ≤ b.2.size) (hnc : n + overhead ≤ c.2.size) :
    ∃ m, a'.heap.mem.copy b.1 c.1 n = .ok m ∧
      a'.heap.mem.ChangesOnly m (Memory.InRange c.1 n) ∧
      (∀ k < n, m.byte (c.1 + k) = a'.heap.mem.byte (b.1 + k)) ∧
      Outcome a cs gone (some c) { a' with heap := ⟨m, a'.heap.epilog⟩ } cs' ls' := by
  have hk := h.sound.consistent
  have hbin := hk.payload_le hb
  have hcin := hk.payload_le h.swaps.mem_of_new
  obtain ⟨m, hm, hmc, hmb⟩ := Memory.copy_spec (m := a'.heap.mem) b.1 c.1 (n := n)
    (by simp only [overhead] at *; omega) (by simp only [overhead] at *; omega)
  refine ⟨m, hm, hmc, hmb, h.write_payload hmc fun j hj => ?_⟩
  simp only [Payload, Memory.InRange, overhead] at *
  omega

/-- A block that was added is given up no more; then another one is. -/
theorem Outcome.trans {b : TaggedBlock} {x : Nat} (h₁ : Outcome a cs none (some b) a' cs' ls')
    (h₂ : Outcome a' cs' (some x) none a'' cs'' ls'') (hne : b.1 ≠ x) :
    Outcome a cs (some x) (some b) a'' cs'' ls'' := by
  refine ⟨h₂.sound, fun he => h₂.exact (h₁.exact he), h₁.swaps.trans h₂.swaps hne,
    fun c hc ha hg j hj => ?_, h₂.settings.trans h₁.settings, h₂.limit.trans h₁.limit,
    h₁.quiet.trans h₂.quiet⟩
  have hcm := h₁.swaps.mem_of_mem hc ha (by simp)
  exact (h₂.kept c hcm ha hg j hj).trans (h₁.kept c hc ha (by simp) j hj)

/-! ## Replies -/

/-- The reply `x` of a step is a refusal, or a grant of the block that was added, of which `P`
says more. -/
def Answered {ε : Type} (a : Allocator) (cs : List TaggedBlock) (gone : Option Nat)
    (x : Except ε (Reply (Option Nat))) (P : Option TaggedBlock → Allocator → Prop) : Prop :=
  (∃ e a', x = .ok (.error e, a') ∧ a.Refused a') ∨
    ∃ new a' cs' ls', x = .ok (.ok (new.map Prod.fst), a') ∧
      Outcome a cs gone new a' cs' ls' ∧ P new a'

end Allocator

end SegFit
