/-
  Journals do not act on what they record.  Whatever relation between two journals lasts when both
  record the same (`Recorded`), allocators that differ in their journals only answer every call
  alike, or stop alike, and their journals stay related (`Beside.perform`).  So the level of a
  journal only filters what is recorded (`Client.run_filtered`).
-/
import Mathlib.Data.List.Forall2
import SegFit.Allocator.Client
import SegFit.Proofs.Answers

namespace SegFit

/-- Both computations end with the same error, or with the same answer and in related states. -/
inductive Concur {ε α σ : Type} (R : σ → σ → Prop) : Except ε (α × σ) → Except ε (α × σ) → Prop where
  | stopped (e : ε) : Concur R (.error e) (.error e)
  | answered (answer : α) {s t : σ} (h : R s t) : Concur R (.ok (answer, s)) (.ok (answer, t))

namespace Concur

variable {ε α β γ σ τ : Type} {R : σ → σ → Prop} {S : τ → τ → Prop}

/-- One step after the other. -/
theorem bind {x y : Except ε (α × σ)} {f g : α × σ → Except ε (β × τ)} (h : Concur R x y)
    (hnext : ∀ answer s t, R s t → Concur S (f (answer, s)) (g (answer, t))) :
    Concur S (x >>= f) (y >>= g) := by
  cases h with
  | stopped e => exact .stopped e
  | answered answer h => exact hnext answer _ _ h

/-- What both compute alike, before a step. -/
theorem after {x y : Except ε γ} {f g : γ → Except ε (β × τ)} (hxy : x = y)
    (hnext : ∀ v, Concur S (f v) (g v)) : Concur S (x >>= f) (y >>= g) := by
  subst hxy
  cases x with
  | error e => exact .stopped e
  | ok v => exact hnext v

theorem lift {x y : Except Fault (α × σ)} (h : Concur R x y) :
    Concur R (SegFit.lift x) (SegFit.lift y) := by
  cases h with
  | stopped e => exact .stopped (Stop.fault e)
  | answered answer h => exact .answered answer h

end Concur

namespace Allocator

/-- `R` lasts when both journals record the same. -/
def Recorded (R : Journal → Journal → Prop) : Prop :=
  ∀ (j k : Journal) (e : Entry) (s : Snapshot), R j k → R (j.record e s) (k.record e s)

/-- Allocators that differ in their journals and their level at most; `R` relates the journals. -/
structure Beside (R : Journal → Journal → Prop) (a b : Allocator) : Prop where
  heap : a.heap = b.heap
  limit : a.limit = b.limit
  safety : a.settings.safety = b.settings.safety
  verifyAlways : a.settings.verifyAlways = b.settings.verifyAlways
  liveBlocks : a.liveBlocks = b.liveBlocks
  liveBytes : a.liveBytes = b.liveBytes
  journal : R a.journal b.journal

variable {R : Journal → Journal → Prop} {a b : Allocator} {symbol : String} {ptr n size old : Nat}

/-! ## Counters and journals -/

theorem Beside.with_heap (h : Beside R a b) (heap : Heap) :
    Beside R { a with heap } { b with heap } :=
  ⟨rfl, h.limit, h.safety, h.verifyAlways, h.liveBlocks, h.liveBytes, h.journal⟩

theorem Beside.countBlock (h : Beside R a b) (n : Nat) :
    Beside R (a.countBlock n) (b.countBlock n) :=
  ⟨h.heap, h.limit, h.safety, h.verifyAlways, congrArg (· + 1) h.liveBlocks,
    congrArg (· + n) h.liveBytes, h.journal⟩

theorem Beside.discountBlock (h : Beside R a b) (n : Nat) :
    Beside R (a.discountBlock n) (b.discountBlock n) :=
  ⟨h.heap, h.limit, h.safety, h.verifyAlways, congrArg (· - 1) h.liveBlocks,
    congrArg (· - n) h.liveBytes, h.journal⟩

theorem Beside.recountBlock (h : Beside R a b) (old new : Nat) :
    Beside R (a.recountBlock old new) (b.recountBlock old new) :=
  ⟨h.heap, h.limit, h.safety, h.verifyAlways, h.liveBlocks, congrArg (· + new - old) h.liveBytes,
    h.journal⟩

/-- Validation does not look at the journal. -/
theorem Beside.validate_eq (h : Beside R a b) (ptr : Nat) : a.validate ptr = b.validate ptr := by
  unfold validate
  rw [h.heap, h.safety]

section

variable (hR : Recorded R) (h : Beside R a b)
include hR h

theorem Beside.note (e : Entry) : Beside R (a.note e) (b.note e) := by
  refine ⟨h.heap, h.limit, h.safety, h.verifyAlways, h.liveBlocks, h.liveBytes, ?_⟩
  show R (a.journal.record e a.snapshot) (b.journal.record e b.snapshot)
  rw [snapshot, snapshot, h.heap, h.liveBlocks, h.liveBytes]
  exact hR _ _ e _ h.journal

/-! ## Steps -/

theorem Beside.acquire : Concur (Beside R) (a.acquire symbol size) (b.acquire symbol size) := by
  unfold Allocator.acquire
  refine .after (by rw [h.heap, h.limit]) ?_
  rintro ⟨result, heap⟩
  have h' := h.with_heap heap
  cases result with
  | error cause => exact .answered _ (h'.note hR _)
  | ok grant =>
    cases grant with
    | reused => exact .answered _ ((h'.countBlock _).note hR _)
    | grown => exact .answered _ (((h'.note hR _).countBlock _).note hR _)

theorem Beside.serve : Concur (Beside R) (a.serve symbol n) (b.serve symbol n) := by
  unfold Allocator.serve sizeFor
  split
  · exact .answered _ (h.note hR _)
  · cases blockSizeFor n with
    | none => exact .answered _ (h.note hR _)
    | some size => exact (h.acquire hR).bind fun result _ _ h' => .answered _ h'

theorem Beside.accept : Concur (Beside R) (a.accept symbol ptr) (b.accept symbol ptr) := by
  unfold Allocator.accept
  refine .after (h.validate_eq ptr) fun result => ?_
  cases result with
  | error e => exact .answered _ (h.note hR _)
  | ok => exact .answered _ h

theorem Beside.free : Concur (Beside R) (a.free symbol ptr) (b.free symbol ptr) := by
  unfold Allocator.free
  refine (h.accept hR).bind fun result a b h => ?_
  cases result with
  | error e => exact .answered _ h
  | ok =>
    refine .after (by rw [h.heap]) ?_
    rintro ⟨done, heap⟩
    exact .answered _ (((h.with_heap heap).discountBlock _).note hR _)

theorem Beside.move : Concur (Beside R) (a.move ptr n size old) (b.move ptr n size old) := by
  unfold Allocator.move
  refine (h.serve hR).bind fun result a b h => ?_
  rcases result with e | _ | target
  · exact .answered _ h
  · exact .answered _ h
  · refine .after rfl fun copied => ?_
    refine .after (by rw [h.heap]) fun mem => ?_
    have h' : Beside R { a with heap := { a.heap with mem } }
        { b with heap := { b.heap with mem } } := h.heap ▸ h.with_heap _
    refine (h'.free hR).bind fun result a b h => ?_
    cases result with
    | error e => exact .answered _ h
    | ok => exact .answered _ (h.note hR _)

theorem Beside.fit : Concur (Beside R) (a.fit ptr n) (b.fit ptr n) := by
  unfold Allocator.fit
  refine (h.accept hR).bind fun result a b h => ?_
  cases result with
  | error e => exact .answered _ h
  | ok =>
    dsimp only [sizeFor]
    cases blockSizeFor n with
    | none => exact .answered _ (h.note hR _)
    | some size =>
      refine .after (by rw [h.heap, h.limit]) ?_
      rintro ⟨result, heap⟩
      have h' := h.with_heap heap
      rcases result with cause | ⟨old, new⟩ | ⟨old, absorbed, growth⟩ | old
      · exact .answered _ (h'.note hR _)
      · exact .answered _ ((h'.recountBlock old new).note hR _)
      · exact .answered _ (((h'.note hR _).recountBlock old size).note hR _)
      · exact h'.move hR

theorem Beside.change {p : Option Nat} : Concur (Beside R) (a.change p n) (b.change p n) := by
  unfold Allocator.change
  cases p with
  | none =>
    refine (h.serve hR).bind fun result a b h => ?_
    cases result with
    | error e => exact .answered _ h
    | ok => exact .answered _ (h.note hR _)
  | some ptr =>
    dsimp only
    split
    · refine (h.free hR).bind fun result a b h => ?_
      cases result with
      | error e => exact .answered _ h
      | ok => exact .answered _ (h.note hR _)
    · exact h.fit hR

theorem Beside.serveZeroed : Concur (Beside R) (a.serveZeroed n) (b.serveZeroed n) := by
  unfold Allocator.serveZeroed clear
  refine (h.serve hR).bind fun result a b h => ?_
  rcases result with e | _ | ptr
  · exact .answered _ h
  · exact .answered _ h
  · simp only [bind_assoc, pure_bind]
    refine .after (by rw [h.heap]) fun size => .after rfl fun usable => ?_
    refine .after (by rw [h.heap]) fun mem => .answered _ ?_
    exact h.heap ▸ h.with_heap _

theorem Beside.check : Concur (Beside R) a.check b.check := by
  unfold Allocator.check
  refine .after (by rw [h.heap]) fun verdict => ?_
  cases verdict with
  | ok => exact .answered _ h
  | error v => exact .answered _ (h.note hR _)

/-- Verification passes on both sides, or ends both runs with the same violation. -/
theorem Beside.verify {α : Type} (answer : α) :
    Concur (Beside R) (a.verify >>= fun a => pure (answer, a))
      (b.verify >>= fun b => pure (answer, b)) := by
  unfold Allocator.verify
  simp only [bind_assoc]
  refine (h.check hR).lift.bind fun verdict a b h => ?_
  cases verdict with
  | ok => exact .answered _ h
  | error v =>
    simp only [bind_assoc]
    exact .after (by rw [h.heap]) fun dump => .stopped _

end

/-! ## Operations -/

theorem Concur.settle {α : Type} {x y : Except Fault (Reply α)} (hR : Recorded R)
    (h : Concur (Beside R) x y) : Concur (Beside R) (settle x) (settle y) := by
  unfold Allocator.settle
  refine h.lift.bind fun result a b h => ?_
  dsimp only
  rw [h.verifyAlways]
  split
  · exact h.verify hR result
  · exact .answered _ h

theorem Beside.payloadSize_eq (h : Beside R a b) (ptr : Nat) :
    a.payloadSize ptr = b.payloadSize ptr := by
  unfold payloadSize
  rw [h.heap]

theorem Beside.readPayload_eq (h : Beside R a b) (ptr i : Nat) (n : Option Nat) :
    a.readPayload ptr i n = b.readPayload ptr i n := by
  unfold readPayload
  rw [h.payloadSize_eq, h.heap]

theorem Beside.usable_eq (h : Beside R a b) (ptr : Nat) : a.usable ptr = b.usable ptr := by
  unfold usable
  rw [h.validate_eq, h.heap]

theorem Beside.writePayload (h : Beside R a b) (ptr i : Nat) (part : ByteArray) :
    Concur (Beside R) (a.writePayload ptr i part) (b.writePayload ptr i part) := by
  unfold Allocator.writePayload
  refine .after (h.payloadSize_eq ptr) fun result => ?_
  cases result with
  | error e => exact .answered _ h
  | ok usable =>
    refine .after rfl fun span => .after (by rw [h.heap]) fun mem => .answered _ ?_
    exact h.heap ▸ h.with_heap _

/-- Allocators that differ in their journals only answer a request alike, or stop alike. -/
theorem Beside.perform (hR : Recorded R) (h : Beside R a b) (r : Request) :
    Concur (Beside R) (a.perform r) (b.perform r) := by
  cases r with
  | allocate n => exact Concur.settle hR (h.serve hR)
  | allocateZeroed count size =>
    rw [Allocator.perform, Allocator.perform, allocateZeroed, allocateZeroed]
    split
    · exact Concur.settle hR (h.serveZeroed hR)
    · exact .answered _ (h.note hR _)
  | release ptr =>
    exact (Concur.settle hR (h.free hR)).bind fun result a b h => .answered _ h
  | resize ptr n => exact Concur.settle hR (h.change hR)
  | write ptr i part =>
    exact (h.writePayload ptr i part).lift.bind fun result a b h => .answered _ h
  | read ptr i n =>
    exact .after (by rw [h.readPayload_eq]) fun result => .answered _ h

end Allocator

/-! ## Journals -/

/-- What a record says, but for its number. -/
def Record.content (r : Record) : Entry × Snapshot :=
  (r.entry, r.snapshot)

/-- The records of `rs` whose level is `m` or above. -/
def atLeast (m : Level) (rs : List Record) : List Record :=
  rs.filter fun r => m ≤ r.entry.level

theorem atLeast_append (m : Level) (rs ts : List Record) :
    atLeast m (rs ++ ts) = atLeast m rs ++ atLeast m ts :=
  List.filter_append ..

/-- The number of the record after `n` others; numbers are words of 64 bits. -/
def recordNumber (n : Nat) : Nat :=
  (n + 1) % UInt64.size

/-- The records drained and those still in the journal are numbered one after the other. -/
structure Numbered (drained : List Record) (j : Journal) : Prop where
  ids : (drained ++ j.records.toList).map Record.id =
    (List.range (drained ++ j.records.toList).length).map recordNumber
  next : j.nextId = recordNumber (drained ++ j.records.toList).length

theorem Numbered.record {drained : List Record} {j : Journal} (h : Numbered drained j) (e : Entry)
    (s : Snapshot) : Numbered drained (j.record e s) := by
  unfold Journal.record
  split
  · have hrs : drained ++ (j.records.push ⟨j.nextId, e, s⟩).toList =
        drained ++ j.records.toList ++ [⟨j.nextId, e, s⟩] := by simp
    obtain ⟨hids, hnext⟩ := h
    generalize drained ++ j.records.toList = rs at hrs hids hnext
    refine ⟨?_, ?_⟩ <;> rw [hrs, List.length_append, List.length_singleton]
    · rw [List.map_append, hids, List.range_succ, List.map_append, List.map_singleton,
        List.map_singleton, hnext]
    · rw [hnext, recordNumber, recordNumber, Nat.mod_add_mod]
  · exact h

/-- Taking the records out does not change their numbers. -/
theorem Numbered.drain {drained : List Record} {j : Journal} (h : Numbered drained j) :
    Numbered (drained ++ j.records.toList) j.drain.2 := by
  have hrest : drained ++ j.records.toList ++ j.drain.2.records.toList =
      drained ++ j.records.toList := List.append_nil _
  exact ⟨by rw [hrest, h.ids], by rw [hrest]; exact h.next⟩

/-- The journal `k` has level `m`, and what is in it is what `j` has at that level or above; both
go on with the numbers of what was drained. -/
structure Filters (m : Level) (drained drained' : List Record) (j k : Journal) : Prop where
  lower : j.minLevel ≤ m
  level : k.minLevel = m
  contents : k.records.toList.map Record.content =
    (atLeast m j.records.toList).map Record.content
  left : Numbered drained j
  right : Numbered drained' k

theorem Journal.enabled_iff {j : Journal} {l : Level} : j.enabled l = true ↔ j.minLevel ≤ l :=
  decide_eq_true_iff

/-- What the higher level records, the lower one records too; the rest is filtered out. -/
theorem recorded_filters (m : Level) (drained drained' : List Record) :
    Allocator.Recorded (Filters m drained drained') := by
  intro j k e s h
  refine ⟨?_, ?_, ?_, h.left.record e s, h.right.record e s⟩
  · rw [Journal.minLevel_record]
    exact h.lower
  · rw [Journal.minLevel_record]
    exact h.level
  · rw [Journal.records_record, Journal.records_record, List.map_append, atLeast_append,
      List.map_append, h.contents]
    congr 1
    by_cases hm : m ≤ e.level
    · have hk : k.enabled e.level = true := Journal.enabled_iff.mpr (h.level ▸ hm)
      have hj : j.enabled e.level = true := Journal.enabled_iff.mpr (Nat.le_trans h.lower hm)
      simp [hj, hk, atLeast, hm, Record.content]
    · have hk : ¬ k.enabled e.level = true := fun hk => hm (h.level ▸ Journal.enabled_iff.mp hk)
      rw [if_neg hk]
      split <;> simp [atLeast, hm]

/-! ## Runs -/

/-- The clients face the same heap and counters, and `d` gets of the records of `c` those at level
`m` or above. -/
structure Client.Filtered (m : Level) (c d : Client) : Prop where
  allocator : Allocator.Beside (Filters m c.drained d.drained) c.allocator d.allocator
  drained : d.drained.map Record.content = (atLeast m c.drained).map Record.content

namespace Client

variable {m : Level} {c d : Client}

/-- One call more. -/
theorem Filtered.call (h : Filtered m c d) (call : Call) :
    Concur (Filtered m) (c.call call) (d.call call) := by
  have hR := recorded_filters m c.drained d.drained
  have ha := h.allocator
  cases call with
  | request r =>
    exact (ha.perform hR r).bind fun result a b h' => .answered _ ⟨h', h.drained⟩
  | usable ptr => exact .after (by rw [ha.usable_eq]) fun result => .answered _ h
  | payload ptr => exact .after (by rw [ha.readPayload_eq]) fun result => .answered _ h
  | check => exact (ha.check hR).lift.bind fun verdict a b h' => .answered _ ⟨h', h.drained⟩
  | verify =>
    have hverify : Concur (Filtered m)
        ((c.allocator.verify >>= fun a => pure (Response.done, a)) >>=
          fun r => pure (r.1, { c with allocator := r.2 }))
        ((d.allocator.verify >>= fun b => pure (Response.done, b)) >>=
          fun r => pure (r.1, { d with allocator := r.2 })) :=
      (ha.verify hR Response.done).bind fun _ _ _ h' => .answered _ ⟨h', h.drained⟩
    simpa only [Client.call, bind_assoc, pure_bind] using hverify
  | drain =>
    refine .answered _ ⟨⟨ha.heap, ha.limit, ha.safety, ha.verifyAlways, ha.liveBlocks,
      ha.liveBytes, ?_⟩, ?_⟩
    · exact ⟨ha.journal.lower, ha.journal.level, rfl, ha.journal.left.drain,
        ha.journal.right.drain⟩
    · show (d.drained ++ d.allocator.journal.records.toList).map Record.content =
        (atLeast m (c.drained ++ c.allocator.journal.records.toList)).map Record.content
      rw [List.map_append, atLeast_append, List.map_append, h.drained, ha.journal.contents]

/-- The runs stop alike, and are answered alike until then. -/
theorem Filtered.run (h : Filtered m c d) (calls : List Call) :
    (c.run calls).2 = (d.run calls).2 ∧
      List.Forall₂ (fun x y => x.1 = y.1 ∧ Filtered m x.2 y.2) (c.run calls).1 (d.run calls).1 := by
  induction calls generalizing c d with
  | nil => exact ⟨rfl, .nil⟩
  | cons call calls ih =>
    have hcall := h.call call
    unfold Client.run
    generalize c.call call = x at hcall
    generalize d.call call = y at hcall
    cases hcall with
    | stopped e => exact ⟨rfl, .nil⟩
    | answered response h' => exact ⟨(ih h').1, .cons ⟨rfl, h'⟩ (ih h').2⟩

variable {m₁ m₂ : Level}

/-- Whether an allocator starts does not depend on its level, and a new journal holds what its
level lets through of the first record. -/
theorem ofSettings_filtered (hle : m₁ ≤ m₂) (s : Settings) :
    (∃ e, Allocator.ofSettings { s with minLevel := m₁ } = .ok (.error e) ∧
      Allocator.ofSettings { s with minLevel := m₂ } = .ok (.error e)) ∨
    ∃ a b, Allocator.ofSettings { s with minLevel := m₁ } = .ok (.ok a) ∧
      Allocator.ofSettings { s with minLevel := m₂ } = .ok (.ok b) ∧
      Filtered m₂ ⟨a, []⟩ ⟨b, []⟩ := by
  rcases Allocator.ofSettings_of_limit s.heapLimit with ⟨e, he⟩ | ⟨-, heap, hok⟩
  · exact .inl ⟨e, he _ rfl, he _ rfl⟩
  · have hnew : ∀ l, Numbered [] (Journal.empty l) := fun _ => ⟨rfl, rfl⟩
    have hstart : Filters m₂ [] [] (.empty m₁) (.empty m₂) :=
      ⟨hle, rfl, rfl, hnew m₁, hnew m₂⟩
    have hbeside : Allocator.Beside (Filters m₂ [] []) (.fresh heap { s with minLevel := m₁ })
        (.fresh heap { s with minLevel := m₂ }) := ⟨rfl, rfl, rfl, rfl, rfl, rfl, hstart⟩
    exact .inr ⟨_, _, hok _ rfl, hok _ rfl, hbeside.note (recorded_filters _ _ _) _, rfl⟩

/-- The level only filters.  With settings that differ in their level only, the same calls are
answered alike and leave the same heap and counters, up to the same stop if there is one, whatever
pointers they pass; the records drained and the records kept at the higher level are those at the
lower one that the higher one lets through, and either way they are numbered one after the other. -/
theorem run_filtered (hle : m₁ ≤ m₂) (s : Settings) (calls : List Call) :
    (∃ e, Allocator.ofSettings { s with minLevel := m₁ } = .ok (.error e) ∧
      Allocator.ofSettings { s with minLevel := m₂ } = .ok (.error e)) ∨
    ∃ a b, Allocator.ofSettings { s with minLevel := m₁ } = .ok (.ok a) ∧
      Allocator.ofSettings { s with minLevel := m₂ } = .ok (.ok b) ∧
      Filtered m₂ ⟨a, []⟩ ⟨b, []⟩ ∧
      (run ⟨a, []⟩ calls).2 = (run ⟨b, []⟩ calls).2 ∧
      List.Forall₂ (fun x y => x.1 = y.1 ∧ Filtered m₂ x.2 y.2)
        (run ⟨a, []⟩ calls).1 (run ⟨b, []⟩ calls).1 := by
  rcases ofSettings_filtered hle s with hrefused | ⟨a, b, ha, hb, h⟩
  · exact .inl hrefused
  · exact .inr ⟨a, b, ha, hb, h, h.run calls⟩

/-- A block is released twice, with the journal drained in between. -/
def doubleRelease : List Call :=
  [.request (.allocate 8), .request (.release 112), .drain, .request (.release 112), .check]

/-- With all records and with warnings only: the second release is refused either way. -/
theorem run_filtered_double_release :
    Level.trace ≤ Level.warn ∧
    ∃ a b, Allocator.ofSettings { safety := .hardened, minLevel := .trace } = .ok (.ok a) ∧
      Allocator.ofSettings { safety := .hardened, minLevel := .warn } = .ok (.ok b) ∧
      (run ⟨a, []⟩ doubleRelease).2 = (run ⟨b, []⟩ doubleRelease).2 ∧
      List.Forall₂ (fun x y => x.1 = y.1 ∧ Filtered .warn x.2 y.2)
        (run ⟨a, []⟩ doubleRelease).1 (run ⟨b, []⟩ doubleRelease).1 := by
  have hle : Level.trace ≤ Level.warn := by decide
  have hstart : (Allocator.ofSettings { safety := .hardened, minLevel := .trace }).toOption.map
      Except.isOk = some true := by decide +kernel
  refine ⟨hle, ?_⟩
  rcases run_filtered hle { safety := .hardened } doubleRelease with
    ⟨e, he, -⟩ | ⟨a, b, ha, hb, -, hstop, hsteps⟩
  · rw [he] at hstart
    cases hstart
  · exact ⟨a, b, ha, hb, hstop, hsteps⟩

end Client

end SegFit
