/-
  What the checker decides.  Its walk over the blocks succeeds exactly on a separated chain
  (`checkBlocks_iff`), that over a list exactly on linked free blocks of the right bucket
  (`checkList_iff`), so that a heap passes exactly when it is well-formed (`check_iff`).
-/
import SegFit.Heap.Verdict
import SegFit.Proofs.FirstFit

namespace SegFit

/-! ## Passing checks -/

section Checked

variable {α β : Type}

theorem throw_ne_pure {v : Violation} {a : α} : (throw v : Checked α) ≠ pure a := by
  intro h
  have h : (Except.ok (.error v) : Except Fault (Except Violation α)) = .ok (.ok a) := h
  cases h

theorem pure_eq_pure {a b : α} : (pure a : Checked α) = pure b ↔ a = b := by
  constructor
  · intro h
    have h : (Except.ok (.ok a) : Except Fault (Except Violation α)) = .ok (.ok b) := h
    cases h
    rfl
  · rintro rfl
    rfl

theorem lift_ok (a : α) : (liftM (Except.ok a : Except Fault α) : Checked α) = pure a :=
  rfl

theorem pure_bind_checked (a : α) (f : α → Checked β) : ((pure a : Checked α) >>= f) = f a :=
  rfl

/-- A sequence of checks passes if each of them does. -/
theorem bind_eq_pure {x : Checked α} {f : α → Checked β} {b : β} :
    (x >>= f) = pure b ↔ ∃ a, x = pure a ∧ f a = pure b := by
  constructor
  · intro h
    cases hx : (x : Except Fault (Except Violation α)) with
    | error e =>
      rw [hx] at h
      have h : (Except.error e : Except Fault (Except Violation β)) = .ok (.ok b) := h
      cases h
    | ok r =>
      cases r with
      | error v =>
        rw [hx] at h
        have h : (Except.ok (.error v) : Except Fault (Except Violation β)) = .ok (.ok b) := h
        cases h
      | ok a =>
        rw [hx] at h
        exact ⟨a, rfl, h⟩
  · rintro ⟨a, rfl, h⟩
    exact h

/-- What is only computed for the wording of a violation does not let a check pass. -/
theorem bind_throw_ne_pure {x : Checked α} {f : α → Violation} {b : β} :
    (x >>= fun a => (throw (f a) : Checked β)) ≠ pure b := by
  intro h
  obtain ⟨a, -, h⟩ := bind_eq_pure.mp h
  exact throw_ne_pure h

/-- When a traversal passes, so does its step at each element. -/
theorem exists_of_foldlM_eq_pure {f : β → α → Checked β} {xs : List α} {b r : β}
    (hr : xs.foldlM f b = pure r) {x : α} (hx : x ∈ xs) : ∃ b' r', f b' x = pure r' := by
  induction xs generalizing b with
  | nil => exact absurd hx List.not_mem_nil
  | cons y xs ih =>
    rw [List.foldlM_cons] at hr
    obtain ⟨b', hstep, hr⟩ := bind_eq_pure.mp hr
    rcases List.mem_cons.mp hx with rfl | hx
    · exact ⟨b, b', hstep⟩
    · exact ih hr hx

end Checked

namespace Heap

variable {h : Heap} {cs : List TaggedBlock} {ls : Nat → List Nat}

/-! ## Blocks -/

/-- The offsets of the free blocks. -/
def freeOffsets (cs : List TaggedBlock) : List Nat :=
  (cs.filter fun b => b.2.isFree).map Prod.fst

theorem mem_freeOffsets {x : Nat} : x ∈ freeOffsets cs ↔ ∃ tag, (x, tag) ∈ cs ∧ tag.isFree := by
  simp [freeOffsets]

theorem freeOffsets_cons {b : TaggedBlock} :
    freeOffsets (b :: cs) = if b.2.isFree then b.1 :: freeOffsets cs else freeOffsets cs := by
  simp only [freeOffsets, List.filter_cons]
  split <;> rfl

/-- The blocks are separated, also from the block before them if that is free. -/
def SeparatedFrom (prev : Option Nat) (cs : List TaggedBlock) : Prop :=
  Separated cs ∧ (prev.isSome → ∀ b ∈ cs.head?, ¬ b.2.isFree)

theorem separatedFrom_cons {prev : Option Nat} {b : TaggedBlock} :
    SeparatedFrom prev (b :: cs) ↔ ¬ (prev.isSome ∧ b.2.isFree) ∧
      SeparatedFrom (if b.2.isFree then some b.1 else none) cs := by
  cases cs with
  | nil =>
    simp [SeparatedFrom, Separated]
  | cons c cs =>
    cases hf : b.2.isFree
    · simp [SeparatedFrom, Separated, hf]
    · simp [SeparatedFrom, Separated, hf]
      grind

/-- Where the header is a tag, a chain begins with its block. -/
theorem chain_of_header {block : Nat} {tag : Tag}
    (ht : Tag.decode (h.mem.word (block - wordSize)) = some tag) :
    h.Chain block cs ↔ minBlock ≤ tag.size ∧
      h.mem.word (block + tag.size - overhead) = tag.word ∧
      ∃ rest, cs = (block, tag) :: rest ∧ h.Chain (block + tag.size) rest := by
  constructor
  · intro hc
    cases hc with
    | nil zero =>
      rw [Nat.add_sub_cancel, zero] at ht
      cases ht
    | cons header large footer tail =>
      obtain rfl := Option.some.inj (header.symm.trans ht)
      exact ⟨large, footer, _, rfl, tail⟩
  · rintro ⟨hl, hf, rest, rfl, hc⟩
    exact .cons ht hl hf hc

/-- Where the header is zero, a chain ends. -/
theorem chain_of_zero {block : Nat} (hb : wordSize ≤ block)
    (ht : Tag.decode (h.mem.word (block - wordSize)) = none) :
    h.Chain block cs ↔ block - wordSize = h.epilog ∧ cs = [] := by
  constructor
  · intro hc
    cases hc with
    | nil zero => exact ⟨Nat.add_sub_cancel .., rfl⟩
    | cons header =>
      rw [ht] at header
      cases header
  · rintro ⟨he, rfl⟩
    have hz : h.mem.word h.epilog = 0 := by
      rw [← he]
      unfold Tag.decode at ht
      split at ht
      · assumption
      · cases ht
    have hb' : block = h.epilog + wordSize := by
      rw [← he]
      omega
    exact hb' ▸ .nil hz

/-- Where the header is zero, the walk over the blocks ends, if this is the epilog header. -/
theorem checkBlocks_at_zero (hs : h.epilog + wordSize ≤ h.size) {block : Nat}
    (hb : wordSize ≤ block) (prev : Option Nat) (free : List Nat)
    (ht : Tag.decode (h.mem.word (block - wordSize)) = none) :
    h.checkBlocks block prev = pure free ↔ block - wordSize = h.epilog ∧ free = [] := by
  unfold checkBlocks
  by_cases hpast : h.epilog < block - wordSize
  · rw [if_pos hpast]
    exact iff_of_false throw_ne_pure fun hr => by omega
  have hin : block ≤ h.mem.size := by
    simp only [Heap.size] at hs
    omega
  rw [if_neg hpast, Memory.tagOf_of_le hb hin, lift_ok, pure_bind_checked, ht]
  by_cases he : block - wordSize = h.epilog
  · simp only [he, ne_eq, not_true_eq_false, if_false, pure_eq_pure, true_and, eq_comm]
  · simp only [he, ne_eq, not_false_eq_true, if_true, false_and, iff_false]
    exact throw_ne_pure

/-- Where the header is a tag, the walk over the blocks goes on if its block lies in the heap, the
footer repeats it, and not both it and the block before are free. -/
theorem checkBlocks_at_tag (hs : h.epilog + wordSize ≤ h.size)
    (hm : h.epilog + wordSize < offsetBound) {block : Nat} (hb : wordSize ≤ block)
    (hal : block % alignment = 0) (prev : Option Nat) (free : List Nat) {tag : Tag}
    (ht : Tag.decode (h.mem.word (block - wordSize)) = some tag) :
    h.checkBlocks block prev = pure free ↔
      minBlock ≤ tag.size ∧ block + tag.size ≤ h.epilog + wordSize ∧
      h.mem.word (block + tag.size - overhead) = tag.word ∧ ¬ (prev.isSome ∧ tag.isFree) ∧
      ∃ rest, h.checkBlocks (block + tag.size) (if tag.isFree then some block else none) =
        pure rest ∧ free = if tag.isFree then block :: rest else rest := by
  rw [checkBlocks]
  by_cases hpast : h.epilog < block - wordSize
  · rw [if_pos hpast]
    exact iff_of_false throw_ne_pure fun hr => by omega
  have hin : block ≤ h.mem.size := by
    simp only [Heap.size] at hs
    omega
  rw [if_neg hpast, Memory.tagOf_of_le hb hin, lift_ok, pure_bind_checked, ht]
  simp only [hal, ne_eq, not_true_eq_false, if_false]
  by_cases hsize : tag.size < minBlock ∨ h.epilog < block - wordSize + tag.size
  · rw [if_pos hsize]
    exact iff_of_false throw_ne_pure fun hr => by omega
  have hl : minBlock ≤ tag.size := by omega
  have hle : block + tag.size ≤ h.epilog + wordSize := by omega
  have hfoot : footer block tag.size = .ok (block + tag.size - overhead) :=
    footer_of_le (Nat.le_trans (by decide) hl) (Nat.lt_of_le_of_lt hle hm)
  have hread : h.mem.readWord (block + tag.size - overhead) =
      .ok (h.mem.word (block + tag.size - overhead)) := Memory.readWord_of_le (by
    simp only [Heap.size, minBlock, overhead, wordSize] at *
    omega)
  rw [if_neg hsize, hfoot, lift_ok, pure_bind_checked, hread, lift_ok, pure_bind_checked]
  by_cases hw : h.mem.word (block + tag.size - overhead) = tag.word
  · simp only [hw, not_true_eq_false, if_false, true_and, hl, hle]
    cases hst : tag.status with
    | allocated =>
      have hf : tag.isFree = false := by simp [Tag.isFree, hst]
      simp [hf]
    | free =>
      have hf : tag.isFree = true := Tag.isFree_iff.mpr hst
      cases prev with
      | some p =>
        exact iff_of_false bind_throw_ne_pure fun hr => hr.1 ⟨rfl, hf⟩
      | none =>
        simp only [bind_eq_pure, pure_eq_pure, hf, Option.isSome_none, Bool.false_eq_true,
          false_and, not_false_eq_true, true_and, if_true]
        exact exists_congr fun rest => and_congr_right fun _ => eq_comm
  · simp only [hw, not_false_eq_true, if_true, false_and, and_false, iff_false]
    exact bind_throw_ne_pure

/-- The walk over the blocks succeeds exactly on a separated chain, and finds its free
blocks. -/
theorem checkBlocks_iff (hs : h.epilog + wordSize ≤ h.size)
    (hm : h.epilog + wordSize < offsetBound) (block : Nat) (hb : wordSize ≤ block)
    (hal : block % alignment = 0) (prev : Option Nat) (free : List Nat) :
    h.checkBlocks block prev = pure free ↔
      ∃ cs, h.Chain block cs ∧ SeparatedFrom prev cs ∧ free = freeOffsets cs := by
  cases ht : Tag.decode (h.mem.word (block - wordSize)) with
  | none =>
    rw [checkBlocks_at_zero hs hb prev free ht]
    constructor
    · rintro ⟨he, rfl⟩
      exact ⟨[], (chain_of_zero hb ht).mpr ⟨he, rfl⟩, ⟨trivial, fun _ b hb => by cases hb⟩, rfl⟩
    · rintro ⟨cs, hc, -, rfl⟩
      obtain ⟨he, rfl⟩ := (chain_of_zero hb ht).mp hc
      exact ⟨he, rfl⟩
  | some tag =>
    have hnext : (block + tag.size) % alignment = 0 := by
      have := (Tag.encodable_of_decode ht).1
      simp only [alignment] at *
      omega
    rw [checkBlocks_at_tag hs hm hb hal prev free ht]
    constructor
    · rintro ⟨hl, hle, hf, hsep, rest, hr, rfl⟩
      obtain ⟨cs, hc, hseps, rfl⟩ :=
        (checkBlocks_iff hs hm (block + tag.size) (by omega) hnext _ rest).mp hr
      exact ⟨(block, tag) :: cs, .cons ht hl hf hc, separatedFrom_cons.mpr ⟨hsep, hseps⟩,
        (freeOffsets_cons (b := (block, tag))).symm⟩
    · rintro ⟨cs, hc, hsep, rfl⟩
      obtain ⟨hl, hf, rest, rfl, hrest⟩ := (chain_of_header ht).mp hc
      obtain ⟨hsep, hseps⟩ := separatedFrom_cons.mp hsep
      have hle := hrest.le
      exact ⟨hl, hle, hf, hsep, freeOffsets rest,
        (checkBlocks_iff hs hm (block + tag.size) (by omega) hnext _ _).mpr
          ⟨rest, hrest, hseps, rfl⟩,
        freeOffsets_cons⟩
termination_by h.epilog + wordSize - block
decreasing_by
  all_goals
    simp only [minBlock, wordSize] at *
    omega

/-! ## Lists -/

/-- A block is described without a fault, with the size that its header gives. -/
theorem describe_of_le {m : Memory} {node : Nat} (hb : wordSize ≤ node)
    (hin : node + nodeSize ≤ m.size) :
    ∃ d, m.describe node = .ok d ∧
      d.size = ((Tag.decode (m.word (node - wordSize))).map Tag.size).getD 0 := by
  unfold Memory.describe
  rw [Memory.tagOf_of_le hb (by omega), ok_bind]
  cases Tag.decode (m.word (node - wordSize)) with
  | none => exact ⟨_, rfl, rfl⟩
  | some tag =>
    show ∃ d, (if node + 2 * wordSize ≤ m.size then _ else _) = _ ∧ _
    have hp : m.pred node = .ok (m.predLink node) :=
      Memory.pred_of_le (by simp only [nodeSize, wordSize] at *; omega)
    rw [if_pos hin]
    cases tag.status with
    | allocated => exact ⟨_, rfl, rfl⟩
    | free =>
      simp only [Memory.freeLinks, hp, Memory.succ_of_le hin, ok_bind]
      exact ⟨_, rfl, rfl⟩

/-- The offsets `xs` put into a set. -/
def insertAll (s : Offsets) (xs : List Nat) : Offsets :=
  xs.foldl (fun s x => s.insert x) s

theorem contains_insert_iff {s : Offsets} {x y : Nat} :
    (s.insert x).contains y = true ↔ x = y ∨ s.contains y = true := by
  simp [Std.TreeSet.contains_insert]

theorem contains_insertAll {s : Offsets} {xs : List Nat} {y : Nat} :
    (insertAll s xs).contains y = true ↔ y ∈ xs ∨ s.contains y = true := by
  induction xs generalizing s with
  | nil => simp [insertAll]
  | cons x xs ih =>
    rw [insertAll, List.foldl_cons]
    refine (ih (s := s.insert x)).trans ?_
    rw [contains_insert_iff, List.mem_cons]
    grind

/-- A free block of the chain that belongs to bucket `b`. -/
def Fits (cs : List TaggedBlock) (b x : Nat) : Prop :=
  x ∈ freeOffsets cs ∧ Bucket.ofSize (sizeAt cs x) = b

/-- Where a free block lies, and what its header says. -/
theorem Chain.of_mem_freeOffsets (hc : h.Chain firstBlock cs) {x : Nat}
    (hx : x ∈ freeOffsets cs) :
    firstBlock ≤ x ∧ x + minBlock ≤ h.epilog + wordSize ∧ x % alignment = 0 ∧
      ((Tag.decode (h.mem.word (x - wordSize))).map Tag.size).getD 0 = sizeAt cs x := by
  obtain ⟨tag, hm, -⟩ := mem_freeOffsets.mp hx
  have hb := hc.bounds hm
  refine ⟨hb.1, ?_, hc.aligned.1 _ hm, ?_⟩
  · simp only at hb
    omega
  · rw [sizeAt_of_mem hc.tiles hm, (hc.marked hm).header]
    rfl

/-- What the walk over a list from `prev` on goes along. -/
structure Walked (h : Heap) (cs : List TaggedBlock) (b : Nat) (listed : Offsets) (prev : Nat)
    (ns : List Nat) : Prop where
  linked : h.mem.Linked (prev :: ns ++ [h.epilogNode b])
  nodup : ns.Nodup
  fits : ∀ x ∈ ns, Fits cs b x
  fresh : ∀ x ∈ ns, listed.contains x = false

theorem walked_cons {b : Nat} {listed : Offsets} {prev x : Nat} {ns : List Nat} :
    Walked h cs b listed prev (x :: ns) ↔ h.mem.succLink prev = x ∧ h.mem.predLink x = prev ∧
      Fits cs b x ∧ listed.contains x = false ∧ Walked h cs b (listed.insert x) x ns := by
  constructor
  · rintro ⟨⟨h1, h2, h3⟩, h4, h5, h6⟩
    obtain ⟨h7, h8⟩ := List.nodup_cons.mp h4
    refine ⟨h1, h2, h5 x List.mem_cons_self, h6 x List.mem_cons_self, h3, h8,
      fun y hy => h5 y (List.mem_cons_of_mem x hy), fun y hy => ?_⟩
    rw [← Bool.not_eq_true, contains_insert_iff]
    rintro (rfl | hl)
    · exact h7 hy
    · rw [h6 y (List.mem_cons_of_mem x hy)] at hl
      cases hl
  · rintro ⟨h1, h2, h3, h4, h5, h6, h7, h8⟩
    have hne : ∀ y ∈ ns, x ≠ y ∧ listed.contains y = false := by
      intro y hy
      have := h8 y hy
      rw [← Bool.not_eq_true, contains_insert_iff, not_or] at this
      exact ⟨this.1, Bool.eq_false_iff.mpr this.2⟩
    refine ⟨⟨h1, h2, h5⟩, List.nodup_cons.mpr ⟨fun hx => (hne x hx).1 rfl, h6⟩,
      List.forall_mem_cons.mpr ⟨h3, h7⟩, List.forall_mem_cons.mpr ⟨h4, fun y hy => (hne y hy).2⟩⟩

/-- A walk that has come to the epilog node goes along no block, since none lies there. -/
theorem walked_at_epilog (hc : h.Chain firstBlock cs) {b : Nat} {listed : Offsets} {prev : Nat}
    {ns : List Nat} (hnode : h.mem.succLink prev = h.epilogNode b) :
    Walked h cs b listed prev ns ↔ ns = [] ∧ h.mem.predLink (h.epilogNode b) = prev := by
  constructor
  · intro hw
    cases ns with
    | nil => exact ⟨rfl, hw.linked.2.1⟩
    | cons x rest =>
      have hx : x = h.epilogNode b := hw.linked.1.symm.trans hnode
      have := hc.of_mem_freeOffsets (hw.fits x List.mem_cons_self).1
      simp only [hx, epilogNode, minBlock, wordSize] at this
      omega
  · rintro ⟨rfl, hp⟩
    exact ⟨⟨hnode, hp, trivial⟩, .nil, by simp, by simp⟩

/-- A walk that has come to another node goes on along it. -/
theorem walked_at_node {b : Nat} {listed : Offsets} {prev node : Nat} {ns : List Nat}
    (hnode : h.mem.succLink prev = node) (hne : node ≠ h.epilogNode b) :
    Walked h cs b listed prev ns ↔ ∃ rest, ns = node :: rest ∧ h.mem.predLink node = prev ∧
      Fits cs b node ∧ listed.contains node = false ∧
      Walked h cs b (listed.insert node) node rest := by
  constructor
  · intro hw
    cases ns with
    | nil => exact absurd (hnode.symm.trans hw.linked.1) hne
    | cons x rest =>
      obtain ⟨h1, h2⟩ := walked_cons.mp hw
      obtain rfl : node = x := hnode.symm.trans h1
      exact ⟨rest, rfl, h2⟩
  · rintro ⟨rest, rfl, hr⟩
    exact walked_cons.mpr ⟨hnode, hr⟩

/-- At its epilog node the walk over a list ends, if that node leads back. -/
theorem checkList_at_epilog (hs : h.epilog + epilogBytes ≤ h.size + wordSize) {b : Nat}
    (hb : b < Bucket.count) {free : Offsets} (n prev : Nat) (listed result : Offsets) :
    h.checkList free b (n + 1) prev (h.epilogNode b) listed = pure result ↔
      h.mem.predLink (h.epilogNode b) = prev ∧ listed = result := by
  have hend : h.epilogNode b + wordSize ≤ h.mem.size := by
    simp only [Heap.size, epilogNode, epilogBytes, nodeSize, wordSize, Bucket.count] at *
    omega
  unfold checkList
  rw [if_pos rfl, Memory.pred_of_le hend, lift_ok, pure_bind_checked]
  by_cases hp : h.mem.predLink (h.epilogNode b) = prev
  · rw [if_neg (by simpa using hp), pure_eq_pure]
    exact ⟨fun hr => ⟨hp, hr⟩, fun hr => hr.2⟩
  · rw [if_pos hp]
    exact iff_of_false throw_ne_pure fun hr => hp hr.1

variable (hc : h.Chain firstBlock cs) (hs : h.epilog + epilogBytes ≤ h.size + wordSize)
  {free : Offsets} (hfree : ∀ x, free.contains x = true ↔ x ∈ freeOffsets cs)
include hc hs hfree

/-- At another node the walk over a list goes on if that node leads back, is a free block of the
bucket and was not listed before. -/
theorem checkList_at_node {b : Nat} (n prev : Nat) {node : Nat} (hne : node ≠ h.epilogNode b)
    (listed result : Offsets) :
    h.checkList free b (n + 1) prev node listed = pure result ↔
      h.mem.predLink node = prev ∧ Fits cs b node ∧ listed.contains node = false ∧
      h.checkList free b n node (h.mem.succLink node) (listed.insert node) = pure result := by
  rw [checkList, if_neg hne]
  by_cases hstray : node < firstBlock ∨ h.epilog ≤ node ∨ node % alignment ≠ 0
  · rw [if_pos hstray]
    refine iff_of_false throw_ne_pure fun hr => ?_
    have := hc.of_mem_freeOffsets hr.2.1.1
    simp only [minBlock, wordSize] at this
    omega
  have hin : node + nodeSize ≤ h.mem.size := by
    simp only [Heap.size, epilogBytes, nodeSize, wordSize, Bucket.count] at *
    omega
  have hwb : wordSize ≤ node := by
    simp only [firstBlock, overhead, wordSize] at *
    omega
  obtain ⟨d, hd, hds⟩ := describe_of_le hwb hin
  rw [if_neg hstray, Memory.pred_of_le (by simp only [nodeSize, wordSize] at *; omega), lift_ok,
    pure_bind_checked]
  by_cases hp : h.mem.predLink node = prev
  · rw [if_neg (by simpa using hp), hd, lift_ok, pure_bind_checked]
    by_cases hf : free.contains node = true
    · have hmem := (hfree node).mp hf
      have hsize : d.size = sizeAt cs node := hds.trans (hc.of_mem_freeOffsets hmem).2.2.2
      rw [if_neg (by simpa using hf), hsize]
      by_cases hbk : Bucket.ofSize (sizeAt cs node) = b
      · rw [if_neg (by simpa using hbk)]
        by_cases hl : listed.contains node = true
        · rw [if_pos hl]
          exact iff_of_false throw_ne_pure fun hr => Bool.eq_false_iff.mp hr.2.2.1 hl
        · rw [if_neg hl, Memory.succ_of_le hin, lift_ok, pure_bind_checked]
          exact ⟨fun hr => ⟨hp, ⟨hmem, hbk⟩, Bool.eq_false_iff.mpr hl, hr⟩, fun hr => hr.2.2.2⟩
      · rw [if_pos hbk]
        exact iff_of_false throw_ne_pure fun hr => hbk hr.2.1.2
    · rw [if_pos (by simpa using hf)]
      refine iff_of_false ?_ fun hr => hf ((hfree node).mpr hr.2.1.1)
      split <;> exact throw_ne_pure
  · rw [if_pos (by simpa using hp)]
    exact iff_of_false throw_ne_pure fun hr => hp hr.1

/-- The walk over a list from the node after `prev` on succeeds exactly if linked free blocks of
its bucket, none of them listed before, lead to its epilog node. -/
theorem checkList_iff {b : Nat} (hb : b < Bucket.count) (n prev node : Nat)
    (hnode : h.mem.succLink prev = node) (listed result : Offsets) :
    h.checkList free b n prev node listed = pure result ↔
      ∃ ns, Walked h cs b listed prev ns ∧ ns.length < n ∧ result = insertAll listed ns := by
  induction n generalizing prev node listed with
  | zero =>
    unfold checkList
    constructor
    · intro hf
      have hf : (Except.error .endless : Except Fault (Except Violation Offsets)) =
          .ok (.ok result) := hf
      cases hf
    · rintro ⟨ns, -, hlt, -⟩
      exact absurd hlt (Nat.not_lt_zero _)
  | succ n ih =>
    by_cases he : node = h.epilogNode b
    · subst he
      rw [checkList_at_epilog hs hb]
      constructor
      · rintro ⟨hp, rfl⟩
        exact ⟨[], (walked_at_epilog hc hnode).mpr ⟨rfl, hp⟩, Nat.succ_pos n, rfl⟩
      · rintro ⟨ns, hw, -, rfl⟩
        obtain ⟨rfl, hp⟩ := (walked_at_epilog hc hnode).mp hw
        exact ⟨hp, rfl⟩
    · rw [checkList_at_node hc hs hfree n prev he, ih node _ rfl]
      constructor
      · rintro ⟨hp, hfit, hnew, rest, hw, hlt, rfl⟩
        exact ⟨node :: rest, (walked_at_node hnode he).mpr ⟨rest, rfl, hp, hfit, hnew, hw⟩,
          by simpa using hlt, rfl⟩
      · rintro ⟨ns, hw, hlt, rfl⟩
        obtain ⟨rest, rfl, hp, hfit, hnew, hw⟩ := (walked_at_node hnode he).mp hw
        exact ⟨hp, hfit, hnew, rest, hw, by simpa using hlt, rfl⟩

/-- No list is longer than there are free blocks, so the bound on its walk is never met. -/
theorem checkBucket_iff (hlen : (freeOffsets cs).length ≤ free.size) {b : Nat}
    (hb : b < Bucket.count) (listed result : Offsets) :
    h.checkBucket free listed b = pure result ↔
      ∃ ns, Walked h cs b listed (prologNode b) ns ∧ result = insertAll listed ns := by
  have hep := hc.firstHeader_le
  have hin : prologNode b + nodeSize ≤ h.mem.size := by
    simp only [Heap.size, prologNode, firstHeader, prologEnd, epilogBytes, nodeSize, wordSize,
      Bucket.count] at *
    omega
  unfold checkBucket
  rw [Memory.succ_of_le hin, lift_ok, pure_bind_checked,
    checkList_iff hc hs hfree hb _ _ _ rfl]
  constructor
  · rintro ⟨ns, hw, -, hr⟩
    exact ⟨ns, hw, hr⟩
  · rintro ⟨ns, hw, hr⟩
    have := hw.nodup.length_le_of_subset fun x hx => (hw.fits x hx).1
    exact ⟨ns, hw, by omega, hr⟩

/-- The walks over the lists of the buckets `bs` succeed exactly if each holds free blocks of its
own, none of them listed before. -/
theorem checkBuckets_iff (hlen : (freeOffsets cs).length ≤ free.size) (bs : List Nat)
    (hbs : ∀ b ∈ bs, b < Bucket.count) (hn : bs.Nodup) (listed result : Offsets) :
    bs.foldlM (h.checkBucket free) listed = pure result ↔
      ∃ ls : Nat → List Nat, (∀ b ∈ bs, Walked h cs b listed (prologNode b) (ls b)) ∧
        result = insertAll listed (bs.flatMap ls) := by
  induction bs generalizing listed with
  | nil =>
    rw [List.foldlM_nil, pure_eq_pure]
    exact ⟨fun h => ⟨fun _ => [], by simp, h.symm⟩, fun ⟨_, _, h⟩ => h.symm⟩
  | cons b bs ih =>
    obtain ⟨hnb, hn⟩ := List.nodup_cons.mp hn
    have ih := ih (fun c hcb => hbs c (List.mem_cons_of_mem b hcb)) hn
    have happend : ∀ xs ys, insertAll listed (xs ++ ys) = insertAll (insertAll listed xs) ys :=
      fun xs ys => List.foldl_append ..
    rw [List.foldlM_cons, bind_eq_pure]
    simp only [checkBucket_iff hc hs hfree hlen (hbs b List.mem_cons_self), ih]
    constructor
    · rintro ⟨_, ⟨ns, hw, rfl⟩, ls, hls, rfl⟩
      have hold : ∀ c ∈ bs, (if c = b then ns else ls c) = ls c :=
        fun c hcb => if_neg fun (he : c = b) => hnb (he ▸ hcb)
      refine ⟨fun c => if c = b then ns else ls c, ?_, ?_⟩
      · refine List.forall_mem_cons.mpr ⟨by simpa using hw, fun c hcb => ?_⟩
        obtain ⟨h1, h2, h3, h4⟩ := hls c hcb
        simp only [hold c hcb]
        refine ⟨h1, h2, h3, fun x hx => Bool.eq_false_iff.mpr fun hl => ?_⟩
        exact Bool.eq_false_iff.mp (h4 x hx) (contains_insertAll.mpr (.inr hl))
      · have hmap : bs.flatMap (fun c => if c = b then ns else ls c) = bs.flatMap ls := by
          rw [List.flatMap_def, List.flatMap_def, List.map_congr_left hold]
        rw [List.flatMap_cons, if_pos rfl, hmap, happend]
    · rintro ⟨ls, hls, rfl⟩
      obtain ⟨hw, hrest⟩ := List.forall_mem_cons.mp hls
      refine ⟨_, ⟨ls b, hw, rfl⟩, ls, fun c hcb => ?_, ?_⟩
      · obtain ⟨h1, h2, h3, h4⟩ := hrest c hcb
        refine ⟨h1, h2, h3, fun x hx => Bool.eq_false_iff.mpr fun hl => ?_⟩
        rcases contains_insertAll.mp hl with hxb | hl
        · exact hnb (((hw.fits x hxb).2.symm.trans (h3 x hx).2) ▸ hcb)
        · exact Bool.eq_false_iff.mp (h4 x hx) hl
      · rw [List.flatMap_cons, happend]

omit hc hs hfree

/-- Different blocks have different offsets. -/
theorem nodup_freeOffsets {start stop : Nat} (ht : Tiles start cs stop) :
    (freeOffsets cs).Nodup := by
  have hlt : cs.Pairwise fun b c => b.1 ≠ c.1 := by
    refine List.Pairwise.imp_of_mem (fun hb _ hle he => ?_) ht.pairwise
    have := (ht.bounds hb).2.2
    simp only [minBlock] at this
    omega
  exact List.pairwise_map.mpr (hlt.filter _)

/-- A heap passes its check exactly when it is well-formed, if the check can read all it needs to:
of the last epilog node that is only the first word. -/
theorem check_iff_of_readable (hs : h.epilog + epilogBytes ≤ h.size + wordSize)
    (hm : h.epilog + wordSize < offsetBound) : h.check = .ok (.ok ()) ↔ h.WellFormed := by
  have hblocks := checkBlocks_iff (h := h) (by
    simp only [epilogBytes, nodeSize, wordSize, Bucket.count] at *
    omega) hm firstBlock (by decide) (by decide) none
  have hset : ∀ {cs : List TaggedBlock} (x : Nat),
      (Std.TreeSet.ofList (freeOffsets cs) : Offsets).contains x = true ↔ x ∈ freeOffsets cs := by
    intro cs x
    rw [Std.TreeSet.contains_ofList, List.contains_iff_mem]
  have hlen : ∀ {cs : List TaggedBlock}, h.Chain firstBlock cs →
      (freeOffsets cs).length ≤ (Std.TreeSet.ofList (freeOffsets cs) : Offsets).size := by
    intro cs hc
    have hdistinct : (freeOffsets cs).Pairwise fun x y => ¬compare x y = .eq :=
      (nodup_freeOffsets hc.tiles).imp fun hne => by simpa using hne
    exact Nat.le_of_eq (Std.TreeSet.size_ofList hdistinct).symm
  have hlists := fun {cs : List TaggedBlock} (hc : h.Chain firstBlock cs) =>
    checkBuckets_iff hc hs hset (hlen hc) (List.range Bucket.count)
      (fun b hb => List.mem_range.mp hb) List.nodup_range ∅
  show h.checkAll = pure () ↔ h.WellFormed
  unfold checkAll
  rw [bind_eq_pure]
  constructor
  · rintro ⟨_, hb, hrest⟩
    obtain ⟨cs, hc, hsep, rfl⟩ := (hblocks _).mp hb
    obtain ⟨listed, hl, hfind⟩ := bind_eq_pure.mp hrest
    obtain ⟨ls, hls, rfl⟩ := (hlists hc listed).mp hl
    refine ⟨cs, ls, hc, hsep.1, fun b hb => ?_, fun b hb x hx => ?_, fun x tag hx hf => ?_⟩
    · exact (hls b (List.mem_range.mpr hb)).linked
    · obtain ⟨hmem, hof⟩ := (hls b (List.mem_range.mpr hb)).fits x hx
      obtain ⟨tag, ht, hf⟩ := mem_freeOffsets.mp hmem
      exact ⟨tag, ht, hf, by rwa [sizeAt_of_mem hc.tiles ht] at hof⟩
    · have hxf : x ∈ freeOffsets cs := mem_freeOffsets.mpr ⟨tag, hx, hf⟩
      have hin : (insertAll ∅ ((List.range Bucket.count).flatMap ls)).contains x = true := by
        cases hno : (freeOffsets cs).find? fun block =>
            !(insertAll ∅ ((List.range Bucket.count).flatMap ls)).contains block with
        | some block =>
          rw [hno] at hfind
          exact absurd hfind bind_throw_ne_pure
        | none => simpa using List.find?_eq_none.mp hno x hxf
      obtain ⟨b, hb, hxb⟩ := List.mem_flatMap.mp
        ((contains_insertAll.mp hin).resolve_right (by simp))
      have hof := ((hls b hb).fits x hxb).2
      rw [sizeAt_of_mem hc.tiles hx] at hof
      rw [hof, (hls b hb).nodup.count, if_pos hxb]
  · rintro ⟨cs, ls, hsh⟩
    have hc := hsh.chain
    have hls : ∀ b ∈ List.range Bucket.count, Walked h cs b ∅ (prologNode b) (ls b) := by
      intro b hb
      have hb := List.mem_range.mp hb
      refine ⟨hsh.linked b hb, hsh.nodup hb, fun x hx => ?_, by simp⟩
      obtain ⟨tag, ht, hf, hof⟩ := hsh.listed b hb x hx
      exact ⟨mem_freeOffsets.mpr ⟨tag, ht, hf⟩, by rwa [sizeAt_of_mem hc.tiles ht]⟩
    refine ⟨_, (hblocks _).mpr ⟨cs, hc, ⟨hsh.separated, by simp⟩, rfl⟩, bind_eq_pure.mpr ⟨_,
      (hlists hc _).mpr ⟨ls, hls, rfl⟩, ?_⟩⟩
    have hno : (freeOffsets cs).find? (fun block =>
        !(insertAll ∅ ((List.range Bucket.count).flatMap ls)).contains block) = none := by
      refine List.find?_eq_none.mpr fun x hx => ?_
      obtain ⟨tag, ht, hf⟩ := mem_freeOffsets.mp hx
      have hin : (insertAll ∅ ((List.range Bucket.count).flatMap ls)).contains x = true :=
        contains_insertAll.mpr (.inl (List.mem_flatMap.mpr
          ⟨_, List.mem_range.mpr (Bucket.ofSize_lt _), hsh.complete' (x, tag) ht hf⟩))
      simp [hin]
    rw [hno]

/-- A heap passes its check exactly when it is well-formed. -/
theorem check_iff (hs : h.epilog + epilogBytes ≤ h.size) (hm : h.size < offsetBound) :
    h.check = .ok (.ok ()) ↔ h.WellFormed :=
  check_iff_of_readable (by omega) (by simp only [epilogBytes] at hs; omega)

end Heap

end SegFit
