/-
  What the checker notices.  When one word of the structure of a heap that passes its check is
  changed, the heap does not pass it any more (`damage_detected`).  It is enough that two
  well-formed heaps which differ in one such word at most do not differ in it: a footer repeats a
  header (`footer_eq`), and so does the status in a header the one in its footer (`status_eq`); the
  epilog header is zero; and a link is the inverse of that back from the node which it leads to.
  Tags tell which blocks are on a list, so that node is on the list of both heaps
  (`succLink_eq`, `predLink_eq`).
-/
import SegFit.Proofs.Diagnostics

namespace SegFit

namespace Memory

variable {m : Memory}

/-- A forward link along a list is undone by the link back. -/
theorem Linked.succ_mem {x : Nat} :
    ∀ {l : List Nat}, m.Linked l → x ∈ l.dropLast →
      m.succLink x ∈ l.tail ∧ m.predLink (m.succLink x) = x
  | [], _, hx => absurd hx List.not_mem_nil
  | [_], _, hx => absurd hx List.not_mem_nil
  | _ :: y :: rest, ⟨hsucc, hpred, hrest⟩, hx => by
    rw [List.dropLast_cons_cons] at hx
    rcases List.mem_cons.mp hx with rfl | hx
    · rw [hsucc]
      exact ⟨List.mem_cons_self, hpred⟩
    · obtain ⟨hmem, hback⟩ := hrest.succ_mem hx
      exact ⟨List.mem_cons_of_mem y hmem, hback⟩

/-- A backward link along a list is undone by the link forward. -/
theorem Linked.pred_mem {x : Nat} :
    ∀ {l : List Nat}, m.Linked l → x ∈ l.tail →
      m.predLink x ∈ l.dropLast ∧ m.succLink (m.predLink x) = x
  | [], _, hx => absurd hx List.not_mem_nil
  | [_], _, hx => absurd hx List.not_mem_nil
  | y :: z :: rest, ⟨hsucc, hpred, hrest⟩, hx => by
    rw [List.dropLast_cons_cons]
    rcases List.mem_cons.mp hx with rfl | hx
    · rw [hpred]
      exact ⟨List.mem_cons_self, hsucc⟩
    · obtain ⟨hmem, hback⟩ := hrest.pred_mem hx
      exact ⟨List.mem_cons_of_mem y hmem, hback⟩

end Memory

namespace Heap

variable {h h' : Heap} {cs cs' pre post : List TaggedBlock} {ls ls' : Nat → List Nat}
  {b : TaggedBlock} {i : Nat}

/-! ## Tags -/

/-- As far as headers are the same, so are the blocks. -/
theorem Chain.common_prefix {start mid : Nat} (hp : Tiles start pre mid)
    (hc : h.Chain start (pre ++ post)) (hc' : h'.Chain start cs')
    (hw : ∀ b ∈ pre, h'.mem.word (b.1 - wordSize) = h.mem.word (b.1 - wordSize)) :
    ∃ rest, cs' = pre ++ rest ∧ h'.Chain mid rest := by
  induction pre generalizing start cs' with
  | nil => exact ⟨cs', rfl, hp ▸ hc'⟩
  | cons b pre ih =>
    cases hc with
    | cons header large footer tail =>
      obtain ⟨hwb, hw⟩ := List.forall_mem_cons.mp hw
      have ht := hwb.symm ▸ header
      obtain ⟨-, -, _, rfl, htail⟩ := (chain_of_header ht).mp hc'
      obtain ⟨rest, rfl, hrest⟩ := ih hp.2.2 tail htail hw
      exact ⟨rest, rfl, hrest⟩

section

variable (hc : h.mem.ChangesOnly h'.mem (InWord i)) (hs : h.Chain firstBlock cs)
  (hs' : h'.Chain firstBlock cs')
include hc hs hs'

/-- A footer is the word of the tag in its header. -/
theorem footer_eq (hb : b ∈ cs) (hi : i = b.1 + b.2.size - overhead) :
    h'.mem.word i = h.mem.word i := by
  obtain ⟨pre, post, rfl⟩ := List.append_of_mem hb
  obtain ⟨hpre, hlarge, -⟩ := tiles_around.mp hs.tiles
  have hfront : Tiles firstBlock (pre ++ [b]) (b.1 + b.2.size) :=
    tiles_around.mpr ⟨hpre, hlarge, rfl⟩
  have hsplit := List.append_cons pre b post ▸ hs
  obtain ⟨rest, rfl, -⟩ := hsplit.common_prefix hfront hs' fun c hcc => hc.word fun j hj hij => by
    have := hfront.bounds hcc
    rcases List.mem_append.mp hcc with hcc | hcc
    · have := hpre.bounds hcc
      simp only [InWord, minBlock, overhead, wordSize] at *
      omega
    · rw [List.mem_singleton.mp hcc] at hj
      simp only [InWord, minBlock, overhead, wordSize] at *
      omega
  rw [hi, (hs'.marked (b := b) (by simp)).footer, (hs.marked (b := b) (by simp)).footer]

/-- A header that keeps its size keeps its status, since the footer does. -/
theorem status_eq (hb : b ∈ cs) (hi : i = b.1 - wordSize) {tag : Tag}
    (ht : Tag.decode (h'.mem.word i) = some tag) (hsize : tag.size = b.2.size) : tag = b.2 := by
  obtain ⟨pre, post, rfl⟩ := List.append_of_mem hb
  obtain ⟨hpre, hlarge, -⟩ := tiles_around.mp hs.tiles
  have hbb := hs.bounds hb
  obtain ⟨rest, -, hrest⟩ := hs.common_prefix hpre hs' fun c hcc => hc.word fun j hj hij => by
    have := hpre.bounds hcc
    simp only [InWord, firstBlock, minBlock, overhead, wordSize] at *
    omega
  have hfoot := ((chain_of_header (hi ▸ ht)).mp hrest).2.1
  have hkept : h'.mem.word (b.1 + b.2.size - overhead) = h.mem.word (b.1 + b.2.size - overhead) :=
    hc.word fun j hj hij => by
      simp only [InWord, minBlock, overhead, wordSize] at *
      omega
  have hm := hs.marked hb
  rw [hsize, hkept, hm.footer] at hfoot
  have hpos : ∀ n, n = b.2.size → 0 < n := fun n hn => by
    simp only [minBlock] at hlarge
    omega
  have hdecode := Tag.decode_word hm.encodable (hpos _ rfl)
  rw [hfoot, Tag.decode_word (Tag.encodable_of_decode ht) (hpos _ hsize)] at hdecode
  exact Option.some.inj hdecode

end

/-! ## Links -/

/-- All nodes are aligned, so that no forward link has a byte in common with a backward link. -/
theorem Shape.aligned (hs : h.Shape cs ls) {k x : Nat} (hk : k < Bucket.count)
    (hx : x ∈ h.strand ls k) : x % alignment = 0 := by
  rcases mem_strand.mp hx with rfl | hx | rfl
  · simp only [prologNode, nodeSize, wordSize, alignment]
    omega
  · obtain ⟨tag, hmem, -⟩ := hs.listed k hk x hx
    exact hs.chain.aligned.1 _ hmem
  · have := hs.chain.aligned.2
    simp only [epilogNode, nodeSize, wordSize, alignment] at *
    omega

section

variable (he : h'.epilog = h.epilog) (hc : h.mem.ChangesOnly h'.mem (InWord i))
  (hs : h.Shape cs ls) (hs' : h'.Shape cs' ls')
include he hc hs hs'

/-- A changed link leaves the tags as they are, so that each strand has the same nodes, perhaps in
another order. -/
theorem mem_strand_iff (hi : ∀ j, InWord i j → h.LinkByte ls j) {k x : Nat}
    (hk : k < Bucket.count) :
    (x ∈ (h'.strand ls' k).dropLast ↔ x ∈ (h.strand ls k).dropLast) ∧
      (x ∈ (h'.strand ls' k).tail ↔ x ∈ (h.strand ls k).tail) := by
  have hchain : h'.Chain firstBlock cs := by
    refine chain_iff.mpr ⟨he ▸ hs.chain.tiles, fun b hb => ?_, ?_⟩
    · exact (hs.chain.marked hb).of_changesOnly hc fun j hj hij =>
        hs.chain.not_linkByte_of_tagByte hs.listed hb hj (hi j hij)
    · rw [he, ← hs.chain.zero]
      exact hc.word fun j hj hij =>
        hs.chain.not_linkByte_of_idleByte hs.listed (.inr hj) (hi j hij)
  obtain rfl := hs'.chain.unique hchain
  have hlist : x ∈ ls' k ↔ x ∈ ls k := (hs'.mem_list hk).trans (hs.mem_list hk).symm
  have hend : h'.epilogNode k = h.epilogNode k := by rw [epilogNode, epilogNode, he]
  constructor
  · rw [strand, strand, List.dropLast_concat, List.dropLast_concat, List.mem_cons, List.mem_cons,
      hlist]
  · show x ∈ ls' k ++ [h'.epilogNode k] ↔ x ∈ ls k ++ [h.epilogNode k]
    rw [List.mem_append, List.mem_append, hlist, hend]

/-- A forward link is the inverse of a link back, which has not changed. -/
theorem succLink_eq {k x : Nat} (hk : k < Bucket.count) (hx : x ∈ prologNode k :: ls k)
    (hi : i = x + wordSize) : h'.mem.word i = h.mem.word i := by
  have hlink : ∀ j, InWord i j → h.LinkByte ls j := by
    subst hi
    intro j hj
    rcases List.mem_cons.mp hx with rfl | hx
    · exact ⟨k, hk, .inl hj⟩
    · exact ⟨k, hk, .inr (.inl ⟨x, hx, inNode_of_succ hj⟩)⟩
  have hx' : x ∈ (h.strand ls k).dropLast := by
    rw [strand, List.dropLast_concat]
    exact hx
  obtain ⟨hmem, hback⟩ := (hs.linked k hk).succ_mem hx'
  have hkept : h'.mem.predLink (h.mem.succLink x) = x := by
    refine (Memory.predLink_eq hc fun j hj hij => ?_).trans hback
    have h1 := hs.aligned hk ((List.dropLast_sublist _).mem hx')
    have h2 := hs.aligned hk (List.mem_of_mem_tail hmem)
    simp only [InWord, alignment, wordSize] at *
    omega
  have hforth := ((hs'.linked k hk).pred_mem ((mem_strand_iff he hc hs hs' hlink hk).2.mpr hmem)).2
  rw [hkept] at hforth
  subst hi
  exact UInt32.toNat_inj.mp hforth

/-- A backward link is the inverse of a link forward, which has not changed. -/
theorem predLink_eq {k x : Nat} (hk : k < Bucket.count) (hx : x ∈ ls k ++ [h.epilogNode k])
    (hi : i = x) : h'.mem.word i = h.mem.word i := by
  have hlink : ∀ j, InWord i j → h.LinkByte ls j := by
    subst hi
    intro j hj
    rcases List.mem_append.mp hx with hx | hx
    · exact ⟨k, hk, .inr (.inl ⟨_, hx, inNode_of_pred hj⟩)⟩
    · exact ⟨k, hk, .inr (.inr (List.mem_singleton.mp hx ▸ hj))⟩
  have hx' : x ∈ (h.strand ls k).tail := hx
  obtain ⟨hmem, hforth⟩ := (hs.linked k hk).pred_mem hx'
  have hkept : h'.mem.succLink (h.mem.predLink x) = x := by
    refine (Memory.succLink_eq hc fun j hj hij => ?_).trans hforth
    have h1 := hs.aligned hk (List.mem_of_mem_tail hx')
    have h2 := hs.aligned hk ((List.dropLast_sublist _).mem hmem)
    simp only [InWord, alignment, wordSize] at *
    omega
  have hback := ((hs'.linked k hk).succ_mem ((mem_strand_iff he hc hs hs' hlink hk).1.mpr hmem)).2
  rw [hkept] at hback
  subst hi
  exact UInt32.toNat_inj.mp hback

end

/-! ## Damaged words -/

/-- Word `i` is one of the structure of the heap with the blocks `bs`, and `w` is a value that
damages it: any other than its own, but in a header, where only the status may be another. -/
inductive Damage (h : Heap) (bs : List Block) : Nat → UInt32 → Prop where
  | footer {b : Block} (hb : b ∈ bs) (w : UInt32) : Damage h bs (b.offset + b.size - overhead) w
  | status {b : Block} (hb : b ∈ bs) {w : UInt32} {tag : Tag} (hw : Tag.decode w = some tag)
      (hsize : tag.size = b.size) (hstatus : tag.status ≠ b.status) :
      Damage h bs (b.offset - wordSize) w
  | epilogHeader (w : UInt32) : Damage h bs h.epilog w
  | pred {b : Block} (hb : b ∈ bs) (hf : b.isFree) (w : UInt32) : Damage h bs b.offset w
  | succ {b : Block} (hb : b ∈ bs) (hf : b.isFree) (w : UInt32) :
      Damage h bs (b.offset + wordSize) w
  | prologSucc {k : Nat} (hk : k < Bucket.count) (w : UInt32) :
      Damage h bs (prologNode k + wordSize) w
  | epilogPred {k : Nat} (hk : k < Bucket.count) (w : UInt32) : Damage h bs (h.epilogNode k) w

/-- Where a damaged word is. -/
theorem Damage.le (hs : h.Shape cs ls) (hroom : h.epilog + epilogBytes ≤ h.size) {w : UInt32}
    (hd : h.Damage (cs.map (viewOf h.mem)) i w) : i + wordSize ≤ h.size := by
  have hep := hs.chain.firstHeader_le
  have hbounds : ∀ b ∈ cs.map (viewOf h.mem),
      b.offset + b.size ≤ h.epilog + wordSize ∧ minBlock ≤ b.size := by
    intro b hb
    obtain ⟨c, hc, rfl⟩ := List.mem_map.mp hb
    exact (hs.chain.bounds hc).2
  cases hd with
  | footer hb | status hb | pred hb | succ hb =>
    have := hbounds _ hb
    simp only [epilogBytes, minBlock, overhead, wordSize] at *
    omega
  | epilogHeader =>
    simp only [epilogBytes] at *
    omega
  | prologSucc hk | epilogPred hk =>
    simp only [prologNode, epilogNode, firstHeader, prologEnd, epilogBytes, nodeSize, wordSize,
      Bucket.count] at *
    omega

/-- Of two well-formed heaps that differ in one word at most, neither is the other one damaged. -/
theorem Damage.eq (he : h'.epilog = h.epilog) (hc : h.mem.ChangesOnly h'.mem (InWord i))
    (hs : h.Shape cs ls) (hs' : h'.Shape cs' ls')
    (hd : h.Damage (cs.map (viewOf h.mem)) i (h'.mem.word i)) : h'.mem.word i = h.mem.word i := by
  cases hd with
  | footer hb =>
    obtain ⟨c, hcc, rfl⟩ := List.mem_map.mp hb
    exact footer_eq hc hs.chain hs'.chain hcc rfl
  | status hb hw hsize hstatus =>
    obtain ⟨c, hcc, rfl⟩ := List.mem_map.mp hb
    exact absurd (congrArg Tag.status (status_eq hc hs.chain hs'.chain hcc rfl hw hsize)) hstatus
  | epilogHeader => rw [hs.chain.zero, ← he, hs'.chain.zero]
  | pred hb hf =>
    obtain ⟨c, hcc, rfl⟩ := List.mem_map.mp hb
    exact predLink_eq he hc hs hs' (Bucket.ofSize_lt c.2.size)
      (List.mem_append_left _ (hs.complete' c hcc hf)) rfl
  | succ hb hf =>
    obtain ⟨c, hcc, rfl⟩ := List.mem_map.mp hb
    exact succLink_eq he hc hs hs' (Bucket.ofSize_lt c.2.size)
      (List.mem_cons_of_mem _ (hs.complete' c hcc hf)) rfl
  | prologSucc hk => exact succLink_eq he hc hs hs' hk List.mem_cons_self rfl
  | epilogPred hk => exact predLink_eq he hc hs hs' hk (by simp) rfl

/-- In a heap that passes its check, every damage to a single word is noticed: with the word
overwritten, the check reports a violation. -/
theorem damage_detected (hspan : h.epilog + epilogBytes = h.size)
    (hcheck : h.check = .ok (.ok ())) :
    ∃ bs, h.blocks = .ok bs ∧ ∀ i w, h.Damage bs i w → w ≠ h.mem.word i →
      ∃ m violation, h.mem.writeWord i w = .ok m ∧
        check { h with mem := m } = .ok (.error violation) := by
  have hroom := Nat.le_of_eq hspan
  obtain ⟨⟨cs, ls, hs⟩, -⟩ := wellFormed_of_check hcheck
  refine ⟨_, hs.chain.blocksFrom hroom (by decide), fun i w hd hw => ?_⟩
  have hin := hd.le hs hroom
  have hsmall : h.size + maxWord < offsetBound := by
    have := epilogNode_le_of_check hcheck
    simp only [epilogNode, epilogBytes, nodeSize, wordSize, Bucket.count, maxWord, offsetBound] at *
    omega
  obtain ⟨m, hm⟩ : ∃ m, m = h.mem.setWord i w := ⟨_, rfl⟩
  have hc : h.mem.ChangesOnly m (InWord i) := hm ▸ Memory.changesOnly_setWord ..
  have hself : m.word i = w := hm ▸ Memory.word_setWord_self _ _ hin
  have hsize : Heap.size { h with mem := m } = h.size := hc.size
  obtain ⟨verdict, -, hverdict⟩ := coincide_check (h := { h with mem := m })
    (by rw [hsize]; exact hroom) (by rw [hsize]; exact hsmall) hs.chain.firstHeader_le
  cases verdict with
  | error violation => exact ⟨m, violation, hm ▸ Memory.writeWord_of_le w hin, hverdict⟩
  | ok =>
    obtain ⟨⟨cs', ls', hs'⟩, -⟩ := wellFormed_of_check hverdict
    have hkept : m.word i = h.mem.word i :=
      Damage.eq (show ({ h with mem := m } : Heap).epilog = h.epilog from rfl) hc hs hs'
        (hself.symm ▸ hd)
    exact absurd (hself.symm.trans hkept) hw

/-- Skipping the first block of a list, by the forward link of its prolog node. -/
theorem damage_detected_skipped :
    twoHoles.epilog + epilogBytes = twoHoles.size ∧ twoHoles.check = .ok (.ok ()) ∧
      (112 : UInt32) ≠ twoHoles.mem.word 4 ∧
      ∃ bs m violation, twoHoles.blocks = .ok bs ∧ twoHoles.Damage bs 4 112 ∧
        twoHoles.mem.writeWord 4 112 = .ok m ∧
        check { twoHoles with mem := m } = .ok (.error violation) := by
  have hspan : twoHoles.epilog + epilogBytes = twoHoles.size := by decide +kernel
  have hother : (112 : UInt32) ≠ twoHoles.mem.word 4 := by decide +kernel
  obtain ⟨bs, hbs, hall⟩ := damage_detected hspan check_twoHoles
  have hd : twoHoles.Damage bs 4 112 := .prologSucc (k := 0) (by decide) 112
  obtain ⟨m, violation, hm, hv⟩ := hall 4 112 hd hother
  exact ⟨hspan, check_twoHoles, hother, bs, m, violation, hbs, hd, hm, hv⟩

end Heap

end SegFit
