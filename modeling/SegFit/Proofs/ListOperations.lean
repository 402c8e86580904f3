/-
  The free lists as an abstract object.  Where the strands of a heap are threaded, with each
  bucket's list in its place (`Threaded h ls`), the operations on the bytes are operations on
  the lists `ls`:

  * a walk yields the list and ends;
  * `insert` puts a node, apart from all others, at the front of the list of its bucket;
  * `remove` takes a node off its list;
  * `moveEpilog` keeps every list, with the epilog nodes in their new place.

  Sentinels count as nodes, so a neighbour may be one of them, and no case is special.

  Proved:
  * `Threaded.insert_node`, `Threaded.remove_node`: either operation, with its frame: the links
    of the node and those that its two neighbours have towards it.
  * `Threaded.remove_inserted`: removal undoes insertion but for the bytes of the node itself.
  * `Threaded.list_operations`: all of it together.
  * `Threaded.epilog_moved`: below the new epilog header only forward links of last nodes
    change, also where the old and the new epilog nodes overlap.
-/
import SegFit.Proofs.ReleaseLayout

namespace SegFit

namespace Memory

/-- Writing links around `x` so that its neighbours have their old links to one another again
changes `x` only. -/
theorem ChangesOnly.of_links {m n : Memory} {p x s : Nat} (hc : m.ChangesOnly n (BetweenByte p x s))
    (hsucc : n.succLink p = m.succLink p) (hpred : n.predLink s = m.predLink s) :
    m.ChangesOnly n (InNode x) := by
  refine ⟨hc.size, fun j hj => ?_⟩
  by_cases hp : InWord (p + wordSize) j
  · exact byte_eq_of_word (UInt32.toNat.inj hsucc) hp
  by_cases hs : InWord s j
  · exact byte_eq_of_word (UInt32.toNat.inj hpred) hs
  exact hc.byte j fun h => h.elim hj fun h => h.elim hp hs

/-- Neighbours on a linked list link to one another. -/
theorem Linked.neighbours {m : Memory} {l : List Nat} {x y : Nat} (h : m.Linked l)
    (hn : [x, y] <:+: l) : m.succLink x = y ∧ m.predLink y = x := by
  obtain ⟨pre, post, rfl⟩ := hn
  rw [List.append_assoc] at h
  exact ((linked_append pre x (y :: post)).mp h).2.head

end Memory

namespace Heap

open Allocator (Reachable session)

variable {h : Heap} {ls : Nat → List Nat} {b x : Nat}

/-! ## Insertion and removal -/

/-- `insert` puts a node between the two nodes that were at the front of the strand. -/
theorem Threaded.insert_node (ht : h.Threaded ls) (size : Nat)
    (hapart : ∀ c < Bucket.count, ∀ y ∈ h.strand ls c, Apart x y) (hin : x + nodeSize ≤ h.size)
    (hlow : x ≤ maxWord) :
    ∃ m p s, h.insert x size = .ok ⟨m, h.epilog⟩ ∧
      Threaded ⟨m, h.epilog⟩ (pushNode ls (Bucket.ofSize size) x) ∧
      [p, s] <:+: h.strand ls (Bucket.ofSize size) ∧
      [p, x, s] <:+: h.strand (pushNode ls (Bucket.ofSize size) x) (Bucket.ofSize size) ∧
      h.mem.ChangesOnly m (Memory.BetweenByte p x s) := by
  obtain ⟨p, s, hold, hnew, hm, ht'⟩ := ht.pushFree_eq size hapart hin hlow
  refine ⟨_, p, s, ?_, ht', hold, hnew, Memory.changesOnly_between h.mem p x s⟩
  unfold insert
  rw [hm]
  rfl

/-- `remove` joins the neighbours of a node. -/
theorem Threaded.remove_node (ht : h.Threaded ls) (hb : b < Bucket.count) (hx : x ∈ ls b)
    {p s : Nat} (hn : [p, x, s] <:+: h.strand ls b) :
    ∃ m, h.remove x = .ok ⟨m, h.epilog⟩ ∧ Threaded ⟨m, h.epilog⟩ (dropNode ls x) ∧
      h.mem.ChangesOnly m (Memory.JoinByte p s) := by
  obtain ⟨hm, ht'⟩ := ht.unlink_eq hb hx hn
  refine ⟨_, ?_, ht', Memory.changesOnly_join h.mem p s⟩
  unfold remove
  rw [hm]
  rfl

/-- Dropping the node that was pushed gives the old lists. -/
theorem dropNode_pushNode (hnew : ∀ c < Bucket.count, x ∉ ls c) {c : Nat} (hc : c < Bucket.count) :
    dropNode (pushNode ls b x) x c = ls c := by
  unfold dropNode pushNode
  split
  · exact List.erase_cons_head ..
  · exact List.erase_of_not_mem (hnew c hc)

/-- Removal undoes insertion, but for the bytes of the node itself. -/
theorem Threaded.remove_inserted (ht : h.Threaded ls) (size : Nat)
    (hapart : ∀ c < Bucket.count, ∀ y ∈ h.strand ls c, Apart x y) (hin : x + nodeSize ≤ h.size)
    (hlow : x ≤ maxWord) :
    ∃ m m', h.insert x size = .ok ⟨m, h.epilog⟩ ∧ remove ⟨m, h.epilog⟩ x = .ok ⟨m', h.epilog⟩ ∧
      h.mem.ChangesOnly m' (InNode x) := by
  have hb : Bucket.ofSize size < Bucket.count := Bucket.ofSize_lt size
  obtain ⟨m, p, s, hinsert, ht₁, hold, hnew, hc₁⟩ := ht.insert_node size hapart hin hlow
  have hx : x ∈ pushNode ls (Bucket.ofSize size) x (Bucket.ofSize size) := by simp [pushNode]
  obtain ⟨m', hremove, ht₂, hc₂⟩ := ht₁.remove_node hb hx hnew
  have hlists : dropNode (pushNode ls (Bucket.ofSize size) x) x (Bucket.ofSize size) =
      ls (Bucket.ofSize size) :=
    dropNode_pushNode (fun c hc hm => (hapart c hc x (mem_strand_of_mem hm)).ne rfl) hb
  have hlinked : m'.Linked (h.strand ls (Bucket.ofSize size)) := by
    have := ht₂.linked _ hb
    rwa [hlists] at this
  -- The neighbours link to one another before and after, so their links are what they were.
  have hbefore := Memory.Linked.neighbours (ht.linked _ hb) hold
  have hafter := hlinked.neighbours hold
  have hc : h.mem.ChangesOnly m' (Memory.BetweenByte p x s) := hc₁.trans (hc₂.mono fun _ => .inr)
  exact ⟨m, m', hinsert, hremove,
    hc.of_links (hafter.1.trans hbefore.1.symm) (hafter.2.trans hbefore.2.symm)⟩

/-- On threaded strands the operations on links are operations on lists, and each writes only
links of the node it is about and of the two neighbours that this has on its strand. -/
theorem Threaded.list_operations (ht : h.Threaded ls) :
    (∀ b < Bucket.count,
      h.nodes b = .ok (ls b) ∧ ∀ n, h.firstNodes b n = .ok ((ls b).take n)) ∧
    (∀ x size, x + nodeSize ≤ h.size → x ≤ maxWord →
      (∀ b < Bucket.count, ∀ y ∈ h.strand ls b, Apart x y) →
      ∃ m p s, h.insert x size = .ok ⟨m, h.epilog⟩ ∧
        Threaded ⟨m, h.epilog⟩ (pushNode ls (Bucket.ofSize size) x) ∧
        [p, x, s] <:+: h.strand (pushNode ls (Bucket.ofSize size) x) (Bucket.ofSize size) ∧
        h.mem.ChangesOnly m (Memory.BetweenByte p x s) ∧
        ∃ m', remove ⟨m, h.epilog⟩ x = .ok ⟨m', h.epilog⟩ ∧ h.mem.ChangesOnly m' (InNode x)) ∧
    ∀ b < Bucket.count, ∀ x ∈ ls b,
      ∃ m p s, h.remove x = .ok ⟨m, h.epilog⟩ ∧
        Threaded ⟨m, h.epilog⟩ (dropNode ls x) ∧
        (∀ c < Bucket.count, c ≠ b → dropNode ls x c = ls c) ∧
        [p, x, s] <:+: h.strand ls b ∧ h.mem.ChangesOnly m (Memory.JoinByte p s) := by
  refine ⟨fun b hb => ⟨ht.nodes hb, ht.firstNodes hb⟩, fun x size hin hlow hapart => ?_,
    fun b hb x hx => ?_⟩
  · obtain ⟨m, p, s, hinsert, ht', -, hn, hc⟩ := ht.insert_node size hapart hin hlow
    obtain ⟨_, m', hinsert', hremove, hc'⟩ := ht.remove_inserted size hapart hin hlow
    cases hinsert.symm.trans hinsert'
    exact ⟨m, p, s, hinsert, ht', hn, hc, m', hremove, hc'⟩
  · obtain ⟨p, s, hn⟩ := exists_neighbours h hx
    obtain ⟨m, hremove, ht', hc⟩ := ht.remove_node hb hx hn
    refine ⟨m, p, s, hremove, ht', fun c hcc hcb => ?_, hn, hc⟩
    exact List.erase_of_not_mem (ht.not_mem_of_ne hb hx hcc (Ne.symm hcb))

/-- A block of 48 bytes, released: a heap with one node on one list. -/
theorem exists_lone_node :
    ∃ a cs ls, session {} [.allocate 40, .release 112] = some (a, []) ∧
      a.heap.Consistent cs ls ∧ a.heap.epilog = 156 ∧ a.heap.size = 264 ∧ ls 1 = [112] ∧
      ∀ b < Bucket.count, ∀ x ∈ ls b, x = 112 := by
  have hall : (session {} [.allocate 40, .release 112]).map (fun s =>
      decide (s.2 = [] ∧ s.1.heap.epilog = 156 ∧ s.1.heap.size = 264 ∧
        s.1.Shows [(112, ⟨48, .free⟩)])) = some true := by
    decide +kernel
  obtain ⟨⟨a, live⟩, hrun, hfacts⟩ := Option.map_eq_some_iff.mp hall
  obtain ⟨rfl, hepilog, hsize, hshows⟩ := of_decide_eq_true hfacts
  obtain ⟨cs, ls, ⟨hs, -⟩, -⟩ := (Reachable.of_session hrun).tracks
  have hk := hs.consistent
  obtain rfl := (Allocator.shows_of_sound hs).unique hshows
  refine ⟨a, _, ls, hrun, hk, hepilog, hsize, ?_, fun b hb x hx => ?_⟩
  · exact List.perm_singleton.mp (hs.list_perm (k := 1) (by decide))
  · obtain ⟨b, hb, -, rfl⟩ := (hs.mem_list hb).mp hx
    rw [List.mem_singleton.mp (show b ∈ [(112, ⟨48, .free⟩)] from hb)]

/-- A node put at the front of a list and taken off again, and the only node taken off. -/
theorem list_operations_lone :
    ∃ a m m' m'', session {} [.allocate 40, .release 112] = some (a, []) ∧
      a.heap.nodes 1 = .ok [112] ∧
      a.heap.insert 128 48 = .ok ⟨m, 156⟩ ∧ Heap.nodes ⟨m, 156⟩ 1 = .ok [128, 112] ∧
      Heap.remove ⟨m, 156⟩ 128 = .ok ⟨m', 156⟩ ∧
      (∀ j, ¬ InNode 128 j → m'.byte j = a.heap.mem.byte j) ∧
      a.heap.remove 112 = .ok ⟨m'', 156⟩ ∧ Heap.nodes ⟨m'', 156⟩ 1 = .ok [] := by
  obtain ⟨a, cs, ls, hrun, hk, hepilog, hsize, hlist, hone⟩ := exists_lone_node
  have ht := hk.threaded
  have hapart : ∀ b < Bucket.count, ∀ y ∈ a.heap.strand ls b, Apart 128 y := by
    intro b hb y hy
    rcases mem_strand.mp hy with rfl | hy | rfl
    · simp only [Apart, prologNode, nodeSize, wordSize, Bucket.count] at *
      omega
    · rw [hone b hb y hy]
      exact .inr (by decide)
    · simp only [Apart, epilogNode, nodeSize, wordSize] at *
      omega
  obtain ⟨hwalk, hinsert, hremove⟩ := Threaded.list_operations ht
  obtain ⟨m, _, _, hm, ht₁, -, -, m', hm', hc⟩ :=
    hinsert 128 48 (by rw [hsize]; decide) (by decide) hapart
  obtain ⟨m'', _, _, hm'', ht₂, -⟩ := hremove 1 (by decide) 112 (by rw [hlist]; decide)
  rw [hepilog] at hm hm' hm'' ht₁ ht₂
  refine ⟨a, m, m', m'', hrun, ?_, hm, ?_, hm', hc.byte, hm'', ?_⟩
  · rw [(hwalk 1 (by decide)).1, hlist]
  · rw [ht₁.nodes (by decide), pushNode, if_pos (by decide), hlist]
  · rw [ht₂.nodes (by decide), dropNode, hlist]
    rfl

/-! ## Moving the epilog -/

/-- In a heap whose blocks and lists are consistent, all nodes end below the epilog header. -/
theorem Consistent.node_le_epilog {cs : List TaggedBlock} (hk : h.Consistent cs ls)
    (hb : b < Bucket.count) (hx : x ∈ prologNode b :: ls b) : x + nodeSize ≤ h.epilog := by
  have hheader := hk.chain.firstHeader_le
  rcases List.mem_cons.mp hx with rfl | hx
  · simp only [prologNode, firstHeader, prologEnd, nodeSize, wordSize, Bucket.count] at *
    omega
  · obtain ⟨tag, hm, -⟩ := hk.listed b hb x hx
    have := hk.chain.bounds hm
    simp only [minBlock, nodeSize, wordSize] at *
    omega

/-- Moving the epilog nodes keeps every list, whatever the shift: where all nodes, the prolog
nodes among them, end below the epilog header and offsets fit into words, the lists are linked to
the new epilog nodes, the new epilog header is zero, and below it only forward links of last nodes
have changed. -/
theorem Threaded.epilog_moved (ht : h.Threaded ls) (shift : Nat)
    (hbelow : ∀ b < Bucket.count, ∀ x ∈ prologNode b :: ls b, x + nodeSize ≤ h.epilog)
    (hfit : h.epilog + shift + epilogBytes ≤ h.size)
    (hsmall : h.epilog + shift + epilogBytes ≤ maxWord + 1) :
    ∃ m, h.moveEpilog shift = .ok ⟨m, h.epilog + shift⟩ ∧ Threaded ⟨m, h.epilog + shift⟩ ls ∧
      m.word (h.epilog + shift) = 0 ∧ m.size = h.size ∧
      ∀ j < h.epilog + shift, (∀ b < Bucket.count, ¬ InWord (lastNode ls b + wordSize) j) →
        m.byte j = h.mem.byte j := by
  have hprolog : prologEnd ≤ h.epilog :=
    hbelow (Bucket.count - 1) (by decide) _ List.mem_cons_self
  obtain ⟨m, hm, ht', hzero, -, hc⟩ := ht.moveEpilog shift
    (fun b hb x hx => hbelow b hb x (List.mem_cons_of_mem _ hx)) hprolog hfit hsmall
  refine ⟨m, hm, ht', hzero, hc.size, fun j hj hlast => hc.byte j ?_⟩
  rintro (⟨b, hb, hs⟩ | hle)
  · exact hlast b hb hs
  · exact absurd hj (Nat.not_lt.mpr hle)

/-- A shift of six bytes: old and new epilog nodes overlap, and words are not aligned. -/
theorem epilog_moved_six :
    ∃ a m, session {} [.allocate 40, .release 112] = some (a, []) ∧
      (a.heap.extend 6).moveEpilog 6 = .ok ⟨m, 162⟩ ∧ m.word 162 = 0 ∧
      Heap.nodes ⟨m, 162⟩ 1 = .ok [112] ∧
      ∀ j, prologEnd ≤ j → j < 162 → ¬ InWord 116 j → m.byte j = a.heap.mem.byte j := by
  obtain ⟨a, cs, ls, hrun, hk, hepilog, hsize, hlist, hone⟩ := exists_lone_node
  have hk' := hk.extend (n := 6) (by rw [hsize]; decide)
  have hsize' : (⟨a.heap.mem.extend 6, a.heap.epilog⟩ : Heap).size = 270 :=
    (Memory.size_extend ..).trans (congrArg (· + 6) hsize)
  obtain ⟨m, hm, ht', hheader, -, hbyte⟩ := hk'.threaded.epilog_moved 6
    (fun b hb x => hk'.node_le_epilog hb) (by rw [hsize', hepilog]; decide)
    (by rw [hepilog]; decide)
  have hm : (a.heap.extend 6).moveEpilog 6 = .ok ⟨m, a.heap.epilog + 6⟩ := hm
  have hnew : a.heap.epilog + 6 = 162 := congrArg (· + 6) hepilog
  simp only [hnew] at hm ht' hheader hbyte
  refine ⟨a, m, hrun, hm, hheader, (ht'.nodes (by decide)).trans (by rw [hlist]), ?_⟩
  intro j hj hlt hlast
  refine (hbyte j hlt fun b hb hs => ?_).trans (Memory.byte_extend _ 6 j)
  rcases lastNode_eq_or_mem ls b with he | hmem
  · rw [he] at hs
    simp only [InWord, prologNode, prologEnd, nodeSize, wordSize, Bucket.count] at *
    omega
  · rw [hone b hb _ hmem] at hs
    exact hlast hs

end Heap

end SegFit
