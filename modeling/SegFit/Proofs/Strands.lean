/-
  The free lists under insertion and removal.  The strand of a bucket is its list with the
  two sentinels, and `h.Threaded ls` says that the strands of all buckets are linked and that
  no two of their nodes share a byte.  A walk over such a list finds it (`Threaded.nodes`).
  Unlinking a node joins its two neighbours, and putting one at the front puts it between two
  (`Threaded.unlink_eq`, `Threaded.pushFree_eq`).  Either way links of nodes of one strand only
  are rewritten, so all others stay linked (`Threaded.unlink`, `Threaded.pushFree`).
-/
import SegFit.Proofs.Words

namespace SegFit

/-- The nodes at `x` and `y` share no byte. -/
def Apart (x y : Nat) : Prop :=
  x + nodeSize ≤ y ∨ y + nodeSize ≤ x

theorem Apart.symm {x y : Nat} (h : Apart x y) : Apart y x :=
  Or.symm h

theorem Apart.ne {x y : Nat} (h : Apart x y) : x ≠ y := by
  simp only [Apart, nodeSize, wordSize] at h
  omega

/-- Byte `j` belongs to the node at `x`. -/
def InNode (x j : Nat) : Prop :=
  x ≤ j ∧ j < x + nodeSize

theorem Apart.not_inNode {x y j : Nat} (h : Apart x y) (hj : InNode x j) : ¬ InNode y j := by
  simp only [Apart, InNode, nodeSize, wordSize] at *
  omega

theorem inNode_of_pred {x j : Nat} (h : InWord x j) : InNode x j := by
  simp only [InWord, InNode, nodeSize, wordSize] at *
  omega

theorem inNode_of_succ {x j : Nat} (h : InWord (x + wordSize) j) : InNode x j := by
  simp only [InWord, InNode, nodeSize, wordSize] at *
  omega

theorem not_succ_of_pred {x j : Nat} (h : InWord x j) : ¬ InWord (x + wordSize) j := by
  simp only [InWord, wordSize] at *
  omega

namespace Memory

/-! ## Linked lists -/

/-- Links of a concatenation: both halves and the node they share. -/
theorem linked_append {m : Memory} (l : List Nat) (x : Nat) (r : List Nat) :
    m.Linked (l ++ x :: r) ↔ m.Linked (l ++ [x]) ∧ m.Linked (x :: r) := by
  induction l with
  | nil => simp [Linked]
  | cons a l ih =>
    cases l with
    | nil => simp [Linked, and_assoc]
    | cons b l =>
      simp only [List.cons_append] at ih ⊢
      simp only [Linked, ih, and_assoc]

/-- Links read the forward link of every node but the last and the backward link of every
node but the first. -/
theorem Linked.congr {m n : Memory} {l : List Nat} (h : m.Linked l)
    (hs : ∀ x ∈ l.dropLast, n.succLink x = m.succLink x)
    (hp : ∀ x ∈ l.tail, n.predLink x = m.predLink x) : n.Linked l := by
  induction l with
  | nil => trivial
  | cons x l ih =>
    cases l with
    | nil => trivial
    | cons y rest =>
      obtain ⟨h1, h2, h3⟩ := h
      refine ⟨(hs x (by simp)).trans h1, (hp y (by simp)).trans h2, ih h3 ?_ ?_⟩
      · intro z hz
        exact hs z (by simp [hz])
      · intro z hz
        exact hp z (List.mem_cons_of_mem y hz)

theorem predLink_eq {m n : Memory} {S : Nat → Prop} (hc : m.ChangesOnly n S) {x : Nat}
    (hx : ∀ j, InWord x j → ¬ S j) : n.predLink x = m.predLink x := by
  rw [predLink, hc.word hx, predLink]

theorem succLink_eq {m n : Memory} {S : Nat → Prop} (hc : m.ChangesOnly n S) {x : Nat}
    (hx : ∀ j, InWord (x + wordSize) j → ¬ S j) : n.succLink x = m.succLink x := by
  rw [succLink, hc.word hx, succLink]

/-- Linked nodes stay linked when none of their bytes changes. -/
theorem Linked.of_changesOnly {m n : Memory} {l : List Nat} {S : Nat → Prop} (h : m.Linked l)
    (hc : m.ChangesOnly n S) (hd : ∀ x ∈ l, ∀ j, InNode x j → ¬ S j) : n.Linked l := by
  refine h.congr (fun x hx => succLink_eq hc fun j hj => ?_)
    (fun x hx => predLink_eq hc fun j hj => ?_)
  · exact hd x (List.dropLast_subset _ hx) j (inNode_of_succ hj)
  · exact hd x (List.mem_of_mem_tail hx) j (inNode_of_pred hj)

theorem Linked.head {m : Memory} {x y : Nat} {l : List Nat} (h : m.Linked (x :: y :: l)) :
    m.succLink x = y ∧ m.predLink y = x :=
  ⟨h.1, h.2.1⟩

/-! ## Single links -/

theorem toNat_link {x : Nat} (h : x ≤ maxWord) : (UInt32.ofNat x).toNat = x := by
  simp only [maxWord] at h
  rw [UInt32.toNat_ofNat']
  exact Nat.mod_eq_of_lt (by omega)

/-- The store with the backward link of `x` set to `y`. -/
def withPred (m : Memory) (x y : Nat) : Memory :=
  m.setWord x (.ofNat y)

/-- The store with the forward link of `x` set to `y`. -/
def withSucc (m : Memory) (x y : Nat) : Memory :=
  m.setWord (x + wordSize) (.ofNat y)

section Links

variable {m : Memory} {x y link : Nat}

@[simp] theorem size_withPred (m : Memory) (x y : Nat) : (m.withPred x y).size = m.size :=
  size_setWord ..

@[simp] theorem size_withSucc (m : Memory) (x y : Nat) : (m.withSucc x y).size = m.size :=
  size_setWord ..

theorem setPred_eq (link : Nat) (h : x + nodeSize ≤ m.size) :
    m.setPred x link = .ok (m.withPred x link) :=
  writeWord_of_le _ (by simp only [nodeSize, wordSize] at *; omega)

theorem setSucc_eq (link : Nat) (h : x + nodeSize ≤ m.size) :
    m.setSucc x link = .ok (m.withSucc x link) :=
  writeWord_of_le _ (by simp only [nodeSize, wordSize] at *; omega)

theorem changesOnly_withPred (m : Memory) (x y : Nat) :
    m.ChangesOnly (m.withPred x y) (InWord x) :=
  changesOnly_setWord ..

theorem changesOnly_withSucc (m : Memory) (x y : Nat) :
    m.ChangesOnly (m.withSucc x y) (InWord (x + wordSize)) :=
  changesOnly_setWord ..

theorem predLink_withPred (hx : x + nodeSize ≤ m.size) (hl : link ≤ maxWord) :
    (m.withPred x link).predLink x = link := by
  simp only [nodeSize, wordSize] at hx
  rw [predLink, withPred, word_setWord_self _ _ (by simp only [wordSize]; omega), toNat_link hl]

theorem succLink_withSucc (hx : x + nodeSize ≤ m.size) (hl : link ≤ maxWord) :
    (m.withSucc x link).succLink x = link := by
  simp only [nodeSize, wordSize] at hx
  rw [succLink, withSucc, word_setWord_self _ _ (by simp only [wordSize]; omega), toNat_link hl]

theorem predLink_withPred_of_apart (h : Apart x y) :
    (m.withPred y link).predLink x = m.predLink x :=
  predLink_eq (changesOnly_withPred m y link) fun _ hj hs =>
    h.not_inNode (inNode_of_pred hj) (inNode_of_pred hs)

theorem succLink_withPred_of_apart (h : Apart x y) :
    (m.withPred y link).succLink x = m.succLink x :=
  succLink_eq (changesOnly_withPred m y link) fun _ hj hs =>
    h.not_inNode (inNode_of_succ hj) (inNode_of_pred hs)

theorem predLink_withSucc_of_apart (h : Apart x y) :
    (m.withSucc y link).predLink x = m.predLink x :=
  predLink_eq (changesOnly_withSucc m y link) fun _ hj hs =>
    h.not_inNode (inNode_of_pred hj) (inNode_of_succ hs)

theorem succLink_withSucc_of_apart (h : Apart x y) :
    (m.withSucc y link).succLink x = m.succLink x :=
  succLink_eq (changesOnly_withSucc m y link) fun _ hj hs =>
    h.not_inNode (inNode_of_succ hj) (inNode_of_succ hs)

@[simp] theorem predLink_withSucc_self (m : Memory) (x link : Nat) :
    (m.withSucc x link).predLink x = m.predLink x :=
  predLink_eq (changesOnly_withSucc m x link) fun _ hj hs => not_succ_of_pred hj hs

attribute [irreducible] withPred withSucc

end Links

/-! ## Joining and inserting -/

/-- The store in which `x` is followed by `y`. -/
def join (m : Memory) (x y : Nat) : Memory :=
  (m.withSucc x y).withPred y x

/-- The bytes that joining `x` to `y` writes. -/
def JoinByte (x y j : Nat) : Prop :=
  InWord (x + wordSize) j ∨ InWord y j

theorem changesOnly_join (m : Memory) (x y : Nat) :
    m.ChangesOnly (m.join x y) (JoinByte x y) :=
  ((changesOnly_withSucc _ _ _).mono fun _ => .inl).trans
    ((changesOnly_withPred _ _ _).mono fun _ => .inr)

theorem succLink_join {m : Memory} {x y : Nat} (ha : Apart x y) (hx : x + nodeSize ≤ m.size)
    (hy : y ≤ maxWord) : (m.join x y).succLink x = y := by
  rw [join, succLink_withPred_of_apart ha, succLink_withSucc hx hy]

theorem predLink_join {m : Memory} {x y : Nat} (hy : y + nodeSize ≤ m.size) (hx : x ≤ maxWord) :
    (m.join x y).predLink y = x := by
  rw [join, predLink_withPred (by rw [size_withSucc]; exact hy) hx]

theorem inNode_of_joinByte {x y j : Nat} (h : JoinByte x y j) : InNode x j ∨ InNode y j :=
  h.imp inNode_of_succ inNode_of_pred

/-- Two linked lists become one when the last node of the first is joined to the first node of
the second. -/
theorem linked_join {m : Memory} {l r : List Nat} {x y : Nat} (hl : m.Linked (l ++ [x]))
    (hr : m.Linked (y :: r)) (ha : (l ++ x :: y :: r).Pairwise Apart)
    (hx : x + nodeSize ≤ m.size) (hy : y + nodeSize ≤ m.size) (hxw : x ≤ maxWord)
    (hyw : y ≤ maxWord) : (m.join x y).Linked (l ++ x :: y :: r) := by
  have hc := changesOnly_join m x y
  obtain ⟨-, hpr, hlr⟩ := List.pairwise_append.mp ha
  obtain ⟨hxr, hyr⟩ := List.pairwise_cons.mp hpr
  have hxy : Apart x y := hxr y List.mem_cons_self
  have hyr : ∀ z ∈ r, Apart y z := (List.pairwise_cons.mp hyr).1
  rw [linked_append]
  refine ⟨hl.congr ?_ ?_, succLink_join hxy hx hyw, predLink_join hy hxw, hr.congr ?_ ?_⟩
  · intro z hz
    rw [List.dropLast_concat] at hz
    refine succLink_eq hc fun j hj hs => ?_
    rcases inNode_of_joinByte hs with hs | hs
    · exact (hlr z hz x (by simp)).not_inNode (inNode_of_succ hj) hs
    · exact (hlr z hz y (by simp)).not_inNode (inNode_of_succ hj) hs
  · intro z hz
    refine predLink_eq hc fun j hj hs => ?_
    rcases List.mem_append.mp (List.mem_of_mem_tail hz) with hz | hz
    · rcases inNode_of_joinByte hs with hs | hs
      · exact (hlr z hz x (by simp)).not_inNode (inNode_of_pred hj) hs
      · exact (hlr z hz y (by simp)).not_inNode (inNode_of_pred hj) hs
    · obtain rfl := List.mem_singleton.mp hz
      rcases hs with hs | hs
      · exact not_succ_of_pred hj hs
      · exact hxy.not_inNode (inNode_of_pred hj) (inNode_of_pred hs)
  · intro z hz
    refine succLink_eq hc fun j hj hs => ?_
    rcases List.mem_cons.mp (List.dropLast_subset _ hz) with rfl | hz
    · rcases hs with hs | hs
      · exact hxy.not_inNode (inNode_of_succ hs) (inNode_of_succ hj)
      · exact not_succ_of_pred hs hj
    · rcases inNode_of_joinByte hs with hs | hs
      · exact (hxr z (by simp [hz])).not_inNode hs (inNode_of_succ hj)
      · exact (hyr z hz).not_inNode hs (inNode_of_succ hj)
  · intro z hz
    refine predLink_eq hc fun j hj hs => ?_
    rcases inNode_of_joinByte hs with hs | hs
    · exact (hxr z (by simp [show z ∈ r from hz])).not_inNode hs (inNode_of_pred hj)
    · exact (hyr z hz).not_inNode hs (inNode_of_pred hj)

/-- The store in which `x` stands between `head` and `first`. -/
def between (m : Memory) (head x first : Nat) : Memory :=
  (((m.withPred x head).withSucc x first).withSucc head x).withPred first x

/-- The bytes that putting `x` between `head` and `first` writes. -/
def BetweenByte (head x first j : Nat) : Prop :=
  InNode x j ∨ JoinByte head first j

theorem changesOnly_between (m : Memory) (head x first : Nat) :
    m.ChangesOnly (m.between head x first) (BetweenByte head x first) := by
  rw [between]
  refine .trans (.trans (.trans ((changesOnly_withPred m x _).mono ?_)
    ((changesOnly_withSucc _ x _).mono ?_)) ((changesOnly_withSucc _ head _).mono ?_))
    ((changesOnly_withPred _ first _).mono ?_)
  · exact fun j hj => .inl (inNode_of_pred hj)
  · exact fun j hj => .inl (inNode_of_succ hj)
  · exact fun j hj => .inr (.inl hj)
  · exact fun j hj => .inr (.inr hj)

/-- A node put between the first two nodes of a linked list. -/
theorem linked_between {m : Memory} {head x first : Nat} {r : List Nat}
    (hl : m.Linked (head :: first :: r)) (ha : (head :: x :: first :: r).Pairwise Apart)
    (hin : ∀ y ∈ head :: x :: first :: r, y + nodeSize ≤ m.size)
    (hlow : ∀ y ∈ head :: x :: first :: r, y ≤ maxWord) :
    (m.between head x first).Linked (head :: x :: first :: r) := by
  have hc := changesOnly_between m head x first
  obtain ⟨hh, ha⟩ := List.pairwise_cons.mp ha
  obtain ⟨hx, ha⟩ := List.pairwise_cons.mp ha
  obtain ⟨hf, -⟩ := List.pairwise_cons.mp ha
  have hhx : Apart head x := hh x (by simp)
  have hhf : Apart head first := hh first (by simp)
  have hxf : Apart x first := hx first (by simp)
  have ih : head + nodeSize ≤ m.size := hin head (by simp)
  have ix : x + nodeSize ≤ m.size := hin x (by simp)
  have if' : first + nodeSize ≤ m.size := hin first (by simp)
  have lx : x ≤ maxWord := hlow x (by simp)
  refine ⟨?_, ?_, ?_, ?_, ?_⟩
  · rw [between, succLink_withPred_of_apart hhf, succLink_withSucc (by simpa using ih) lx]
  · rw [between, predLink_withPred_of_apart hxf, predLink_withSucc_of_apart hhx.symm,
      predLink_withSucc_self, predLink_withPred ix (hlow head (by simp))]
  · rw [between, succLink_withPred_of_apart hxf, succLink_withSucc_of_apart hhx.symm,
      succLink_withSucc (by simpa using ix) (hlow first (by simp))]
  · rw [between, predLink_withPred (by simpa using if') lx]
  · refine hl.2.2.congr (fun z hz => succLink_eq hc fun j hj hs => ?_)
      (fun z hz => predLink_eq hc fun j hj hs => ?_)
    · have hz := List.dropLast_subset _ hz
      rcases hs with hs | hs | hs
      · exact (hx z hz).not_inNode hs (inNode_of_succ hj)
      · exact (hh z (List.mem_cons_of_mem x hz)).not_inNode (inNode_of_succ hs) (inNode_of_succ hj)
      · rcases List.mem_cons.mp hz with rfl | hz
        · exact not_succ_of_pred hs hj
        · exact (hf z hz).not_inNode (inNode_of_pred hs) (inNode_of_succ hj)
    · have hz : z ∈ r := hz
      rcases hs with hs | hs | hs
      · exact (hx z (by simp [hz])).not_inNode hs (inNode_of_pred hj)
      · exact (hh z (by simp [hz])).not_inNode (inNode_of_succ hs) (inNode_of_pred hj)
      · exact (hf z hz).not_inNode (inNode_of_pred hs) (inNode_of_pred hj)

/-- `unlink` joins the neighbours of a node. -/
theorem unlink_eq {m : Memory} {x p s : Nat} (hx : x + nodeSize ≤ m.size)
    (hp : m.predLink x = p) (hs : m.succLink x = s) (ip : p + nodeSize ≤ m.size)
    (is : s + nodeSize ≤ m.size) : m.unlink x = .ok (m.join p s) := by
  have hw : x + wordSize ≤ m.size := by simp only [nodeSize, wordSize] at *; omega
  unfold unlink
  rw [pred_of_le hw, ok_bind, succ_of_le hx, ok_bind, hp, hs, setSucc_eq _ ip, ok_bind,
    setPred_eq _ (by rw [size_withSucc]; exact is)]
  rfl

/-- `pushFree` puts a block between the first two nodes of a strand. -/
theorem pushFree_eq {m : Memory} (x size : Nat) {first : Nat}
    (hf : m.succLink (prologNode (Bucket.ofSize size)) = first)
    (ih : prologNode (Bucket.ofSize size) + nodeSize ≤ m.size) (ix : x + nodeSize ≤ m.size)
    (if' : first + nodeSize ≤ m.size) :
    m.pushFree x size = .ok (m.between (prologNode (Bucket.ofSize size)) x first) := by
  simp only [pushFree]
  rw [succ_of_le ih, ok_bind, hf, setPred_eq _ ix, ok_bind,
    setSucc_eq _ (by simpa using ix), ok_bind, setSucc_eq _ (by simpa using ih), ok_bind,
    setPred_eq _ (by simpa using if')]
  rfl

attribute [irreducible] join between

end Memory

/-! ## The strands of a heap -/

/-- The lists without the node `x`. -/
def dropNode (ls : Nat → List Nat) (x : Nat) : Nat → List Nat :=
  fun b => (ls b).erase x

/-- The lists with the node `x` at the front of that of bucket `b`. -/
def pushNode (ls : Nat → List Nat) (b x : Nat) : Nat → List Nat :=
  fun c => if c = b then x :: ls c else ls c

namespace Heap

/-- The list of a bucket with its sentinels. -/
def strand (h : Heap) (ls : Nat → List Nat) (b : Nat) : List Nat :=
  prologNode b :: ls b ++ [h.epilogNode b]

/-- The strands of all buckets are linked, and no two of their nodes share a byte. -/
structure Threaded (h : Heap) (ls : Nat → List Nat) : Prop where
  linked : ∀ b < Bucket.count, h.Holds b (ls b)
  apart : ∀ b < Bucket.count, (h.strand ls b).Pairwise Apart
  across : ∀ b < Bucket.count, ∀ c < Bucket.count, b ≠ c →
    ∀ x ∈ h.strand ls b, ∀ y ∈ h.strand ls c, Apart x y
  inside : ∀ b < Bucket.count, ∀ x ∈ h.strand ls b, x + nodeSize ≤ h.size
  low : ∀ b < Bucket.count, ∀ x ∈ h.strand ls b, x ≤ maxWord

/-- Byte `j` belongs to a link of a strand.  The backward links of the prolog nodes and the
forward links of the epilog nodes lead nowhere and are not among them. -/
def LinkByte (h : Heap) (ls : Nat → List Nat) (j : Nat) : Prop :=
  ∃ b < Bucket.count, InWord (prologNode b + wordSize) j ∨ (∃ x ∈ ls b, InNode x j) ∨
    InWord (h.epilogNode b) j

variable {h : Heap} {ls : Nat → List Nat} {b x : Nat}

theorem mem_strand : x ∈ h.strand ls b ↔ x = prologNode b ∨ x ∈ ls b ∨ x = h.epilogNode b := by
  simp [strand]

theorem mem_strand_of_mem (hx : x ∈ ls b) : x ∈ h.strand ls b :=
  List.mem_append_left _ (List.mem_cons_of_mem _ hx)

theorem prologNode_mem_strand : prologNode b ∈ h.strand ls b :=
  List.mem_append_left _ List.mem_cons_self

theorem epilogNode_mem_strand : h.epilogNode b ∈ h.strand ls b :=
  List.mem_append_right _ List.mem_cons_self

theorem strand_dropNode_sublist (h : Heap) (ls : Nat → List Nat) (x c : Nat) :
    (h.strand (dropNode ls x) c).Sublist (h.strand ls c) :=
  (List.erase_sublist.cons_cons _).append_right _

/-- A node with a byte of its own on no other strand. -/
theorem Threaded.not_mem_of_ne (ht : h.Threaded ls) (hb : b < Bucket.count) (hx : x ∈ ls b)
    {c : Nat} (hc : c < Bucket.count) (hbc : b ≠ c) : x ∉ ls c :=
  fun hm => (ht.across b hb c hc hbc x (mem_strand_of_mem hx) x (mem_strand_of_mem hm)).ne rfl

/-! ## Walks -/

theorem Threaded.nodup (ht : h.Threaded ls) (hb : b < Bucket.count) : (h.strand ls b).Nodup :=
  (ht.apart b hb).imp Apart.ne

theorem Threaded.epilogNode_not_mem (ht : h.Threaded ls) (hb : b < Bucket.count) :
    h.epilogNode b ∉ ls b := by
  intro hm
  have hdisjoint := (List.nodup_append.mp (ht.nodup hb)).2.2
  exact hdisjoint _ (List.mem_cons_of_mem _ hm) _ List.mem_cons_self rfl

/-- A list is no longer than the store that its nodes lie in. -/
theorem length_le_of_nodup {ns : List Nat} (hn : ns.Nodup)
    (hin : ∀ x ∈ ns, x + nodeSize ≤ h.size) : ns.length ≤ h.size := by
  have hsub : ns ⊆ List.range h.size := by
    intro x hx
    have := hin x hx
    refine List.mem_range.mpr ?_
    simp only [nodeSize, wordSize] at this
    omega
  simpa using hn.length_le_of_subset hsub

/-- Reading a list finds all of it. -/
theorem nodes_of_holds {ns : List Nat} (hl : h.Holds b ns) (hn : ns.Nodup)
    (hp : prologNode b + nodeSize ≤ h.size) (he : h.epilogNode b ∉ ns)
    (hin : ∀ x ∈ ns, x + nodeSize ≤ h.size) : h.nodes b = .ok ns := by
  have hlen := length_le_of_nodup hn hin
  unfold Heap.nodes
  rw [firstNodes_of_holds _ hl hp he hin, ok_bind, List.take_of_length_le (by omega), if_pos hlen]
  rfl

theorem Threaded.firstNodes (ht : h.Threaded ls) (hb : b < Bucket.count) (n : Nat) :
    h.firstNodes b n = .ok ((ls b).take n) :=
  firstNodes_of_holds n (ht.linked b hb) (ht.inside b hb _ prologNode_mem_strand)
    (ht.epilogNode_not_mem hb) fun x hx => ht.inside b hb x (mem_strand_of_mem hx)

theorem Threaded.nodes (ht : h.Threaded ls) (hb : b < Bucket.count) : h.nodes b = .ok (ls b) :=
  nodes_of_holds (ht.linked b hb) (List.nodup_append.mp (ht.nodup hb)).1.of_cons
    (ht.inside b hb _ prologNode_mem_strand) (ht.epilogNode_not_mem hb)
    fun x hx => ht.inside b hb x (mem_strand_of_mem hx)

/-! ## Neighbours -/

/-- Every node of a list stands between two nodes of its strand. -/
theorem exists_neighbours (h : Heap) (hx : x ∈ ls b) : ∃ p s, [p, x, s] <:+: h.strand ls b := by
  obtain ⟨xs, ys, hls⟩ := List.append_of_mem hx
  obtain ⟨l, p, hl⟩ : ∃ l p, prologNode b :: xs = l ++ [p] :=
    ⟨_, _, (List.dropLast_concat_getLast (List.cons_ne_nil _ _)).symm⟩
  obtain ⟨s, r, hr⟩ : ∃ s r, ys ++ [h.epilogNode b] = s :: r := by
    cases ys <;> exact ⟨_, _, rfl⟩
  refine ⟨p, s, l, r, ?_⟩
  calc l ++ [p, x, s] ++ r = (l ++ [p]) ++ x :: (s :: r) := by simp
    _ = h.strand ls b := by rw [← hl, ← hr, strand, hls]; simp

/-- Of two neighbours the first is not the epilog node, and the second not the prolog node. -/
theorem mem_of_neighbours {p s : Nat} (hn : [p, s] <:+: h.strand ls b) :
    p ∈ prologNode b :: ls b ∧ s ∈ ls b ++ [h.epilogNode b] := by
  obtain ⟨l, r, hold⟩ := hn
  constructor
  · have hlast : (h.strand ls b).dropLast = prologNode b :: ls b := List.dropLast_concat
    rw [← hlast, ← hold, List.append_assoc, List.dropLast_append_of_ne_nil (by simp)]
    simp
  · have htail : (h.strand ls b).tail = ls b ++ [h.epilogNode b] := rfl
    rw [← htail, ← hold]
    cases l <;> simp

/-- The forward link of a node other than the epilog node and the backward link of one other than
the prolog node lead somewhere. -/
theorem linkByte_of_joinByte {p s j : Nat} (hb : b < Bucket.count) (hp : p ∈ prologNode b :: ls b)
    (hs : s ∈ ls b ++ [h.epilogNode b]) (hj : Memory.JoinByte p s j) : h.LinkByte ls j := by
  refine ⟨b, hb, ?_⟩
  rcases hj with hj | hj
  · rcases List.mem_cons.mp hp with rfl | hp
    · exact .inl hj
    · exact .inr (.inl ⟨p, hp, inNode_of_succ hj⟩)
  · rcases List.mem_append.mp hs with hs | hs
    · exact .inr (.inl ⟨s, hs, inNode_of_pred hj⟩)
    · exact .inr (.inr (List.mem_singleton.mp hs ▸ hj))

/-- Links between nodes of one strand are in no node of another. -/
theorem Threaded.not_joinByte (ht : h.Threaded ls) (hb : b < Bucket.count) {c : Nat}
    (hc : c < Bucket.count) (hbc : b ≠ c) {p s y j : Nat} (hp : p ∈ h.strand ls b)
    (hs : s ∈ h.strand ls b) (hy : y ∈ h.strand ls c) (hj : InNode y j) :
    ¬ Memory.JoinByte p s j := by
  have hapart := fun x hx => ht.across b hb c hc hbc x hx y hy
  intro hjoin
  rcases Memory.inNode_of_joinByte hjoin with hin | hin
  · exact (hapart p hp).not_inNode hin hj
  · exact (hapart s hs).not_inNode hin hj

/-! ## Removal -/

/-- Strands that lose nodes, with all links of the others in place, are threaded still. -/
theorem Threaded.of_sublist (ht : h.Threaded ls) {ls' : Nat → List Nat} {m : Memory}
    (hsub : ∀ c, (h.strand ls' c).Sublist (h.strand ls c)) (hsize : m.size = h.mem.size)
    (hlink : ∀ c < Bucket.count, m.Linked (h.strand ls' c)) :
    ({ h with mem := m } : Heap).Threaded ls' := by
  refine ⟨hlink, fun c hc => (ht.apart c hc).sublist (hsub c), ?_, ?_, ?_⟩
  · intro c hc d hd hcd y hy z hz
    exact ht.across c hc d hd hcd y ((hsub c).subset hy) z ((hsub d).subset hz)
  · intro c hc y hy
    show y + nodeSize ≤ m.size
    rw [hsize]
    exact ht.inside c hc y ((hsub c).subset hy)
  · intro c hc y hy
    exact ht.low c hc y ((hsub c).subset hy)

/-- Without a node, a strand is the old one with its neighbours side by side. -/
theorem Threaded.strand_dropNode (ht : h.Threaded ls) (hb : b < Bucket.count) (hx : x ∈ ls b)
    {l r : List Nat} {p : Nat} (hold : l ++ p :: x :: r = h.strand ls b) :
    h.strand (dropNode ls x) b = l ++ p :: r := by
  have hne : prologNode b ≠ x := by
    have hap := (List.pairwise_cons.mp (ht.apart b hb)).1
    exact (hap x (List.mem_append_left _ hx)).ne
  have herase : h.strand (dropNode ls x) b = (h.strand ls b).erase x := by
    rw [strand, strand, List.erase_append_left _ (List.mem_cons_of_mem _ hx),
      List.erase_cons_tail (by simpa using hne)]
    rfl
  have hn : (l ++ [p] ++ x :: r).Nodup := by
    rw [List.append_assoc, List.singleton_append, hold]
    exact ht.nodup hb
  have hnot : x ∉ l ++ [p] := fun hm =>
    (List.nodup_append.mp hn).2.2 x hm x List.mem_cons_self rfl
  calc h.strand (dropNode ls x) b = (l ++ [p] ++ x :: r).erase x := by rw [herase, ← hold]; simp
    _ = l ++ p :: r := by rw [List.erase_append_right _ hnot, List.erase_cons_head]; simp

/-- Unlinking a node joins its neighbours, which leaves all lists linked. -/
theorem Threaded.unlink_eq (ht : h.Threaded ls) (hb : b < Bucket.count) (hx : x ∈ ls b)
    {p s : Nat} (hn : [p, x, s] <:+: h.strand ls b) :
    h.mem.unlink x = .ok (h.mem.join p s) ∧
      ({ h with mem := h.mem.join p s } : Heap).Threaded (dropNode ls x) := by
  obtain ⟨l, r, hold⟩ := hn
  rw [List.append_assoc] at hold
  have hnew := ht.strand_dropNode hb hx hold
  have hp : p ∈ h.strand ls b := by simp [← hold]
  have hs : s ∈ h.strand ls b := by simp [← hold]
  have hlink : h.mem.Linked (l ++ p :: x :: s :: r) := hold ▸ ht.linked b hb
  obtain ⟨hll, hlx⟩ := (Memory.linked_append l p _).mp hlink
  obtain ⟨-, hxp, hxs, -, hlr⟩ := hlx
  have hsub := strand_dropNode_sublist h ls x
  have hap : (l ++ p :: s :: r).Pairwise Apart := hnew ▸ (ht.apart b hb).sublist (hsub b)
  have ip := ht.inside b hb p hp
  have is := ht.inside b hb s hs
  have ix := ht.inside b hb x (mem_strand_of_mem hx)
  have hch := Memory.changesOnly_join h.mem p s
  refine ⟨Memory.unlink_eq ix hxp hxs ip is, ht.of_sublist hsub hch.size fun c hc => ?_⟩
  by_cases hbc : b = c
  · subst hbc
    rw [hnew]
    exact Memory.linked_join hll hlr hap ip is (ht.low b hb p hp) (ht.low b hb s hs)
  · have he : h.strand (dropNode ls x) c = h.strand ls c := by
      rw [strand, dropNode, List.erase_of_not_mem (ht.not_mem_of_ne hb hx hc hbc), strand]
    have hlinked : h.mem.Linked (h.strand ls c) := ht.linked c hc
    rw [he]
    exact hlinked.of_changesOnly hch fun y hy j hj => ht.not_joinByte hb hc hbc hp hs hy hj

/-- Taking a node off its list leaves all lists linked, and writes only links of nodes that
stay. -/
theorem Threaded.unlink (ht : h.Threaded ls) (hb : b < Bucket.count) (hx : x ∈ ls b) :
    ∃ m, h.mem.unlink x = .ok m ∧ ({ h with mem := m } : Heap).Threaded (dropNode ls x) ∧
      h.mem.ChangesOnly m (h.LinkByte (dropNode ls x)) := by
  obtain ⟨p, s, hn⟩ := exists_neighbours h hx
  obtain ⟨hm, ht'⟩ := ht.unlink_eq hb hx hn
  obtain ⟨l, r, hold⟩ := hn
  rw [List.append_assoc] at hold
  have hn' : [p, s] <:+: h.strand (dropNode ls x) b :=
    ⟨l, r, by rw [ht.strand_dropNode hb hx hold]; simp⟩
  obtain ⟨hp, hs⟩ := mem_of_neighbours hn'
  exact ⟨_, hm, ht', (Memory.changesOnly_join h.mem p s).mono fun j =>
    linkByte_of_joinByte hb hp hs⟩

/-! ## Insertion -/

theorem strand_pushNode_self :
    h.strand (pushNode ls b x) b = prologNode b :: x :: (ls b ++ [h.epilogNode b]) := by
  rw [strand, pushNode, if_pos rfl, List.cons_append, List.cons_append]

theorem strand_pushNode_of_ne {c : Nat} (hcb : c ≠ b) :
    h.strand (pushNode ls b x) c = h.strand ls c := by
  rw [strand, pushNode, if_neg hcb, strand]

/-- Every node of the new strands is the one put there or an old one. -/
theorem mem_strand_pushNode {c y : Nat} (hy : y ∈ h.strand (pushNode ls b x) c) :
    (c = b ∧ y = x) ∨ y ∈ h.strand ls c := by
  by_cases hcb : c = b
  · subst hcb
    rw [strand_pushNode_self] at hy
    rcases List.mem_cons.mp hy with rfl | hy
    · exact .inr prologNode_mem_strand
    · rcases List.mem_cons.mp hy with rfl | hy
      · exact .inl ⟨rfl, rfl⟩
      · exact .inr (List.mem_cons_of_mem _ hy)
  · exact .inr (strand_pushNode_of_ne hcb ▸ hy)

/-- A node apart from all others stays so on its strand. -/
theorem Threaded.apart_pushNode (ht : h.Threaded ls)
    (ha : ∀ c < Bucket.count, ∀ y ∈ h.strand ls c, Apart x y) {c : Nat} (hc : c < Bucket.count) :
    (h.strand (pushNode ls b x) c).Pairwise Apart := by
  by_cases hcb : c = b
  · subst hcb
    have hx := ha c hc
    obtain ⟨h1, h2⟩ := List.pairwise_cons.mp (ht.apart c hc)
    rw [strand_pushNode_self]
    refine .cons (fun y hy => ?_) (.cons (fun y hy => hx y (List.mem_cons_of_mem _ hy)) h2)
    rcases List.mem_cons.mp hy with rfl | hy
    · exact (hx _ prologNode_mem_strand).symm
    · exact h1 y hy
  · rw [strand_pushNode_of_ne hcb]
    exact ht.apart c hc

/-- Strands with a node more, apart from all others and with all links in place, are threaded. -/
theorem Threaded.of_pushNode (ht : h.Threaded ls) {m : Memory}
    (ha : ∀ c < Bucket.count, ∀ y ∈ h.strand ls c, Apart x y) (hin : x + nodeSize ≤ h.size)
    (hlow : x ≤ maxWord) (hsize : m.size = h.mem.size)
    (hlink : ∀ c < Bucket.count, m.Linked (h.strand (pushNode ls b x) c)) :
    ({ h with mem := m } : Heap).Threaded (pushNode ls b x) := by
  refine ⟨hlink, fun c hc => ht.apart_pushNode ha hc, ?_, ?_, ?_⟩
  · intro c hc d hd hcd y hy z hz
    rcases mem_strand_pushNode hy with ⟨hcb, hyx⟩ | hy'
    · rcases mem_strand_pushNode hz with ⟨hdb, -⟩ | hz'
      · exact absurd (hcb.trans hdb.symm) hcd
      · exact hyx ▸ ha d hd z hz'
    · rcases mem_strand_pushNode hz with ⟨-, hzx⟩ | hz'
      · exact hzx ▸ (ha c hc y hy').symm
      · exact ht.across c hc d hd hcd y hy' z hz'
  · intro c hc y hy
    show y + nodeSize ≤ m.size
    rw [hsize]
    rcases mem_strand_pushNode hy with ⟨-, rfl⟩ | hy
    · exact hin
    · exact ht.inside c hc y hy
  · intro c hc y hy
    rcases mem_strand_pushNode hy with ⟨-, rfl⟩ | hy
    · exact hlow
    · exact ht.low c hc y hy

/-- A node put at the front of a list stands between the prolog node and the node that was
first, which leaves all lists linked. -/
theorem Threaded.pushFree_eq (ht : h.Threaded ls) (size : Nat)
    (ha : ∀ c < Bucket.count, ∀ y ∈ h.strand ls c, Apart x y) (hin : x + nodeSize ≤ h.size)
    (hlow : x ≤ maxWord) :
    ∃ p f, [p, f] <:+: h.strand ls (Bucket.ofSize size) ∧
      [p, x, f] <:+: h.strand (pushNode ls (Bucket.ofSize size) x) (Bucket.ofSize size) ∧
      h.mem.pushFree x size = .ok (h.mem.between p x f) ∧
      ({ h with mem := h.mem.between p x f } : Heap).Threaded
        (pushNode ls (Bucket.ofSize size) x) := by
  have hb : Bucket.ofSize size < Bucket.count := Bucket.ofSize_lt size
  generalize hbs : Bucket.ofSize size = b at hb ⊢
  obtain ⟨f, r, hr⟩ : ∃ f r, ls b ++ [h.epilogNode b] = f :: r := by
    cases ls b <;> exact ⟨_, _, rfl⟩
  have hold : h.strand ls b = prologNode b :: f :: r := by
    rw [strand, List.cons_append, hr]
  have hnew : h.strand (pushNode ls b x) b = prologNode b :: x :: f :: r := by
    rw [strand_pushNode_self, hr]
  have hp : prologNode b ∈ h.strand ls b := prologNode_mem_strand
  have hf : f ∈ h.strand ls b := by simp [hold]
  have hlink : h.mem.Linked (prologNode b :: f :: r) := hold ▸ ht.linked b hb
  have hpush : h.mem.pushFree x size = .ok (h.mem.between (prologNode b) x f) := by
    have := Memory.pushFree_eq x size (by rw [hbs]; exact hlink.1)
      (by rw [hbs]; exact ht.inside b hb _ hp) hin (ht.inside b hb f hf)
    rwa [hbs] at this
  have hch := Memory.changesOnly_between h.mem (prologNode b) x f
  refine ⟨prologNode b, f, ⟨[], r, hold.symm⟩, ⟨[], r, hnew.symm⟩, hpush,
    ht.of_pushNode ha hin hlow hch.size fun c hc => ?_⟩
  by_cases hcb : c = b
  · subst hcb
    have hall : ∀ y ∈ prologNode c :: x :: f :: r, y = x ∨ y ∈ h.strand ls c :=
      fun y hy => (mem_strand_pushNode (hnew ▸ hy)).imp_left And.right
    have hap : (prologNode c :: x :: f :: r).Pairwise Apart := hnew ▸ ht.apart_pushNode ha hb
    rw [hnew]
    refine Memory.linked_between hlink hap (fun y hy => ?_) fun y hy => ?_
    · rcases hall y hy with rfl | hy
      · exact hin
      · exact ht.inside c hb y hy
    · rcases hall y hy with rfl | hy
      · exact hlow
      · exact ht.low c hb y hy
  · rw [strand_pushNode_of_ne hcb]
    refine (ht.linked c hc : h.mem.Linked (h.strand ls c)).of_changesOnly hch
      fun y hy j hj hs => ?_
    rcases hs with hs | hs
    · exact (ha c hc y hy).not_inNode hs hj
    · exact ht.not_joinByte hb hc (Ne.symm hcb) hp hf hy hj hs

/-- A node put at the front of a list leaves all lists linked, and writes only links of nodes
on them. -/
theorem Threaded.pushFree (ht : h.Threaded ls) (size : Nat)
    (ha : ∀ c < Bucket.count, ∀ y ∈ h.strand ls c, Apart x y) (hin : x + nodeSize ≤ h.size)
    (hlow : x ≤ maxWord) :
    ∃ m, h.mem.pushFree x size = .ok m ∧
      ({ h with mem := m } : Heap).Threaded (pushNode ls (Bucket.ofSize size) x) ∧
      h.mem.ChangesOnly m (h.LinkByte (pushNode ls (Bucket.ofSize size) x)) := by
  obtain ⟨p, f, -, hn, hm, ht'⟩ := ht.pushFree_eq size ha hin hlow
  have hb := Bucket.ofSize_lt size
  obtain ⟨hp, -⟩ := mem_of_neighbours ((List.prefix_append [p, x] [f]).isInfix.trans hn)
  obtain ⟨-, hf⟩ := mem_of_neighbours ((List.suffix_cons p [x, f]).isInfix.trans hn)
  refine ⟨_, hm, ht', (Memory.changesOnly_between h.mem p x f).mono fun j hj => ?_⟩
  rcases hj with hj | hj
  · have hxb : x ∈ pushNode ls (Bucket.ofSize size) x (Bucket.ofSize size) := by simp [pushNode]
    exact ⟨_, hb, .inr (.inl ⟨x, hxb, hj⟩)⟩
  · exact linkByte_of_joinByte hb hp hf hj

end Heap

end SegFit
