/-
  Merging runs of free blocks.  `coalesce cs` has each maximal run of free blocks in `cs` as one
  block, and `freed ps cs` has the blocks at `ps` free.  Merging some of a run first does not
  change what the run becomes (`coalesce_merged`), and blocks that are apart are left as they are
  (`coalesce_of_separated`).  So what a release leaves is, once everything is merged, what marking
  the block free leaves (`Around.coalesce_freed`).
-/
import Mathlib.Data.List.SplitBy
import SegFit.Proofs.Accounts

namespace SegFit

open Heap

variable {b c : TaggedBlock} {cs pre post rest : List TaggedBlock} {prev next : Option TaggedBlock}

/-! ## Runs -/

/-- Whether both blocks are free. -/
def bothFree (b c : TaggedBlock) : Bool :=
  b.2.isFree && c.2.isFree

/-- The blocks of a run as one, with the status of the first. -/
def joined : List TaggedBlock → Option TaggedBlock
  | [] => none
  | b :: rest => some (b.1, ⟨bytesOf (b :: rest), b.2.status⟩)

/-- The blocks `cs`, each maximal run of free ones merged. -/
def coalesce (cs : List TaggedBlock) : List TaggedBlock :=
  (cs.splitBy bothFree).filterMap joined

/-- The merged blocks `cs` with one more in front. -/
def attach (b : TaggedBlock) : List TaggedBlock → List TaggedBlock
  | [] => [b]
  | c :: cs => if bothFree b c then (b.1, ⟨b.2.size + c.2.size, .free⟩) :: cs else b :: c :: cs

/-- The run that a list begins with. -/
theorem exists_first_run (c : TaggedBlock) (rest : List TaggedBlock) :
    ∃ run runs, (c :: rest).splitBy bothFree = (c :: run) :: runs := by
  have hflat := List.flatten_splitBy bothFree (c :: rest)
  cases hsplit : (c :: rest).splitBy bothFree with
  | nil => simp [hsplit] at hflat
  | cons m runs =>
    have hne : m ≠ [] := List.ne_nil_of_mem_splitBy (hsplit ▸ List.mem_cons_self)
    obtain ⟨d, run, rfl⟩ := List.exists_cons_of_ne_nil hne
    rw [hsplit, List.flatten_cons, List.cons_append] at hflat
    obtain rfl := (List.cons.inj hflat).1
    exact ⟨run, runs, rfl⟩

/-- A block that is free with the first one joins its run. -/
theorem splitBy_cons_of_bothFree {run : List TaggedBlock} {runs : List (List TaggedBlock)}
    (hf : bothFree b c) (hsplit : (c :: rest).splitBy bothFree = (c :: run) :: runs) :
    (b :: c :: rest).splitBy bothFree = (b :: c :: run) :: runs := by
  obtain ⟨hflat, hnil, hchain, hseam⟩ := List.splitBy_eq_iff.mp hsplit
  refine List.splitBy_eq_iff.mpr ⟨?_, ?_, fun m hm => ?_, ?_⟩
  · rw [hflat]
    rfl
  · simpa using hnil
  · rcases List.mem_cons.mp hm with rfl | hm
    · exact List.isChain_cons_cons.mpr ⟨hf, hchain _ List.mem_cons_self⟩
    · exact hchain m (List.mem_cons_of_mem _ hm)
  · cases runs with
    | nil => exact List.isChain_singleton _
    | cons m runs =>
      obtain ⟨⟨ha, hb, hne⟩, hseam⟩ := List.isChain_cons_cons.mp hseam
      exact List.isChain_cons_cons.mpr ⟨⟨by simp, hb, by simpa using hne⟩, hseam⟩

/-- Merging goes block by block. -/
theorem coalesce_cons (b : TaggedBlock) (cs : List TaggedBlock) :
    coalesce (b :: cs) = attach b (coalesce cs) := by
  cases cs with
  | nil => rfl
  | cons c rest =>
    obtain ⟨run, runs, hsplit⟩ := exists_first_run c rest
    have hrest : coalesce (c :: rest) =
        (c.1, ⟨bytesOf (c :: run), c.2.status⟩) :: runs.filterMap joined := by
      rw [coalesce, hsplit]
      rfl
    rw [hrest]
    by_cases hf : bothFree b c
    · have hb : b.2.status = .free := Tag.isFree_iff.mp (Bool.and_eq_true_iff.mp hf).1
      have hjoin : attach b ((c.1, ⟨bytesOf (c :: run), c.2.status⟩) :: runs.filterMap joined) =
          (b.1, ⟨b.2.size + bytesOf (c :: run), .free⟩) :: runs.filterMap joined := if_pos hf
      rw [hjoin, coalesce, splitBy_cons_of_bothFree hf hsplit, ← hb]
      rfl
    · have hkeep : attach b ((c.1, ⟨bytesOf (c :: run), c.2.status⟩) :: runs.filterMap joined) =
          b :: (c.1, ⟨bytesOf (c :: run), c.2.status⟩) :: runs.filterMap joined := if_neg hf
      have happ : (b :: c :: rest).splitBy bothFree = [b] :: (c :: rest).splitBy bothFree :=
        List.splitBy_append_cons (l := [b]) rest (by simpa using hf)
      rw [hkeep, coalesce, happ, hsplit]
      rfl

/-! ## Merging a part first -/

/-- What comes before does not matter. -/
theorem coalesce_append_congr {ys zs : List TaggedBlock} (h : coalesce ys = coalesce zs)
    (xs : List TaggedBlock) : coalesce (xs ++ ys) = coalesce (xs ++ zs) := by
  induction xs with
  | nil => exact h
  | cons b xs ih => rw [List.cons_append, List.cons_append, coalesce_cons, coalesce_cons, ih]

/-- Two free blocks in a row can be merged first. -/
theorem coalesce_pair (hb : b.2.isFree) (hc : c.2.isFree) (rest : List TaggedBlock) :
    coalesce (b :: c :: rest) = coalesce ((b.1, ⟨b.2.size + c.2.size, .free⟩) :: rest) := by
  have hfree : ∀ n, (⟨n, .free⟩ : Tag).isFree = true := fun _ => rfl
  rw [coalesce_cons, coalesce_cons, coalesce_cons]
  cases coalesce rest with
  | nil => simp [attach, bothFree, hb, hc]
  | cons d ds =>
    by_cases hd : d.2.isFree
    · simp [attach, bothFree, hb, hc, hd, hfree, Nat.add_assoc]
    · simp [attach, bothFree, hb, hc, hd, hfree]

/-- So can a block with its free neighbours. -/
theorem coalesce_merged (hp : ∀ c ∈ prev, c.2.isFree) (hn : ∀ c ∈ next, c.2.isFree)
    (b : TaggedBlock) (rest : List TaggedBlock) :
    coalesce (prev.toList ++ (b.1, ⟨b.2.size, .free⟩) :: next.toList ++ rest) =
      coalesce (merged prev b next :: rest) := by
  -- The block with the one after it, as one free block.
  have hnext : coalesce ((b.1, ⟨b.2.size, .free⟩) :: next.toList ++ rest) =
      coalesce ((b.1, ⟨b.2.size + (next.map fun c => c.2.size).getD 0, .free⟩) :: rest) := by
    cases next with
    | none => rfl
    | some c => exact coalesce_pair rfl (hn c rfl) rest
  cases prev with
  | none =>
    rw [merged, Option.map_none, Option.map_none, Option.getD_none, Option.getD_none, Nat.zero_add]
    exact hnext
  | some c =>
    have hc := hp c rfl
    calc coalesce (c :: ((b.1, ⟨b.2.size, .free⟩) :: next.toList ++ rest))
        = coalesce (c :: (b.1, ⟨b.2.size + (next.map fun c => c.2.size).getD 0, .free⟩) :: rest) :=
          coalesce_append_congr hnext [c]
      _ = coalesce (merged (some c) b next :: rest) := by
          rw [coalesce_pair hc rfl, ← Nat.add_assoc]
          rfl

/-- Blocks that are apart are merged already. -/
theorem coalesce_of_separated (h : Separated cs) : coalesce cs = cs := by
  induction cs with
  | nil => rfl
  | cons b cs ih =>
    cases cs with
    | nil => rfl
    | cons c cs =>
      rw [coalesce_cons, ih h.2]
      exact if_neg fun hf => h.1 (Bool.and_eq_true_iff.mp hf)

/-- Merging adds free blocks only. -/
theorem mem_of_mem_coalesce (hc : c ∈ coalesce cs) (hf : ¬ c.2.isFree) : c ∈ cs := by
  induction cs with
  | nil => exact hc
  | cons b cs ih =>
    rw [coalesce_cons] at hc
    cases hcs : coalesce cs with
    | nil =>
      rw [hcs] at hc
      exact List.mem_singleton.mp hc ▸ List.mem_cons_self
    | cons d ds =>
      have hrest : c ∈ d :: ds → c ∈ b :: cs := fun hc => List.mem_cons_of_mem b (ih (hcs ▸ hc))
      rw [hcs, attach] at hc
      split at hc
      · rcases List.mem_cons.mp hc with rfl | hc
        · exact absurd rfl hf
        · exact hrest (List.mem_cons_of_mem d hc)
      · rcases List.mem_cons.mp hc with rfl | hc
        · exact List.mem_cons_self
        · exact hrest hc

/-- Free blocks become one. -/
theorem coalesce_of_free (hf : ∀ c ∈ b :: cs, c.2.isFree) :
    coalesce (b :: cs) = [(b.1, ⟨bytesOf (b :: cs), .free⟩)] := by
  have hrun : (b :: cs).IsChain fun x y => bothFree x y = true :=
    (List.pairwise_of_forall_mem_list fun x hx y hy => by
      simp [bothFree, hf x hx, hf y hy]).isChain
  rw [coalesce, List.splitBy_of_isChain (List.cons_ne_nil b cs) hrun]
  have hb : b.2.status = .free := Tag.isFree_iff.mp (hf b List.mem_cons_self)
  simp [joined, hb]

/-! ## Blocks marked free -/

/-- The blocks `cs`, those at `ps` marked free. -/
def freed (ps : List Nat) (cs : List TaggedBlock) : List TaggedBlock :=
  cs.map fun b => if b.1 ∈ ps then (b.1, ⟨b.2.size, .free⟩) else b

theorem freed_nil (cs : List TaggedBlock) : freed [] cs = cs :=
  (List.map_congr_left fun _ _ => if_neg List.not_mem_nil).trans (List.map_id' cs)

/-- What is freed counts, not in which order. -/
theorem freed_perm {ps qs : List Nat} (h : ps.Perm qs) (cs : List TaggedBlock) :
    freed ps cs = freed qs cs :=
  List.map_congr_left fun b _ => by simp [h.mem_iff]

/-- Blocks stay where they are. -/
theorem exists_of_mem_freed {ps : List Nat} (hc : c ∈ freed ps cs) :
    ∃ b ∈ cs, b.1 = c.1 ∧ b.2.size = c.2.size := by
  obtain ⟨b, hb, rfl⟩ := List.mem_map.mp hc
  refine ⟨b, hb, ?_⟩
  split <;> exact ⟨rfl, rfl⟩

theorem Tiles.freed {start stop : Nat} (h : Tiles start cs stop) (ps : List Nat) :
    Tiles start (freed ps cs) stop := by
  induction cs generalizing start with
  | nil => exact h
  | cons b cs ih =>
    obtain ⟨rfl, hlarge, hrest⟩ := h
    rw [SegFit.freed, List.map_cons]
    split <;> exact ⟨rfl, hlarge, ih hrest⟩

theorem freed_append (ps : List Nat) (xs ys : List TaggedBlock) :
    freed ps (xs ++ ys) = freed ps xs ++ freed ps ys :=
  List.map_append

/-- Free blocks are free. -/
theorem freed_of_free {ps : List Nat} (hf : ∀ c ∈ cs, c.2.isFree) : freed ps cs = cs := by
  refine (List.map_congr_left fun c hc => ?_).trans (List.map_id' cs)
  have hc : c.2.status = .free := Tag.isFree_iff.mp (hf c hc)
  split
  · rw [← hc]
  · rfl

/-- An offset where no block is does not matter. -/
theorem freed_cons_of_not_mem (ps : List Nat) {p : Nat} (hp : ∀ c ∈ cs, c.1 ≠ p) :
    freed (p :: ps) cs = freed ps cs :=
  List.map_congr_left fun c hc => by simp [hp c hc]

/-- A merged block is free. -/
theorem Heap.freed_merged (ps : List Nat) :
    freed ps (pre ++ [merged prev b next] ++ post) =
      freed ps pre ++ [merged prev b next] ++ freed ps post := by
  have hmerged : freed ps [merged prev b next] = [merged prev b next] :=
    freed_of_free fun c hc => by rw [List.mem_singleton.mp hc]; rfl
  rw [freed_append, freed_append, hmerged]

section

variable {start stop : Nat} (ha : Around cs pre prev b next post) (ht : Tiles start cs stop)
  (ps : List Nat)
include ha ht

/-- One block more is freed. -/
theorem Heap.Around.freed_cons :
    freed (b.1 :: ps) cs =
      freed ps pre ++ (prev.toList ++ (b.1, ⟨b.2.size, .free⟩) :: next.toList) ++
        freed ps post := by
  have houter : ∀ c ∈ pre ++ post, c.1 ≠ b.1 := fun c hc => ha.offset_ne ht hc (by simp)
  have hpre := freed_cons_of_not_mem ps fun c hc => houter c (List.mem_append_left _ hc)
  have hpost := freed_cons_of_not_mem ps fun c hc => houter c (List.mem_append_right _ hc)
  have hprev : freed (b.1 :: ps) prev.toList = prev.toList :=
    freed_of_free fun c hc => ha.prev c (by simpa using hc)
  have hnext : freed (b.1 :: ps) next.toList = next.toList :=
    freed_of_free fun c hc => ha.next c (by simpa using hc)
  have hmid : freed (b.1 :: ps) (b :: next.toList) =
      (b.1, ⟨b.2.size, .free⟩) :: freed (b.1 :: ps) next.toList := by
    simp [freed]
  rw [ha.blocks, freed_append, freed_append, freed_append, hprev, hmid, hnext, hpre, hpost]

/-- Marking a block free and merging what is free then comes to the same whether or not the block
has been released already. -/
theorem Heap.Around.coalesce_freed :
    coalesce (freed ps (pre ++ [merged prev b next] ++ post)) =
      coalesce (freed (b.1 :: ps) cs) := by
  rw [ha.freed_cons ht, freed_merged, List.append_assoc, List.append_assoc]
  exact coalesce_append_congr (coalesce_merged ha.prev ha.next b _).symm _

end

end SegFit
