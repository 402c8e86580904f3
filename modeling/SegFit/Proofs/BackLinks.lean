/-
  Why the walk over the lists ends.  The checker keeps the set of the blocks that it has listed,
  but no verdict depends on it.  A listed block links back to the node from which it was reached,
  so these links lead from block to block back to a prolog node, and nothing listed links back to
  the node where the walk stands now (`Rooted`).  A node met again, on the same list or on a later
  one, is therefore refused for its link back, before it is looked up in the set
  (`revisits_refused`).  So each step of the walk lists a free block more, and a walk without any
  bound would end as well.
-/
import SegFit.Proofs.Diagnostics

namespace SegFit

theorem size_le_of_contains {s t : Offsets}
    (hst : ∀ x, s.contains x = true → t.contains x = true) : s.size ≤ t.size := by
  rw [← Std.TreeSet.length_toList, ← Std.TreeSet.length_toList]
  refine List.Nodup.length_le_of_subset ?_ fun x hx => ?_
  · exact Std.TreeSet.distinct_toList.imp fun hne => by simpa using hne
  · have hs : s.contains x = true := by simpa using hx
    simpa using hst x hs

/-! ## Verdicts -/

/-- The violation is that a block is listed twice. -/
def Violation.isSecondEntry : Violation → Bool
  | .listedTwice .. => true
  | _ => false

section Checked

variable {α β : Type}

/-- If the check fails, it is not for a second entry. -/
def SingleEntry (x : Checked α) : Prop :=
  ∀ v, x = throw v → v.isSecondEntry = false

theorem throw_eq_throw {v w : Violation} : (throw v : Checked α) = throw w ↔ v = w := by
  constructor
  · intro h
    have h : (Except.ok (.error v) : Except Fault (Except Violation α)) = .ok (.error w) := h
    cases h
    rfl
  · rintro rfl
    rfl

namespace SingleEntry

theorem pass (a : α) : SingleEntry (pure a : Checked α) :=
  fun _ h => absurd h.symm throw_ne_pure

theorem fail {v : Violation} (hv : v.isSecondEntry = false) : SingleEntry (throw v : Checked α) :=
  fun _ h => throw_eq_throw.mp h ▸ hv

theorem lift (x : Except Fault α) : SingleEntry (liftM x : Checked α) := by
  intro w h
  cases x with
  | error e =>
    have h : (Except.error e : Except Fault (Except Violation α)) = .ok (.error w) := h
    cases h
  | ok a => exact pass a w h

theorem bind {x : Checked α} {f : α → Checked β} (hx : SingleEntry x)
    (hf : ∀ a, x = pure a → SingleEntry (f a)) : SingleEntry (x >>= f) := by
  intro w h
  cases hr : (x : Except Fault (Except Violation α)) with
  | error e =>
    rw [hr] at h
    have h : (Except.error e : Except Fault (Except Violation β)) = .ok (.error w) := h
    cases h
  | ok r =>
    rw [hr] at h
    cases r with
    | error v =>
      obtain rfl : v = w := throw_eq_throw.mp h
      exact hx v hr
    | ok a => exact hf a hr w h

/-- What is only computed for the wording of a violation does not make it another one. -/
theorem fail_with (x : Except Fault α) {v : α → Violation}
    (hv : ∀ a, (v a).isSecondEntry = false) :
    SingleEntry ((liftM x : Checked α) >>= fun a => (throw (v a) : Checked β)) :=
  .bind (.lift x) fun a _ => .fail (hv a)

end SingleEntry

end Checked

namespace Heap

variable {h : Heap}

/-- The walk over the blocks lists nothing. -/
theorem checkBlocks_singleEntry (block : Nat) (prev : Option Nat) :
    SingleEntry (h.checkBlocks block prev) := by
  rw [checkBlocks]
  split
  · exact .fail rfl
  refine .bind (.lift _) fun tag _ => ?_
  cases tag with
  | none =>
    show SingleEntry (ite _ _ _)
    split
    · exact .fail rfl
    · exact .pass _
  | some tag =>
    show SingleEntry (ite _ _ _)
    split
    · exact .fail_with _ fun _ => rfl
    split
    · exact .fail rfl
    rename_i hrange
    refine .bind (.lift _) fun _ _ => .bind (.lift _) fun word _ => ?_
    split
    · exact .fail_with _ fun _ => rfl
    cases tag.status with
    | allocated => exact checkBlocks_singleEntry (block + tag.size) none
    | free =>
      cases prev with
      | some prev => exact .fail_with _ fun _ => rfl
      | none =>
        exact .bind (checkBlocks_singleEntry (block + tag.size) (some block)) fun _ _ => .pass _
termination_by h.epilog + wordSize - block
decreasing_by
  all_goals
    simp only [minBlock, wordSize] at *
    omega

/-! ## The walk over the lists -/

/-- A place in the heap where a block can be. -/
def Inside (h : Heap) (x : Nat) : Prop :=
  firstBlock ≤ x ∧ x < h.epilog ∧ x % alignment = 0

instance (h : Heap) (x : Nat) : Decidable (h.Inside x) :=
  inferInstanceAs (Decidable (_ ∧ _))

/-- Where the walk over the lists stands: on the list of `bucket` it has come over `steps` blocks,
`prev` is the last of these or else the prolog node, and `node` is what follows.  On this list and
those before it has met the blocks `listed`. -/
structure Visit where
  bucket : Nat
  prev : Nat
  node : Nat
  listed : Offsets
  steps : Nat

/-- The node is the epilog node of the list, and leads back. -/
structure Closes (h : Heap) (v : Visit) : Prop where
  tail : v.node = h.epilogNode v.bucket
  back : h.mem.pred v.node = .ok v.prev

/-- The node passes all tests before that of the blocks listed: it lies in the heap, leads back, and
is a free block of the bucket. -/
structure Passes (h : Heap) (free : Offsets) (v : Visit) : Prop where
  inside : h.Inside v.node
  back : h.mem.pred v.node = .ok v.prev
  free : free.contains v.node = true
  bucket : Bucket.ofSize <$> h.mem.blockSize v.node = .ok v.bucket

instance (h : Heap) (free : Offsets) (v : Visit) : Decidable (h.Passes free v) :=
  decidable_of_iff (h.Inside v.node ∧ h.mem.pred v.node = .ok v.prev ∧
      free.contains v.node = true ∧ Bucket.ofSize <$> h.mem.blockSize v.node = .ok v.bucket)
    ⟨fun ⟨h1, h2, h3, h4⟩ => ⟨h1, h2, h3, h4⟩, fun ⟨h1, h2, h3, h4⟩ => ⟨h1, h2, h3, h4⟩⟩

/-- The walk over the lists comes to stand at a place. -/
inductive Arrives (h : Heap) (free : Offsets) : Visit → Prop where
  /-- It begins behind the first prolog node. -/
  | start {node : Nat} (first : h.mem.succ (prologNode 0) = .ok node) :
      Arrives h free ⟨0, prologNode 0, node, ∅, 0⟩
  /-- It lists a block that passes and was not listed before, and goes on behind it. -/
  | step {v : Visit} {node : Nat} (arrives : Arrives h free v) (passes : h.Passes free v)
      (new : v.listed.contains v.node = false) (next : h.mem.succ v.node = .ok node) :
      Arrives h free ⟨v.bucket, v.node, node, v.listed.insert v.node, v.steps + 1⟩
  /-- It comes to the end of a list, and goes on with the next. -/
  | turn {v : Visit} {node : Nat} (arrives : Arrives h free v) (closes : h.Closes v)
      (more : v.bucket + 1 < Bucket.count)
      (first : h.mem.succ (prologNode (v.bucket + 1)) = .ok node) :
      Arrives h free ⟨v.bucket + 1, prologNode (v.bucket + 1), node, v.listed, 0⟩

/-- The walk ends at a place: it closes the last list, or the node is refused, though not as a
second entry. -/
inductive Stops (h : Heap) (free : Offsets) (v : Visit) : Except Violation Offsets → Prop where
  | finished (closes : h.Closes v) (last : v.bucket + 1 = Bucket.count) :
      Stops h free v (.ok v.listed)
  | refused {w : Violation} (closes : ¬ h.Closes v) (passes : ¬ h.Passes free v)
      (other : w.isSecondEntry = false) : Stops h free v (.error w)

/-- How the check of the lists goes on from a place. -/
def resume (h : Heap) (free : Offsets) (v : Visit) : Checked Offsets := do
  let listed ← h.checkList free v.bucket (free.size + 1 - v.steps) v.prev v.node v.listed
  ((List.range Bucket.count).drop (v.bucket + 1)).foldlM (h.checkBucket free) listed

/-! ## Links back -/

variable {free : Offsets} {v : Visit}

theorem Passes.predLink_eq (hp : h.Passes free v) : h.mem.predLink v.node = v.prev := by
  have hread := Memory.pred_of_le (Memory.pred_eq_ok hp.back).1
  exact Except.ok.inj (hread.symm.trans hp.back)

/-- A block listed, or the prolog node of a list walked so far. -/
def Known (v : Visit) (x : Nat) : Prop :=
  v.listed.contains x = true ∨ ∃ b ≤ v.bucket, x = prologNode b

/-- The links back from the blocks listed lead to one another and to prolog nodes, and none of them
leads to `prev`. -/
structure Rooted (h : Heap) (free : Offsets) (v : Visit) : Prop where
  bucket : v.bucket < Bucket.count
  inside : ∀ x, v.listed.contains x = true → h.Inside x
  free : ∀ x, v.listed.contains x = true → free.contains x = true
  prev : Known v v.prev
  back : ∀ x, v.listed.contains x = true → Known v (h.mem.predLink x)
  leaf : ∀ x, v.listed.contains x = true → h.mem.predLink x ≠ v.prev
  steps : v.steps ≤ v.listed.size

theorem prologNode_lt_firstBlock {b : Nat} (hb : b < Bucket.count) : prologNode b < firstBlock := by
  simp only [prologNode, firstBlock, prologEnd, overhead, nodeSize, wordSize, Bucket.count] at *
  omega

/-- A node in the heap that is not listed is not among the known ones. -/
theorem Rooted.ne_of_known (hr : h.Rooted free v) (hin : h.Inside v.node)
    (hnew : v.listed.contains v.node = false) {x : Nat} (hx : Known v x) : x ≠ v.node := by
  rintro rfl
  rcases hx with hx | ⟨b, hb, hx⟩
  · rw [hnew] at hx
    cases hx
  · have := prologNode_lt_firstBlock (Nat.lt_of_le_of_lt hb hr.bucket)
    have := hin.1
    omega

theorem Rooted.start (node : Nat) : h.Rooted free ⟨0, prologNode 0, node, ∅, 0⟩ where
  bucket := Nat.succ_pos _
  inside := by simp
  free := by simp
  prev := .inr ⟨0, Nat.le_refl _, rfl⟩
  back := by simp
  leaf := by simp
  steps := Nat.zero_le _

/-- Listing one block more keeps the links rooted: it leads back to `prev`, and nothing leads back
to it, since all that was listed leads back to nodes known before. -/
theorem Rooted.step (hr : h.Rooted free v) (hp : h.Passes free v)
    (hnew : v.listed.contains v.node = false) (node : Nat) :
    h.Rooted free ⟨v.bucket, v.node, node, v.listed.insert v.node, v.steps + 1⟩ := by
  have hlinks : ∀ x, (v.listed.insert v.node).contains x = true →
      Known v (h.mem.predLink x) := by
    intro x hx
    rcases contains_insert_iff.mp hx with rfl | hx
    · rw [hp.predLink_eq]
      exact hr.prev
    · exact hr.back x hx
  constructor
  case bucket => exact hr.bucket
  case inside =>
    intro x hx
    rcases contains_insert_iff.mp hx with rfl | hx
    · exact hp.inside
    · exact hr.inside x hx
  case free =>
    intro x hx
    rcases contains_insert_iff.mp hx with rfl | hx
    · exact hp.free
    · exact hr.free x hx
  case prev => exact .inl (contains_insert_iff.mpr (.inl rfl))
  case back =>
    intro x hx
    exact (hlinks x hx).imp_left fun hl => contains_insert_iff.mpr (.inr hl)
  case leaf =>
    intro x hx
    exact hr.ne_of_known hp.inside hnew (hlinks x hx)
  case steps =>
    have hsize : (v.listed.insert v.node).size = v.listed.size + 1 := by
      rw [Std.TreeSet.size_insert, if_neg (by simp [hnew])]
    have hsteps := hr.steps
    show v.steps + 1 ≤ (v.listed.insert v.node).size
    omega

/-- No listed block leads back to the prolog node of a list still to be walked. -/
theorem Rooted.turn (hr : h.Rooted free v) (hmore : v.bucket + 1 < Bucket.count) (node : Nat) :
    h.Rooted free ⟨v.bucket + 1, prologNode (v.bucket + 1), node, v.listed, 0⟩ := by
  constructor
  case bucket => exact hmore
  case inside => exact hr.inside
  case free => exact hr.free
  case prev => exact .inr ⟨v.bucket + 1, Nat.le_refl _, rfl⟩
  case back =>
    intro x hx
    exact (hr.back x hx).imp_right fun ⟨b, hb, he⟩ => ⟨b, Nat.le_succ_of_le hb, he⟩
  case leaf =>
    intro x hx
    rcases hr.back x hx with hl | ⟨b, hb, hl⟩
    · have := (hr.inside _ hl).1
      have := prologNode_lt_firstBlock hmore
      show h.mem.predLink x ≠ prologNode (v.bucket + 1)
      omega
    · simp only [hl, prologNode, nodeSize, wordSize]
      omega
  case steps => exact Nat.zero_le _

/-- Wherever the walk comes, the links back of what it has listed are rooted. -/
theorem Arrives.rooted (ha : h.Arrives free v) : h.Rooted free v := by
  induction ha with
  | start => exact .start _
  | step _ hp hnew _ ih => exact ih.step hp hnew _
  | turn _ _ hmore _ ih => exact ih.turn hmore _

/-- Each step lists a free block more. -/
theorem Rooted.steps_le (hr : h.Rooted free v) : v.steps ≤ free.size :=
  Nat.le_trans hr.steps (size_le_of_contains hr.free)

/-- A node that passes was not listed before. -/
theorem Rooted.new (hr : h.Rooted free v) (hp : h.Passes free v) :
    v.listed.contains v.node = false := by
  rw [← Bool.not_eq_true]
  intro hl
  exact hr.leaf v.node hl hp.predLink_eq

/-! ## What the check does at a node -/

/-- On a list that closes, the walk ends. -/
theorem Closes.checkList (hc : h.Closes v) (n : Nat) :
    h.checkList free v.bucket (n + 1) v.prev v.node v.listed = pure v.listed := by
  rw [Heap.checkList, if_pos hc.tail, hc.back, lift_ok, pure_bind_checked, if_neg (by simp)]

theorem Inside.wordSize_le {x : Nat} (hin : h.Inside x) : wordSize ≤ x :=
  Nat.le_trans (by decide) hin.1

variable (hroom : h.epilog + epilogBytes ≤ h.size)
include hroom

theorem Inside.node_le {x : Nat} (hin : h.Inside x) : x + nodeSize ≤ h.mem.size := by
  have := hin.2.1
  simp only [Heap.size, epilogBytes, nodeSize, wordSize, Bucket.count] at *
  omega

theorem Inside.pred_eq {x : Nat} (hin : h.Inside x) : h.mem.pred x = .ok (h.mem.predLink x) := by
  have := hin.node_le hroom
  exact Memory.pred_of_le (by simp only [nodeSize, wordSize] at *; omega)

theorem exists_succ_prologNode {b : Nat} (hb : b < Bucket.count) :
    ∃ node, h.mem.succ (prologNode b) = .ok node :=
  ⟨_, Memory.succ_of_le (by
    simp only [Heap.size, prologNode, epilogBytes, nodeSize, wordSize, Bucket.count] at *
    omega)⟩

/-- A node in the heap is tested for its link back, for being free, for its bucket, and then for
being new. -/
theorem checkList_inside {node : Nat} (hin : h.Inside node) :
    ∃ seen, h.mem.blockSize node = .ok seen.size ∧
      ∀ free b n prev listed, h.checkList free b (n + 1) prev node listed =
        if h.mem.predLink node ≠ prev then throw (.brokenLink b node prev (h.mem.predLink node))
        else if ¬ free.contains node then
          throw (if seen.status = some .allocated then .allocatedOnList b seen
            else .strayNode b node)
        else if Bucket.ofSize seen.size ≠ b then
          throw (.wrongBucket b (Bucket.ofSize seen.size) seen)
        else if listed.contains node then throw (.listedTwice b seen)
        else h.checkList free b n node (h.mem.succLink node) (listed.insert node) := by
  have hle := hin.node_le hroom
  have hwb := hin.wordSize_le
  obtain ⟨seen, hseen, hsize⟩ := describe_of_le hwb hle
  refine ⟨seen, ?_, fun free b n prev listed => ?_⟩
  · rw [Memory.blockSize, Memory.tagOf_of_le hwb (by omega), ok_bind, hsize]
    rfl
  · have htail : node ≠ h.epilogNode b := by
      have := hin.2.1
      simp only [epilogNode]
      omega
    have hstray : ¬ (node < firstBlock ∨ h.epilog ≤ node ∨ node % alignment ≠ 0) := by
      obtain ⟨h1, h2, h3⟩ := hin
      omega
    rw [checkList, if_neg htail, if_neg hstray, hin.pred_eq hroom, hseen, Memory.succ_of_le hle]
    simp only [lift_ok, pure_bind_checked]
    rcases seen.status with _ | _ | _ <;> rfl

/-- Where a node in the heap does not lead back, this is the verdict. -/
theorem checkList_back_ne {b n prev node : Nat} {listed : Offsets} (hin : h.Inside node)
    (hne : h.mem.predLink node ≠ prev) : h.checkList free b (n + 1) prev node listed =
      throw (.brokenLink b node prev (h.mem.predLink node)) := by
  obtain ⟨seen, -, hrun⟩ := checkList_inside hroom hin
  rw [hrun, if_pos hne]

/-- Behind a new block that passes, the walk goes on. -/
theorem Passes.checkList (hp : h.Passes free v) (hnew : v.listed.contains v.node = false)
    (n : Nat) : h.checkList free v.bucket (n + 1) v.prev v.node v.listed =
      h.checkList free v.bucket n v.node (h.mem.succLink v.node) (v.listed.insert v.node) := by
  obtain ⟨seen, hseen, hrun⟩ := checkList_inside hroom hp.inside
  have hbucket := hp.bucket
  rw [hseen] at hbucket
  have hbucket : Bucket.ofSize seen.size = v.bucket := Except.ok.inj hbucket
  rw [hrun, if_neg (by simp [hp.predLink_eq]), if_neg (by simp [hp.free]),
    if_neg (by simp [hbucket]), if_neg (by simp [hnew])]

/-- A node that does not pass and does not close the list is refused before it is looked up. -/
theorem checkList_refused (hb : v.bucket < Bucket.count) (hc : ¬ h.Closes v)
    (hp : ¬ h.Passes free v) (n : Nat) :
    ∃ w, h.checkList free v.bucket (n + 1) v.prev v.node v.listed = throw w ∧
      w.isSecondEntry = false := by
  by_cases hin : h.Inside v.node
  · obtain ⟨seen, hseen, hrun⟩ := checkList_inside hroom hin
    rw [hrun]
    by_cases hback : h.mem.predLink v.node ≠ v.prev
    · exact ⟨_, if_pos hback, rfl⟩
    rw [if_neg hback]
    by_cases hfree : ¬ free.contains v.node
    · refine ⟨_, if_pos hfree, ?_⟩
      split <;> rfl
    rw [if_neg hfree]
    by_cases hbucket : Bucket.ofSize seen.size ≠ v.bucket
    · exact ⟨_, if_pos hbucket, rfl⟩
    refine absurd ⟨hin, ?_, by simpa using hfree, ?_⟩ hp
    · rw [hin.pred_eq hroom, not_not.mp hback]
    · rw [hseen]
      exact congrArg Except.ok (not_not.mp hbucket)
  · rw [checkList]
    by_cases htail : v.node = h.epilogNode v.bucket
    · have hlast : v.node + wordSize ≤ h.mem.size := by
        simp only [htail, Heap.size, epilogNode, epilogBytes, nodeSize, wordSize,
          Bucket.count] at *
        omega
      have hpred := Memory.pred_of_le hlast
      have hback : h.mem.predLink v.node ≠ v.prev :=
        fun he => hc ⟨htail, hpred.trans (congrArg _ he)⟩
      rw [if_pos htail, hpred, lift_ok, pure_bind_checked, if_pos hback]
      exact ⟨_, rfl, rfl⟩
    · have hstray : v.node < firstBlock ∨ h.epilog ≤ v.node ∨ v.node % alignment ≠ 0 := by
        unfold Inside at hin
        omega
      rw [if_neg htail, if_pos hstray]
      exact ⟨_, rfl, rfl⟩

omit hroom

/-! ## The course of the walk -/

/-- The bound on the walk over a list is not used up. -/
theorem Rooted.resume_eq (hr : h.Rooted free v) : h.resume free v =
    h.checkList free v.bucket (free.size - v.steps + 1) v.prev v.node v.listed >>=
      ((List.range Bucket.count).drop (v.bucket + 1)).foldlM (h.checkBucket free) := by
  have hle := hr.steps_le
  have hn : free.size + 1 - v.steps = free.size - v.steps + 1 := by omega
  rw [resume, hn]

/-- From a list on, the check of the lists goes on behind its prolog node. -/
theorem foldlM_eq_resume {b node : Nat} (hb : b < Bucket.count)
    (hfirst : h.mem.succ (prologNode b) = .ok node) (listed : Offsets) :
    ((List.range Bucket.count).drop b).foldlM (h.checkBucket free) listed =
      h.resume free ⟨b, prologNode b, node, listed, 0⟩ := by
  rw [List.drop_eq_getElem_cons (by simpa using hb), List.foldlM_cons, List.getElem_range,
    checkBucket, hfirst]
  rfl

theorem Rooted.resume_turn (hr : h.Rooted free v) (hc : h.Closes v) {node : Nat}
    (hmore : v.bucket + 1 < Bucket.count)
    (hfirst : h.mem.succ (prologNode (v.bucket + 1)) = .ok node) : h.resume free v =
      h.resume free ⟨v.bucket + 1, prologNode (v.bucket + 1), node, v.listed, 0⟩ := by
  rw [hr.resume_eq, hc.checkList, pure_bind_checked, foldlM_eq_resume hmore hfirst]

include hroom

theorem Rooted.resume_step (hr : h.Rooted free v) (hp : h.Passes free v) {node : Nat}
    (hnext : h.mem.succ v.node = .ok node) : h.resume free v =
      h.resume free ⟨v.bucket, v.node, node, v.listed.insert v.node, v.steps + 1⟩ := by
  have hnode := Memory.succ_of_le (hp.inside.node_le hroom)
  obtain rfl : h.mem.succLink v.node = node := Except.ok.inj (hnode.symm.trans hnext)
  have hn : free.size + 1 - (v.steps + 1) = free.size - v.steps := by omega
  rw [hr.resume_eq, hp.checkList hroom (hr.new hp), resume, hn]

/-- Wherever the walk comes, it is the check of the lists that goes on from there. -/
theorem Arrives.checkLists_eq (ha : h.Arrives free v) : h.checkLists free = h.resume free v := by
  induction ha with
  | start hfirst => exact foldlM_eq_resume (by decide) hfirst ∅
  | step ha hp _ hnext ih => exact ih.trans (ha.rooted.resume_step hroom hp hnext)
  | turn ha hc hmore hfirst ih => exact ih.trans (ha.rooted.resume_turn hc hmore hfirst)

/-- The walk ends: on a list each step lists a free block more, and there is an end to the lists. -/
theorem Arrives.exists_stop {v : Visit} (ha : h.Arrives free v) :
    ∃ w verdict, h.Arrives free w ∧ h.Stops free w verdict ∧
      (h.resume free v).run = .ok verdict := by
  have hr := ha.rooted
  by_cases hp : h.Passes free v
  · have hnext := Memory.succ_of_le (hp.inside.node_le hroom)
    have hstep := ha.step hp (hr.new hp) hnext
    have hle : v.steps + 1 ≤ free.size := hstep.rooted.steps_le
    rw [hr.resume_step hroom hp hnext]
    exact hstep.exists_stop
  by_cases hc : h.Closes v
  · by_cases hmore : v.bucket + 1 < Bucket.count
    · obtain ⟨node, hfirst⟩ := exists_succ_prologNode hroom hmore
      rw [hr.resume_turn hc hmore hfirst]
      exact (ha.turn hc hmore hfirst).exists_stop
    · have hlast : v.bucket + 1 = Bucket.count := Nat.le_antisymm hr.bucket (Nat.not_lt.mp hmore)
      refine ⟨v, _, ha, .finished hc hlast, ?_⟩
      rw [hr.resume_eq, hc.checkList, pure_bind_checked,
        List.drop_eq_nil_of_le (by simpa using Nat.not_lt.mp hmore)]
      rfl
  · obtain ⟨w, hrun, hother⟩ := checkList_refused hroom hr.bucket hc hp (free.size - v.steps)
    refine ⟨v, .error w, ha, .refused hc hp hother, ?_⟩
    rw [hr.resume_eq, hrun]
    rfl
termination_by (Bucket.count - v.bucket, free.size - v.steps)

/-- The check of the lists ends, where the walk stops. -/
theorem checkLists_stops (free : Offsets) : ∃ v verdict, h.Arrives free v ∧
    h.Stops free v verdict ∧ (h.checkLists free).run = .ok verdict := by
  obtain ⟨node, hfirst⟩ := exists_succ_prologNode hroom (b := 0) (by decide)
  have hstart : h.Arrives free ⟨0, prologNode 0, node, ∅, 0⟩ := .start hfirst
  rw [hstart.checkLists_eq hroom]
  exact hstart.exists_stop hroom

theorem checkLists_singleEntry (free : Offsets) : SingleEntry (h.checkLists free) := by
  intro w hrun
  obtain ⟨v, verdict, -, hstops, hverdict⟩ := checkLists_stops hroom free
  have hrun : (h.checkLists free).run = .ok (.error w) := hrun
  obtain rfl := Except.ok.inj (hverdict.symm.trans hrun)
  cases hstops with
  | refused _ _ hother => exact hother

/-- The check does not end for a second entry. -/
theorem checkAll_singleEntry : SingleEntry h.checkAll := by
  refine .bind (checkBlocks_singleEntry firstBlock none) fun free _ => ?_
  refine .bind (checkLists_singleEntry hroom _) fun listed _ => ?_
  split
  · exact .fail_with _ fun _ => rfl
  · exact .pass _

/-- Whatever the bytes of the heap, no node is looked up a second time in the set of the blocks
listed.  The walk over the lists ends, and on each it makes at most as many steps as there are free
blocks.  Where it comes to a node that it has met, on this list or on one before, the verdict is
that this node does not lead back to where the walk comes from. -/
theorem revisits_refused :
    (∀ b seen, h.check ≠ .ok (.error (.listedTwice b seen))) ∧
    ∀ free, h.checkBlocks firstBlock none = pure free →
      (∃ v verdict, h.Arrives (.ofList free) v ∧ h.Stops (.ofList free) v verdict ∧
        (h.checkLists (.ofList free)).run = .ok verdict) ∧
      ∀ v, h.Arrives (.ofList free) v →
        h.checkLists (.ofList free) = h.resume (.ofList free) v ∧
        v.steps ≤ free.length ∧
        (h.Passes (.ofList free) v → v.listed.contains v.node = false) ∧
        (v.listed.contains v.node = true → ∃ found, h.mem.pred v.node = .ok found ∧
          found ≠ v.prev ∧
          h.check = .ok (.error (.brokenLink v.bucket v.node v.prev found))) := by
  constructor
  · intro b seen hcheck
    cases checkAll_singleEntry hroom (.listedTwice b seen) hcheck
  intro free hfree
  refine ⟨checkLists_stops hroom _, ?_⟩
  intro v ha
  have hr := ha.rooted
  have hresume := ha.checkLists_eq hroom
  refine ⟨hresume, Nat.le_trans hr.steps_le Std.TreeSet.size_ofList_le, hr.new, ?_⟩
  intro hl
  have hin := hr.inside v.node hl
  have hne := hr.leaf v.node hl
  refine ⟨_, hin.pred_eq hroom, hne, ?_⟩
  show h.checkAll = throw _
  rw [checkAll, hfree, pure_bind_checked, hresume, hr.resume_eq, checkList_back_ne hroom hin hne]
  rfl

omit hroom

/-- After two steps the walk over the list that goes round stands at its first node again. -/
theorem revisits_refused_cyclic :
    cyclic.epilog + epilogBytes ≤ cyclic.size ∧
      cyclic.checkBlocks firstBlock none = pure [112, 152] ∧
      ∃ v, cyclic.Arrives (.ofList [112, 152]) v ∧ v.listed.contains v.node = true ∧
        v.steps ≤ 2 ∧ ¬ cyclic.Passes (.ofList [112, 152]) v ∧
        ∃ found, cyclic.check = .ok (.error (.brokenLink v.bucket v.node v.prev found)) := by
  have hroom : cyclic.epilog + epilogBytes ≤ cyclic.size := by decide +kernel
  have hfree : (cyclic.checkBlocks firstBlock none).run = .ok (.ok [112, 152]) := by
    decide +kernel
  have hfirst : cyclic.Arrives (.ofList [112, 152]) ⟨0, prologNode 0, 152, ∅, 0⟩ :=
    .start (by decide +kernel)
  have hsecond : cyclic.Arrives (.ofList [112, 152]) ⟨0, 152, 112, (∅ : Offsets).insert 152, 1⟩ :=
    hfirst.step (by decide +kernel) (by decide) (by decide +kernel)
  have hthird : cyclic.Arrives (.ofList [112, 152])
      ⟨0, 112, 152, ((∅ : Offsets).insert 152).insert 112, 2⟩ :=
    hsecond.step (by decide +kernel) (by decide) (by decide +kernel)
  obtain ⟨-, hwalk⟩ := revisits_refused hroom
  obtain ⟨-, hsteps, hnew, hback⟩ := (hwalk _ hfree).2 _ hthird
  obtain ⟨found, -, -, hverdict⟩ := hback (by decide)
  exact ⟨hroom, hfree, _, hthird, by decide, hsteps, fun hp => absurd (hnew hp) (by decide),
    found, hverdict⟩

end Heap

end SegFit
