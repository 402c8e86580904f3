/-
  What giving a block back does to a sound heap.  The block and those of its two neighbours
  that are free become one free block at the front of its bucket's list (`Sound.release`).
  The four cases of the merge are one here: an absent neighbour is an empty stretch.
-/
import SegFit.Proofs.Carving
import SegFit.Proofs.Neighbours

namespace SegFit

namespace Heap

variable {h : Heap} {cs pre post : List TaggedBlock} {prev next : Option TaggedBlock}
  {ls : Nat → List Nat} {b : TaggedBlock}

/-- Which neighbours there are to merge with. -/
def mergeOf : Option TaggedBlock → Option TaggedBlock → Merge
  | none, none => .none
  | none, some _ => .next
  | some _, none => .prev
  | some _, some _ => .both

/-- The free block that `b` becomes with its free neighbours. -/
def merged (prev : Option TaggedBlock) (b : TaggedBlock) (next : Option TaggedBlock) :
    TaggedBlock :=
  ((prev.map Prod.fst).getD b.1,
    ⟨(prev.map fun c => c.2.size).getD 0 + b.2.size + (next.map fun c => c.2.size).getD 0, .free⟩)

/-- The merged block fills what its parts filled. -/
theorem tiles_merged {start stop : Nat}
    (ht : Tiles start (prev.toList ++ b :: next.toList) stop) :
    Tiles start [merged prev b next] stop := by
  obtain ⟨hp, hl, hn⟩ := tiles_around.mp ht
  rw [tiles_singleton]
  have hstart : (merged prev b next).1 = start ∧
      start + (prev.map fun c => c.2.size).getD 0 = b.1 := by
    cases prev with
    | none =>
      obtain rfl : start = b.1 := hp
      exact ⟨rfl, rfl⟩
    | some c => exact ⟨hp.1, hp.2.2⟩
  have hstop : b.1 + b.2.size + (next.map fun c => c.2.size).getD 0 = stop := by
    cases next with
    | none => exact hn
    | some c => exact hn.2.2
  refine ⟨hstart.1, ?_, ?_⟩
  · show minBlock ≤ (prev.map fun c => c.2.size).getD 0 + b.2.size + _
    omega
  · show start + ((prev.map fun c => c.2.size).getD 0 + b.2.size + _) = stop
    omega

theorem unlink_of_removeAny {x : Nat} {h' : Heap} (hr : h.removeAny (some x) = .ok h') :
    h.mem.unlink x = .ok h'.mem := by
  rw [removeAny, remove] at hr
  cases hu : h.mem.unlink x with
  | error e =>
    rw [hu] at hr
    cases hr
  | ok m =>
    rw [hu] at hr
    obtain rfl := Except.ok.inj hr
    rfl

theorem eq_of_removeAny_none {h' : Heap} (hr : h.removeAny none = .ok h') : h = h' :=
  Except.ok.inj hr

/-- Merging takes the free neighbours off their lists, the one before first. -/
theorem mergeFree_eq {start stop : Nat} {h₁ h₂ : Heap}
    (ht : Tiles start (prev.toList ++ b :: next.toList) stop)
    (h1 : h.removeAny (prev.map Prod.fst) = .ok h₁)
    (h2 : h₁.removeAny (next.map Prod.fst) = .ok h₂) :
    h.mem.mergeFree b.1 b.2.size (prev.map Prod.snd) (next.map Prod.snd) =
      .ok (((merged prev b next).1, (merged prev b next).2.size, mergeOf prev next), h₂.mem) := by
  obtain ⟨hp, hl, hn⟩ := tiles_around.mp ht
  have hprev : ∀ p, prev = some p → difference b.1 p.2.size = .ok p.1 := by
    rintro p rfl
    obtain ⟨h3, -, h4⟩ := hp
    have h4 : start + p.2.size = b.1 := h4
    rw [difference_of_le (by omega), show b.1 - p.2.size = p.1 by omega]
  have hnext : ∀ n, next = some n → b.1 + b.2.size = n.1 := by
    rintro n rfl
    exact hn.1.symm
  cases prev with
  | none =>
    obtain rfl := eq_of_removeAny_none h1
    cases next with
    | none =>
      obtain rfl := eq_of_removeAny_none h2
      simp only [Option.map_none, Memory.mergeFree, merged, mergeOf, Option.getD_none, Nat.zero_add,
        Nat.add_zero]
      rfl
    | some n =>
      simp only [Option.map_none, Option.map_some, Memory.mergeFree, merged, mergeOf,
        Option.getD_none, Option.getD_some, Nat.zero_add]
      rw [hnext n rfl, unlink_of_removeAny h2, ok_bind]
      rfl
  | some p =>
    cases next with
    | none =>
      obtain rfl := eq_of_removeAny_none h2
      simp only [Option.map_none, Option.map_some, Memory.mergeFree, merged, mergeOf,
        Option.getD_none, Option.getD_some, Nat.add_zero]
      rw [hprev p rfl, ok_bind, unlink_of_removeAny h1, ok_bind, Nat.add_comm]
      rfl
    | some n =>
      simp only [Option.map_some, Memory.mergeFree, merged, mergeOf, Option.getD_some]
      rw [hprev p rfl, ok_bind, unlink_of_removeAny h1, ok_bind, hnext n rfl,
        unlink_of_removeAny h2, ok_bind, show b.2.size + (p.2.size + n.2.size) =
          p.2.size + b.2.size + n.2.size by omega]
      rfl

/-- The blocks around `b` when it has been marked as free. -/
def marked (pre : List TaggedBlock) (prev : Option TaggedBlock) (b : TaggedBlock)
    (next : Option TaggedBlock) (post : List TaggedBlock) : List TaggedBlock :=
  pre ++ (prev.toList ++ (b.1, ⟨b.2.size, .free⟩) :: next.toList) ++ post

/-- Marking an allocated block as free; the words around it then tell its free neighbours. -/
theorem Sound.markFree (hs : h.Sound cs ls) (ha : Around cs pre prev b next post)
    (hb : b.2.status = .allocated) :
    ∃ m t u, h.mem.setTags b.1 b.2.size .free = .ok m ∧
      Consistent ⟨m, h.epilog⟩ (marked pre prev b next post) ls ∧
      (h.Exact cs → Exact ⟨m, h.epilog⟩ (marked pre prev b next post)) ∧
      h.mem.ChangesOnly m (Memory.TagByte b) ∧
      m.tagBefore b.1 = .ok t ∧ Memory.freeTag t = prev.map Prod.snd ∧
      m.tagOf (b.1 + b.2.size) = .ok u ∧ Memory.freeTag u = next.map Prod.snd := by
  have hk := hs.consistent
  have hmem : b ∈ cs := by simp [ha.blocks]
  have hbb := hk.chain.bounds hmem
  have hroom := hk.room
  have hcs : cs = (pre ++ prev.toList) ++ b :: (next.toList ++ post) := by simp [ha.blocks]
  obtain ⟨hleft, hlarge, hright⟩ := tiles_around.mp (hcs ▸ hk.chain.tiles)
  have hnot : ∀ c < Bucket.count, b.1 ∉ ls c := fun c hc => hk.not_mem_of_allocated hmem hb hc
  have hcs' : cs = (pre ++ prev.toList) ++ [b] ++ (next.toList ++ post) := by simp [hcs]
  obtain ⟨m, hm, hk', he, hc⟩ := (hcs' ▸ hk : h.Consistent _ ls).retag .free hleft
    (tiles_singleton.mpr ⟨rfl, hlarge, rfl⟩) hright
    (fun c hc => List.mem_singleton.mp hc ▸ hnot) hlarge
  have hms : m.size = h.mem.size := hc.size
  have heq : marked pre prev b next post =
      (pre ++ prev.toList) ++ [(b.1, ⟨b.2.size, .free⟩)] ++ (next.toList ++ post) := by
    simp [marked]
  have hk'' : Consistent ⟨m, h.epilog⟩
      ((pre ++ prev.toList) ++ (b.1, ⟨b.2.size, .free⟩) :: (next.toList ++ post)) ls := by
    simpa using hk'
  have hguard : m.word prologEnd = h.mem.word prologEnd := hc.word fun j hj hs' =>
    hs.chain.not_structByte_guard hj (.inr (.inr ⟨b, hmem, .inl hs'⟩))
  have hprev := Chain.freeTag_before hk''.chain hleft (hguard ▸ hs.guard)
  rw [freeTag_getLast ha.prev ha.before] at hprev
  refine ⟨m, _, _, hm, heq ▸ hk', heq ▸ fun hx => he (hcs' ▸ hx), hc,
    Memory.tagBefore_of_le ?_ ?_, hprev, hk''.tagOf_next, freeTag_head ha.next ha.after⟩
  · simp only [firstBlock, overhead] at *
    omega
  · simp only [Heap.size, epilogBytes, minBlock] at *
    omega

/-- Merging takes the free neighbours off their lists; no part of the merged block is listed
then. -/
theorem Consistent.mergeFree (hk : h.Consistent (marked pre prev b next post) ls)
    (hprev : Complete prev.toList ls) (hnext : Complete next.toList ls)
    (ha : Around cs pre prev b next post) (hb : ∀ k < Bucket.count, b.1 ∉ ls k) :
    ∃ m, h.mem.mergeFree b.1 b.2.size (prev.map Prod.snd) (next.map Prod.snd) =
        .ok (((merged prev b next).1, (merged prev b next).2.size, mergeOf prev next), m) ∧
      Consistent ⟨m, h.epilog⟩ (marked pre prev b next post)
        (dropAny (dropAny ls (prev.map Prod.fst)) (next.map Prod.fst)) ∧
      (h.Exact (marked pre prev b next post) →
        Exact ⟨m, h.epilog⟩ (marked pre prev b next post)) ∧
      h.mem.ChangesOnly m (h.LinkByte ls) ∧ (∀ j, m.OddAt j → h.mem.OddAt j) ∧
      ∀ c ∈ prev.toList ++ (b.1, ⟨b.2.size, .free⟩) :: next.toList, ∀ k < Bucket.count,
        c.1 ∉ dropAny (dropAny ls (prev.map Prod.fst)) (next.map Prod.fst) k := by
  obtain ⟨start, stop, -, hmid, -⟩ := tiles_stretches.mp hk.chain.tiles
  obtain ⟨htp, hl, htn⟩ := tiles_around.mp hmid
  have hapart : ∀ c ∈ next.toList, prev.map Prod.fst ≠ some c.1 := by
    intro c hc he
    obtain ⟨d, hd, hdc⟩ := Option.map_eq_some_iff.mp he
    have h1 := htp.bounds (b := d) (by simp [hd])
    have h2 := htn.bounds hc
    simp only [minBlock] at *
    omega
  have hlisted : ∀ {o : Option TaggedBlock} {l}, (∀ c ∈ o, c.2.isFree) → Complete o.toList l →
      ∀ x ∈ o.map Prod.fst, ∃ k < Bucket.count, x ∈ l k := by
    intro o l hf hc x hx
    obtain ⟨c, rfl, rfl⟩ := Option.map_eq_some_iff.mp hx
    exact ⟨_, Bucket.ofSize_lt _, hc c (by simp) (hf c rfl)⟩
  obtain ⟨m₁, hm₁, hk₁, he₁, hc₁, ho₁⟩ := hk.removeAny (hlisted ha.prev hprev)
  obtain ⟨m₂, hm₂, hk₂, he₂, hc₂, ho₂⟩ := hk₁.removeAny (hlisted ha.next (hnext.dropAny hapart))
  refine ⟨m₂, mergeFree_eq (b := b) (tiles_around.mpr ⟨htp, hl, htn⟩) hm₁ hm₂, hk₂,
    fun he => he₂ (he₁ he), hc₁.trans (hc₂.mono fun j hj => ?_),
    fun j ho => ho₁ j (ho₂ j ho), fun c hc k hkk hx => ?_⟩
  · exact hj.of_subset fun _ _ => mem_of_mem_dropAny
  · have hx' := mem_of_mem_dropAny hx
    rcases List.mem_append.mp hc with hc | hc
    · rw [Option.mem_toList.mp hc] at hx'
      exact not_mem_dropAny (hk.nodup k hkk) hx'
    · rcases List.mem_cons.mp hc with rfl | hc
      · exact hb k hkk (mem_of_mem_dropAny hx')
      · rw [Option.mem_toList.mp hc] at hx
        exact not_mem_dropAny (hk₁.nodup k hkk) hx

/-- The lists after a release: without the neighbours taken in, and with the merged block. -/
def releasedLists (ls : Nat → List Nat) (prev : Option TaggedBlock) (b : TaggedBlock)
    (next : Option TaggedBlock) : Nat → List Nat :=
  pushNode (dropAny (dropAny ls (prev.map Prod.fst)) (next.map Prod.fst))
    (Bucket.ofSize (merged prev b next).2.size) (merged prev b next).1

/-- The merged block keeps the blocks separated, since its neighbours are in use. -/
theorem Around.separated_merged (ha : Around cs pre prev b next post) (hs : Separated cs) :
    Separated (pre ++ [merged prev b next] ++ post) := by
  obtain ⟨hfront, hback, -⟩ := separated_append.mp (ha.blocks ▸ hs)
  have hpre := (separated_append.mp hfront).1
  refine separated_append.mpr ⟨separated_append.mpr ⟨hpre, trivial, ?_⟩, hback, ?_⟩
  · exact fun c hc d _ hf => ha.before c hc hf.1
  · exact fun c _ d hd hf => ha.after d hd hf.2

/-- The blocks around begin elsewhere. -/
theorem Around.offset_ne (ha : Around cs pre prev b next post) {start stop : Nat}
    (ht : Tiles start cs stop) {c d : TaggedBlock} (hc : c ∈ pre ++ post)
    (hd : d ∈ prev.toList ++ b :: next.toList) : c.1 ≠ d.1 := by
  obtain ⟨first, last, hpre, hmid, hpost⟩ := tiles_stretches.mp (ha.blocks ▸ ht)
  have h1 := hmid.bounds hd
  have h2 := hpre.outside hmid.le hpost hc
  simp only [minBlock] at *
  omega

/-- Every free block is listed again after a release. -/
theorem Around.complete_released (ha : Around cs pre prev b next post) (hc : Complete cs ls)
    {stop : Nat} (ht : Tiles firstBlock cs stop) :
    Complete (pre ++ [merged prev b next] ++ post) (releasedLists ls prev b next) := by
  have hrest : Complete (pre ++ post) ls := hc.subset fun c hc => by
    rcases List.mem_append.mp hc with hc | hc <;> simp [ha.blocks, hc]
  have hrest := (hrest.dropAny (x := prev.map Prod.fst) fun c hc he => by
    obtain ⟨d, rfl, hd⟩ := Option.map_eq_some_iff.mp he
    exact ha.offset_ne ht hc (by simp) hd.symm).dropAny (x := next.map Prod.fst)
      fun c hc he => by
        obtain ⟨d, rfl, hd⟩ := Option.map_eq_some_iff.mp he
        exact ha.offset_ne ht hc (by simp) hd.symm
  refine hrest.pushNode fun c hc => ?_
  simp only [List.mem_append, List.mem_singleton] at hc ⊢
  rcases hc with (hc | hc) | hc
  · exact .inl (.inl hc)
  · exact .inr hc
  · exact .inl (.inr hc)

/-- The merged block begins where one of its parts does. -/
theorem exists_merged_start (prev : Option TaggedBlock) (b : TaggedBlock)
    (next : Option TaggedBlock) :
    ∃ c ∈ prev.toList ++ (b.1, ⟨b.2.size, .free⟩) :: next.toList,
      c.1 = (merged prev b next).1 := by
  cases prev with
  | none => exact ⟨(b.1, ⟨b.2.size, .free⟩), by simp, rfl⟩
  | some p => exact ⟨p, by simp, rfl⟩

/-- The merged block tagged and put on its list. -/
theorem Consistent.listMerged (hk : h.Consistent (marked pre prev b next post) ls)
    (hfree : ∀ c ∈ prev.toList ++ (b.1, ⟨b.2.size, .free⟩) :: next.toList, ∀ k < Bucket.count,
      c.1 ∉ ls k) :
    ∃ m n, h.mem.setTags (merged prev b next).1 (merged prev b next).2.size .free = .ok m ∧
      m.pushFree (merged prev b next).1 (merged prev b next).2.size = .ok n ∧
      Consistent ⟨n, h.epilog⟩ (pre ++ [merged prev b next] ++ post)
        (pushNode ls (Bucket.ofSize (merged prev b next).2.size) (merged prev b next).1) ∧
      (h.Exact (marked pre prev b next post) →
        Exact ⟨n, h.epilog⟩ (pre ++ [merged prev b next] ++ post)) ∧
      h.mem.ChangesOnly n (h.StructByte (pre ++ [merged prev b next] ++ post)) := by
  obtain ⟨start, stop, hpre, hmid, hpost⟩ := tiles_stretches.mp hk.chain.tiles
  have hparts := tiles_around.mp hmid
  obtain ⟨hstart, hlarge, hstop⟩ := tiles_merged (b := b) (tiles_around.mpr hparts)
  subst hstart
  subst hstop
  obtain ⟨m, hm, hk₁, he₁, hc₁⟩ := hk.retag .free hpre hmid hpost hfree hlarge
  obtain ⟨c, hcm, hhead⟩ := exists_merged_start prev b next
  have hmerged : ((merged prev b next).1, (merged prev b next).2) ∈
      pre ++ [((merged prev b next).1, ⟨(merged prev b next).2.size, .free⟩)] ++ post :=
    List.mem_append_left _ (List.mem_append_right _ (List.mem_singleton_self _))
  obtain ⟨n, hn, hk₂, he₂, hc₂⟩ := hk₁.pushFree hmerged rfl
    (fun k hkk => hhead ▸ hfree c hcm k hkk)
  refine ⟨m, n, hm, hn, hk₂, fun he => he₂ (he₁ he),
    (hc₁.mono fun j hj => .inr (.inr ⟨merged prev b next, by simp, .inl hj⟩)).trans
      (hc₂.mono fun j hj => Heap.structByte_of_linkByte hk₂.listed hj)⟩

/-- Releasing an allocated block merges it with its free neighbours and lists the result. -/
theorem Sound.release (hs : h.Sound cs ls) (ha : Around cs pre prev b next post)
    (hb : b.2.status = .allocated) :
    ∃ h', h.release b.1 = .ok (⟨b.2.size, (merged prev b next).1, (merged prev b next).2.size,
        mergeOf prev next⟩, h') ∧
      h.Becomes cs h' (pre ++ [merged prev b next] ++ post) (releasedLists ls prev b next) ∧
      h'.epilog = h.epilog ∧
      ∀ j, ¬ h'.StructByte (pre ++ [merged prev b next] ++ post) j → h'.mem.OddAt j →
        b.1 ≠ j + wordSize := by
  have hmem : b ∈ cs := by simp [ha.blocks]
  have hprev : ∀ c ∈ prev.toList, c ∈ cs := fun c hc => by
    simp only [ha.blocks, List.mem_append]
    exact .inl (.inr (.inl hc))
  have hnext : ∀ c ∈ next.toList, c ∈ cs := fun c hc => by
    simp only [ha.blocks, List.mem_append, List.mem_cons]
    exact .inl (.inr (.inr (.inr hc)))
  obtain ⟨m₁, t, u, hm₁, hk₁, he₁, hc₁, ht, hft, hu, hfu⟩ := hs.markFree ha hb
  obtain ⟨m₂, hm₂, hk₂, he₂, hc₂, ho₂, hfree⟩ := hk₁.mergeFree (hs.complete.subset hprev)
    (hs.complete.subset hnext) ha
    fun k hkk => hs.consistent.not_mem_of_allocated hmem hb hkk
  obtain ⟨m₃, m₄, hm₃, hm₄, hk₄, he₄, hc₄⟩ := hk₂.listMerged hfree
  have hrun : h.mem.release b.1 = .ok (⟨b.2.size, (merged prev b next).1,
      (merged prev b next).2.size, mergeOf prev next⟩, m₄) := by
    unfold Memory.release
    rw [hs.consistent.blockSize hmem, ok_bind, hm₁, ok_bind, ht, ok_bind, hu,
      ok_bind, hft, hfu, hm₂, ok_bind]
    show (m₂.setTags _ _ _ >>= fun m => _) = _
    rw [hm₃, ok_bind]
    show (m₃.pushFree _ _ >>= fun m => _) = _
    rw [hm₄]
    rfl
  have hbb := hs.chain.bounds hmem
  -- The header was marked free before anything was merged, and is even since.
  have hclean : ∀ j, ¬ StructByte ⟨m₄, h.epilog⟩ (pre ++ [merged prev b next] ++ post) j →
      m₄.OddAt j → ¬ Memory.TagByte b j := by
    intro j hj' ho hj
    have ho₁ : m₁.OddAt j := ho₂ j (ho.congr (hc₄.byte j hj').symm)
    have hmark := hk₁.chain.marked (b := (b.1, ⟨b.2.size, .free⟩)) (by simp [marked])
    cases (hmark.of_odd (hs.chain.aligned.1 b hmem) (by
      simp only [firstBlock, overhead, wordSize] at *
      omega) hj ho₁).1
  refine ⟨⟨m₄, h.epilog⟩, ?_, hs.becomes hk₄ ?_ (ha.separated_merged hs.shape.separated)
    (ha.complete_released hs.complete hs.chain.tiles) (fun he => he₄ (he₂ (he₁ he)))
    (fun j hj hj' => ?_) (fun j hj' ho => ?_), rfl, fun j hj' ho he => hclean j hj' ho ?_⟩
  · unfold Heap.release
    rw [hrun]
    rfl
  · exact hs.span.trans (hc₄.size.trans (hc₂.size.trans hc₁.size)).symm
  · have h1 : m₁.byte j = h.mem.byte j := hc₁.byte j fun hl => hj (.inr (.inr ⟨b, hmem, .inl hl⟩))
    have h2 : m₂.byte j = m₁.byte j :=
      hc₂.byte j fun hl => hj (Heap.structByte_of_linkByte hs.shape.listed hl)
    exact (hc₄.byte j hj').trans (h2.trans h1)
  · have ho₁ : m₁.OddAt j := ho₂ j (ho.congr (hc₄.byte j hj').symm)
    exact ho₁.congr (hc₁.byte j (hclean j hj' ho)).symm
  · refine .inl ?_
    simp only [InWord, wordSize] at *
    omega

end Heap

end SegFit
