/-
  What changing a size does to a sound heap.  The room of a block is the block itself and its
  free successor.  A size that fits in it is carved out of it (`Sound.resize_inPlace`); at the
  end of the heap the room is stretched (`Sound.resize_grown`), or growth is refused and
  nothing has changed (`Sound.resize_refused`), as when the block has to move
  (`Sound.resize_mustMove`).
-/
import SegFit.Heap.Resize
import SegFit.Proofs.Acquiring

namespace SegFit

namespace Heap

variable {h : Heap} {cs pre back post : List TaggedBlock} {next : Option TaggedBlock}
  {ls : Nat → List Nat} {b : TaggedBlock} {limit size : Nat}

/-- The bytes of a block and of its free successor. -/
def roomSize (b : TaggedBlock) (next : Option TaggedBlock) : Nat :=
  b.2.size + (next.map fun c => c.2.size).getD 0

/-- The blocks `cs` from the block `b` on: its free successor `next`, if it has one, and the rest,
the first of which is in use. -/
structure Before (cs pre : List TaggedBlock) (b : TaggedBlock) (next : Option TaggedBlock)
    (post : List TaggedBlock) : Prop where
  blocks : cs = pre ++ b :: (next.toList ++ post)
  free : ∀ c ∈ next, c.2.isFree
  after : ∀ c ∈ post.head?, ¬ c.2.isFree

theorem Around.before_next {prev : Option TaggedBlock} (ha : Around cs pre prev b next post) :
    Before cs (pre ++ prev.toList) b next post :=
  ⟨by simp [ha.blocks], ha.next, ha.after⟩

/-- The heap sees the room of a block. -/
theorem Sound.room (hs : h.Sound cs ls) (hn : Before cs pre b next post) :
    h.mem.room b.1 b.2.size = .ok ⟨next.map Prod.fst, roomSize b next, post.isEmpty⟩ := by
  have hk := hs.consistent
  have hafter := (hn.blocks ▸ hk : h.Consistent (pre ++ b :: (next.toList ++ post)) ls).tagOf_next
  unfold Memory.room
  rw [hafter, ok_bind]
  cases next with
  | none =>
    cases post with
    | nil => rfl
    | cons c post =>
      show (if c.2.isFree = true then _ else _) = _
      rw [if_neg (hn.after c rfl)]
      rfl
  | some c =>
    have hcs : cs = (pre ++ [b]) ++ c :: post := by simp [hn.blocks]
    have hrest := (hcs ▸ hk : h.Consistent ((pre ++ [b]) ++ c :: post) ls).tagOf_next
    have hc : b.1 + b.2.size = c.1 := by
      obtain ⟨-, -, ht⟩ := tiles_around.mp (hn.blocks ▸ hk.chain.tiles)
      exact ht.1.symm
    show (if c.2.isFree = true then _ else _) = _
    rw [if_pos (hn.free c rfl), hc, hrest, ok_bind]
    cases post <;> rfl

/-- The room of a block as a region. -/
theorem Before.tiles (hn : Before cs pre b next post) (hc : h.Chain firstBlock cs) :
    Tiles firstBlock pre b.1 ∧ Tiles b.1 (b :: next.toList) (b.1 + roomSize b next) ∧
      Tiles (b.1 + roomSize b next) post (h.epilog + wordSize) := by
  obtain ⟨hpre, hl, ht⟩ := tiles_around.mp (hn.blocks ▸ hc.tiles)
  obtain ⟨mid, hnext, hpost⟩ := tiles_append.mp ht
  have hm : mid = b.1 + roomSize b next := by
    cases next with
    | none => exact (show b.1 + b.2.size = mid from hnext).symm
    | some c =>
      obtain ⟨-, -, h⟩ := hnext
      rw [← show b.1 + b.2.size + c.2.size = mid from h]
      exact Nat.add_assoc ..
  subst hm
  exact ⟨hpre, ⟨rfl, hl, hnext⟩, hpost⟩

variable (hs : h.Sound cs ls) (hn : Before cs pre b next post) (ha : b.2.status = .allocated)
include hs hn

/-- The listed block of a room is the free successor. -/
theorem Sound.listed_room {x : Nat} (hx : x ∈ next.map Prod.fst) :
    ∃ k < Bucket.count, x ∈ ls k := by
  obtain ⟨c, rfl, rfl⟩ := Option.map_eq_some_iff.mp hx
  exact ⟨_, Bucket.ofSize_lt _, hs.complete c (by simp [hn.blocks]) (hn.free c rfl)⟩

include ha

/-- Without its free successor, no block of a room is listed. -/
theorem Sound.not_mem_room {c : TaggedBlock} (hc : c ∈ b :: next.toList) {k : Nat}
    (hk : k < Bucket.count) : c.1 ∉ dropAny ls (next.map Prod.fst) k := by
  intro hx
  rcases List.mem_cons.mp hc with rfl | hc
  · exact hs.consistent.not_mem_of_allocated (by simp [hn.blocks]) ha hk (mem_of_mem_dropAny hx)
  · rw [Option.mem_toList.mp hc] at hx
    exact not_mem_dropAny (hs.shape.nodup hk) hx

/-- A size that the room holds is carved out of it. -/
theorem Sound.resize_inPlace (limit : Nat) (hb : BlockSize size) (hle : size ≤ roomSize b next) :
    ∃ h', h.resize limit b.1 size =
        .ok (.ok (.inPlace b.2.size (placed (roomSize b next) size)), h') ∧
      h.Becomes cs h' (pre ++ carved b.1 (roomSize b next) size ++ post)
        (pushAny (dropAny ls (next.map Prod.fst)) (remainder b.1 (roomSize b next) size)) ∧
      h'.epilog = h.epilog := by
  have hk := hs.consistent
  have hmem : b ∈ cs := by simp [hn.blocks]
  have hcs : cs = pre ++ (b :: next.toList) ++ post := by simp [hn.blocks]
  obtain ⟨hpre, hmid, hpost⟩ := hn.tiles hs.chain
  obtain ⟨m₁, hm₁, hk₁, he₁, hc₁, ho₁⟩ := hk.removeAny fun x => hs.listed_room hn
  obtain ⟨m, hm, hk', he', hc'⟩ := Consistent.carve (h := ⟨m₁, h.epilog⟩) (hcs ▸ hk₁) hpre hmid
    hpost (fun c hc k hkk => hs.not_mem_room hn ha hc hkk) hb hle
  obtain ⟨hsepre, hsepost, -⟩ := separated_append.mp (hcs ▸ hs.shape.separated)
  refine ⟨⟨m, h.epilog⟩, ?_, hs.becomes hk' ?_ ?_ ?_ (fun he => he' (hcs ▸ he₁ he))
    (fun j hj hj' => ?_) (fun j hj' ho => ho₁ j (ho.congr (hc'.byte j hj').symm)), rfl⟩
  · unfold Heap.resize
    rw [hk.blockSize hmem, ok_bind, hs.room hn, ok_bind]
    show (if size ≤ roomSize b next then _ else _) = _
    rw [if_pos hle, hm₁, ok_bind]
    show (m₁.carve b.1 (roomSize b next) size >>= fun r => _) = _
    rw [hm]
    rfl
  · exact hs.span.trans (hc'.size.trans hc₁.size).symm
  · exact separated_carved (separated_append.mp hsepre).1 hsepost hn.after
  · refine Complete.carved ((hs.complete.subset fun c hc => ?_).dropAny fun c hc he => ?_)
    · rcases List.mem_append.mp hc with hc | hc <;> simp [hcs, hc]
    · obtain ⟨d, hd, hdc⟩ := Option.map_eq_some_iff.mp he
      have h1 := hmid.bounds (b := d) (by simp [hd])
      rcases List.mem_append.mp hc with hc | hc
      · have := hpre.bounds hc
        simp only [minBlock] at *
        omega
      · have := hpost.bounds hc
        simp only [minBlock] at *
        omega
  · have h1 : m₁.byte j = h.mem.byte j := hc₁.byte j fun hl => hj (hs.structByte_of_linkByte hl)
    exact (hc'.byte j hj').trans h1

/-- The room of the last block is a region at the end. -/
theorem Sound.endRegion_room (hpost : post = []) :
    h.EndRegion cs pre (b :: next.toList) b.1 (next.map Prod.fst) ∧
      h.epilog + wordSize - b.1 = roomSize b next := by
  subst hpost
  obtain ⟨hpre, hmid, hend⟩ := hn.tiles hs.chain
  have hend : b.1 + roomSize b next = h.epilog + wordSize := hend
  refine ⟨⟨by simp [hn.blocks], hpre, hend ▸ hmid, fun x hx => ?_, fun c hc hf => ?_⟩, by omega⟩
  · obtain ⟨c, rfl, rfl⟩ := Option.map_eq_some_iff.mp hx
    exact ⟨c.2, by simp, hn.free c rfl⟩
  · rcases List.mem_cons.mp hc with rfl | hc
    · rw [Tag.isFree_iff, ha] at hf
      cases hf
    · rw [Option.mem_toList.mp hc]
      rfl

omit ha in
theorem Sound.resize_of_stretch (hpost : post = []) (hlt : roomSize b next < size)
    {result : Except Exhausted Nat} {h' : Heap}
    (hst : h.stretch limit b.1 size (next.map Prod.fst) = .ok (result, h')) :
    h.resize limit b.1 size =
      .ok (result.map (.grown b.2.size (roomSize b next - b.2.size) ·), h') := by
  subst hpost
  unfold Heap.resize
  rw [hs.consistent.blockSize (by simp [hn.blocks]), ok_bind, hs.room hn, ok_bind]
  show (if size ≤ roomSize b next then _ else if true = true then _ else _) = _
  rw [if_neg (Nat.not_le.mpr hlt), if_pos rfl, hst]
  rfl

/-- The room of the last block grows with the heap. -/
theorem Sound.resize_grown (hb : BlockSize size) (hlt : roomSize b next < size) (hpost : post = [])
    (hg : h.growthRefusal limit (size - roomSize b next) = none) :
    ∃ h', h.resize limit b.1 size = .ok (.ok (.grown b.2.size (roomSize b next - b.2.size)
        (size - roomSize b next)), h') ∧
      h.Becomes cs h' (pre ++ [(b.1, ⟨size, .allocated⟩)]) (dropAny ls (next.map Prod.fst)) ∧
      h'.epilog = h.epilog + (size - roomSize b next) := by
  obtain ⟨hr, hroom⟩ := hs.endRegion_room hn ha hpost
  have hsep : Separated pre := (separated_append.mp (hn.blocks ▸ hs.shape.separated)).1
  rw [← hroom] at hg hlt ⊢
  obtain ⟨h', hst, hbec, hep⟩ := hs.stretch hr hb (Nat.le_of_lt hlt) hsep hg
  refine ⟨h', ?_, hbec, hep⟩
  rw [hs.resize_of_stretch hn hpost (hroom ▸ hlt) hst, hroom]
  rfl

/-- If the heap may not grow, nothing has changed. -/
theorem Sound.resize_refused (hlt : roomSize b next < size) (hpost : post = []) {cause : Exhausted}
    (hg : h.growthRefusal limit (size - roomSize b next) = some cause) :
    h.resize limit b.1 size = .ok (.error cause, h) := by
  obtain ⟨hr, hroom⟩ := hs.endRegion_room hn ha hpost
  rw [← hroom] at hg
  exact hs.resize_of_stretch hn hpost hlt (hr.stretch_refused (by omega) hg)

omit ha in
/-- A block that is not the last one and whose room is too small has to move. -/
theorem Sound.resize_mustMove (hlt : roomSize b next < size) (hpost : post ≠ []) :
    h.resize limit b.1 size = .ok (.ok (.mustMove b.2.size), h) := by
  obtain ⟨c, rest, rfl⟩ := List.exists_cons_of_ne_nil hpost
  unfold Heap.resize
  rw [hs.consistent.blockSize (by simp [hn.blocks]), ok_bind, hs.room hn, ok_bind]
  show (if size ≤ roomSize b next then _ else if false = true then _ else _) = _
  rw [if_neg (Nat.not_le.mpr hlt), if_neg Bool.false_ne_true]
  rfl

end Heap

end SegFit
