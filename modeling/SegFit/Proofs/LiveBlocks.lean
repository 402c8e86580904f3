/-
  What operations do to the allocated blocks.  `Swaps cs cs' gone new` says that the allocated
  blocks stay as they are but for the one at `gone`, which is given up, and `new`, which is
  added; the lemmas below sum up each heap operation in these terms.
-/
import SegFit.Proofs.Releasing
import SegFit.Proofs.Resizing

namespace SegFit

namespace Heap

variable {h : Heap} {cs cs' pre mid news post : List TaggedBlock} {ls : Nat → List Nat}
  {gone : Option Nat} {new : Option TaggedBlock}

/-- The allocated blocks of `cs'` are those of `cs` but for that at `gone`, and `new`. -/
structure Swaps (cs cs' : List TaggedBlock) (gone : Option Nat) (new : Option TaggedBlock) :
    Prop where
  allocated : ∀ b ∈ new, b.2.status = .allocated
  mem : ∀ c, c.2.status = .allocated → (c ∈ cs' ↔ new = some c ∨ (c ∈ cs ∧ gone ≠ some c.1))
  fresh : ∀ b ∈ new, ∀ c ∈ cs, c.2.status = .allocated → gone ≠ some c.1 → c.1 ≠ b.1

theorem Swaps.refl (cs : List TaggedBlock) : Swaps cs cs none none :=
  ⟨by simp, by simp, by simp⟩

/-- First a block is added, then another one is given up. -/
theorem Swaps.trans {ds : List TaggedBlock} {b : TaggedBlock} {x : Nat}
    (h₁ : Swaps cs ds none (some b)) (h₂ : Swaps ds cs' (some x) none) (hne : b.1 ≠ x) :
    Swaps cs cs' (some x) (some b) := by
  refine ⟨h₁.allocated, fun c hc => ?_, fun d hd c hc ha _ => h₁.fresh d hd c hc ha (by simp)⟩
  rw [h₂.mem c hc, h₁.mem c hc]
  constructor
  · rintro (h | ⟨h | ⟨h, -⟩, hx⟩)
    · cases h
    · exact .inl h
    · exact .inr ⟨h, hx⟩
  · rintro (h | ⟨h, hx⟩)
    · obtain rfl := Option.some.inj h
      exact .inr ⟨.inl rfl, fun he => hne (Option.some.inj he).symm⟩
    · exact .inr ⟨.inr ⟨h, by simp⟩, hx⟩

/-- The allocation that stays is the same block before and after. -/
theorem Swaps.mem_of_mem (hsw : Swaps cs cs' gone new) {c : TaggedBlock} (hc : c ∈ cs)
    (ha : c.2.status = .allocated) (hg : gone ≠ some c.1) : c ∈ cs' :=
  (hsw.mem c ha).mpr (.inr ⟨hc, hg⟩)

/-- The block that was added is among the blocks. -/
theorem Swaps.mem_of_new {b : TaggedBlock} (hsw : Swaps cs cs' gone (some b)) : b ∈ cs' :=
  (hsw.mem b (hsw.allocated b rfl)).mpr (.inl rfl)

/-- Exchanging a region swaps the allocated blocks in it; one that is added begins where the
region does. -/
theorem swaps_region {start stop last : Nat} (hpre : Tiles firstBlock pre start)
    (hmid : Tiles start mid stop) (hpost : Tiles stop post last)
    (hafter : post ≠ [] → start < stop)
    (hgone : ∀ c ∈ mid, c.2.status = .allocated → gone = some c.1)
    (hin : ∀ x ∈ gone, ∃ c ∈ mid, c.1 = x)
    (hnew : ∀ c ∈ news, c.2.status = .allocated → new = some c)
    (hmem : ∀ b ∈ new, b ∈ news ∧ b.2.status = .allocated ∧ b.1 = start) :
    Swaps (pre ++ mid ++ post) (pre ++ news ++ post) gone new := by
  have houter : ∀ c ∈ pre ++ post, c.1 + c.2.size ≤ start ∨ stop ≤ c.1 := by
    intro c hc
    rcases List.mem_append.mp hc with hc | hc
    · exact .inl (hpre.bounds hc).2.1
    · exact .inr (hpost.bounds hc).1
  have hsize : ∀ c ∈ pre ++ post, minBlock ≤ c.2.size := by
    intro c hc
    rcases List.mem_append.mp hc with hc | hc
    · exact (hpre.bounds hc).2.2
    · exact (hpost.bounds hc).2.2
  have hkeep : ∀ c ∈ pre ++ post, gone ≠ some c.1 := by
    intro c hc he
    obtain ⟨d, hd, hdc⟩ := hin c.1 he
    have h1 := houter c hc
    have h2 := hmid.bounds hd
    have h3 := hsize c hc
    simp only [minBlock] at *
    omega
  have hsplit : ∀ {l : List TaggedBlock} {c}, c ∈ pre ++ l ++ post ↔ c ∈ l ∨ c ∈ pre ++ post := by
    intro l c
    simp only [List.mem_append]
    constructor
    · rintro ((h | h) | h)
      · exact .inr (.inl h)
      · exact .inl h
      · exact .inr (.inr h)
    · rintro (h | h | h)
      · exact .inl (.inr h)
      · exact .inl (.inl h)
      · exact .inr h
  refine ⟨fun b hb => (hmem b hb).2.1, fun c hc => ?_, fun b hb c hc ha hg => ?_⟩
  · rw [hsplit, hsplit]
    constructor
    · rintro (h | h)
      · exact .inl (hnew c h hc)
      · exact .inr ⟨.inr h, hkeep c h⟩
    · rintro (h | ⟨h | h, hg⟩)
      · exact .inl (hmem c h).1
      · exact absurd (hgone c h hc) hg
      · exact .inr h
  · rw [(hmem b hb).2.2]
    rcases hsplit.mp hc with hc | hc
    · exact absurd (hgone c hc ha) hg
    · have h1 := houter c hc
      have h2 := hsize c hc
      rcases List.mem_append.mp hc with hc | hc
      · have := (hpre.bounds hc).2.1
        simp only [minBlock] at *
        omega
      · have h3 := hafter (List.ne_nil_of_mem hc)
        have := (hpost.bounds hc).1
        omega

theorem status_of_free {c : TaggedBlock} (hf : c.2.isFree) (ha : c.2.status = .allocated) :
    False := by
  rw [Tag.isFree_iff, ha] at hf
  cases hf

/-- Of a carved region, only the front is allocated. -/
theorem carved_allocated {block total size : Nat} {c : TaggedBlock}
    (hc : c ∈ carved block total size) (ha : c.2.status = .allocated) :
    some (block, ⟨placed total size, .allocated⟩) = some c := by
  rcases List.mem_cons.mp hc with rfl | hc
  · rfl
  · rw [remainder] at hc
    split at hc
    · obtain rfl : c = (block + size, ⟨total - size, .free⟩) := by simpa using hc
      cases ha
    · cases hc

/-- Taking a block is refused, or adds one that is large enough. -/
theorem Sound.acquire (hs : h.Sound cs ls) {size : Nat} (hb : BlockSize size) (limit : Nat) :
    (∃ cause, h.acquire limit size = .ok (.error cause, h)) ∨
      ∃ grant h' cs' ls', h.acquire limit size = .ok (.ok grant, h') ∧ h.Becomes cs h' cs' ls' ∧
        Swaps cs cs' none (some (grant.block, ⟨grant.placed size, .allocated⟩)) ∧
        size ≤ grant.placed size := by
  cases hx : fit cs ls size with
  | some x =>
    obtain ⟨tag, hm, hf, -, hle⟩ := hs.consistent.listed.fit hs.chain.tiles hx
    obtain ⟨found, status⟩ := tag
    obtain rfl : status = .free := Tag.isFree_iff.mp hf
    obtain ⟨pre, post, hcs⟩ := List.append_of_mem hm
    obtain ⟨h', hrun, hbec, -⟩ := hs.acquire_reused limit hb hx hcs
    refine .inr ⟨_, h', _, _, hrun, hbec, ?_, le_placed hle⟩
    obtain ⟨hpre, hl, hpost⟩ := tiles_around.mp (hcs ▸ hs.chain.tiles)
    have hcs' : cs = pre ++ [(x, ⟨found, .free⟩)] ++ post := by simp [hcs]
    rw [hcs']
    refine swaps_region hpre (tiles_singleton.mpr ⟨rfl, hl, rfl⟩) hpost (fun _ => ?_) ?_ (by simp)
      (fun c hc ha => carved_allocated hc ha) ?_
    · show x < x + found
      simp only [minBlock] at hl
      omega
    · intro c hc ha
      obtain rfl := List.mem_singleton.mp hc
      cases ha
    · intro b hb
      obtain rfl := Option.some.inj hb
      exact ⟨List.mem_cons_self, rfl, rfl⟩
  | none =>
    obtain ⟨pre, last, he⟩ := exists_endsIn hs.shape.separated
    cases hg : h.growthRefusal limit (h.growthFor last size) with
    | some cause => exact .inl ⟨cause, hs.acquire_refused hb hx he hg⟩
    | none =>
      obtain ⟨h', hrun, hbec, -⟩ := hs.acquire_grown hb hx he hg
      refine .inr ⟨_, h', _, _, hrun, hbec, ?_, Nat.le_refl _⟩
      have hr := he.endRegion hs.chain
      have hsw : Swaps (pre ++ last.toList ++ [])
          (pre ++ [(h.growthBlock last, ⟨size, .allocated⟩)] ++ []) none
          (some (h.growthBlock last, ⟨size, .allocated⟩)) := swaps_region hr.before hr.region rfl
        (by simp) (fun c hc ha => (status_of_free (he.free c (by simpa using hc)) ha).elim)
        (by simp)
        (fun c hc _ => congrArg some (List.mem_singleton.mp hc).symm)
        (fun b hb => by
          obtain rfl := Option.some.inj hb
          exact ⟨by simp, rfl, rfl⟩)
      show Swaps cs _ none (some (h.growthBlock last, ⟨size, .allocated⟩))
      simpa [← hr.blocks] using hsw

/-- Giving a block back succeeds, and gives up that block only. -/
theorem Sound.release_allocated (hs : h.Sound cs ls) {b : TaggedBlock} (hb : b ∈ cs)
    (ha : b.2.status = .allocated) :
    ∃ done h' cs' ls', h.release b.1 = .ok (done, h') ∧ done.freed = b.2.size ∧
      h.Becomes cs h' cs' ls' ∧ Swaps cs cs' (some b.1) none ∧
      ∀ j, ¬ h'.StructByte cs' j → h'.mem.OddAt j → b.1 ≠ j + wordSize := by
  obtain ⟨pre, prev, next, post, hr⟩ := exists_around hs.shape.separated hb
  obtain ⟨h', hrun, hbec, -, hclean⟩ := hs.release hr ha
  refine ⟨_, h', _, _, hrun, rfl, hbec, ?_, hclean⟩
  obtain ⟨_, _, hpre, hmid, hpost⟩ := tiles_stretches.mp (hr.blocks ▸ hs.chain.tiles)
  rw [hr.blocks]
  refine swaps_region hpre hmid hpost (fun _ => ?_) (fun c hc hac => ?_) (fun x hx => ?_)
    (fun c hc hac => ?_) (by simp)
  · have := hmid.bounds (b := b) (by simp)
    simp only [minBlock] at this
    omega
  · rcases List.mem_append.mp hc with hc | hc
    · exact (status_of_free (hr.prev c (by simpa using hc)) hac).elim
    · rcases List.mem_cons.mp hc with rfl | hc
      · rfl
      · exact (status_of_free (hr.next c (by simpa using hc)) hac).elim
  · exact ⟨b, by simp, Option.some.inj hx⟩
  · rw [List.mem_singleton.mp hc] at hac
    cases hac

/-- Changing a size in place is refused, exchanges the block for one that is large enough, or is
not possible; the heap is unchanged in the first case and in the last, in which the block is
smaller than what was asked for. -/
theorem Sound.resize (hs : h.Sound cs ls) {b : TaggedBlock} (hb : b ∈ cs)
    (ha : b.2.status = .allocated) {size : Nat} (hsz : BlockSize size) (limit : Nat) :
    (∃ cause, h.resize limit b.1 size = .ok (.error cause, h)) ∨
      (h.resize limit b.1 size = .ok (.ok (.mustMove b.2.size), h) ∧ b.2.size < size) ∨
      ∃ done h' cs' ls' new, h.resize limit b.1 size = .ok (.ok done, h') ∧
        h.Becomes cs h' cs' ls' ∧ Swaps cs cs' (some b.1) (some (b.1, ⟨new, .allocated⟩)) ∧
        size ≤ new ∧ (done = .inPlace b.2.size new ∨
          ∃ absorbed growth, done = .grown b.2.size absorbed growth ∧ new = size) := by
  obtain ⟨pre, prev, next, post, hr⟩ := exists_around hs.shape.separated hb
  have hn := hr.before_next
  generalize pre ++ prev.toList = pre at hn
  have hcs : cs = pre ++ (b :: next.toList) ++ post := by simp [hn.blocks]
  obtain ⟨hpre, hmid, hpost⟩ := hn.tiles hs.chain
  have hgone : ∀ c ∈ b :: next.toList, c.2.status = .allocated → some b.1 = some c.1 := by
    intro c hc hac
    rcases List.mem_cons.mp hc with rfl | hc
    · rfl
    · exact (status_of_free (hn.free c (by simpa using hc)) hac).elim
  have hin : ∀ x ∈ some b.1, ∃ c ∈ b :: next.toList, c.1 = x :=
    fun x hx => ⟨b, by simp, Option.some.inj hx⟩
  by_cases hle : size ≤ roomSize b next
  · obtain ⟨h', hrun, hbec, -⟩ := hs.resize_inPlace hn ha limit hsz hle
    refine .inr (.inr ⟨_, h', _, _, _, hrun, hbec, ?_, le_placed hle, .inl rfl⟩)
    rw [hcs]
    refine swaps_region hpre hmid hpost (fun _ => ?_) hgone hin
      (fun c hc hac => carved_allocated hc hac) ?_
    · have := hmid.2.1
      simp only [roomSize, minBlock] at *
      omega
    · intro c hc
      obtain rfl := Option.some.inj hc
      exact ⟨List.mem_cons_self, rfl, rfl⟩
  · have hlt := Nat.lt_of_not_le hle
    by_cases hlast : post = []
    · cases hg : h.growthRefusal limit (size - roomSize b next) with
      | some cause => exact .inl ⟨cause, hs.resize_refused hn ha hlt hlast hg⟩
      | none =>
        obtain ⟨h', hrun, hbec, -⟩ := hs.resize_grown hn ha hsz hlt hlast hg
        refine .inr (.inr ⟨_, h', _, _, size, hrun, hbec, ?_, Nat.le_refl _, .inr ⟨_, _, rfl, rfl⟩⟩)
        subst hlast
        have : Swaps (pre ++ (b :: next.toList) ++ []) (pre ++ [(b.1, ⟨size, .allocated⟩)] ++ [])
            (some b.1) (some (b.1, ⟨size, .allocated⟩)) :=
          swaps_region hpre hmid hpost (by simp) hgone hin
          (fun c hc _ => congrArg some (List.mem_singleton.mp hc).symm)
          (fun c hc => by
            obtain rfl := Option.some.inj hc
            exact ⟨by simp, rfl, rfl⟩)
        rw [hcs]
        simpa using this
    · refine .inr (.inl ⟨hs.resize_mustMove hn hlt hlast, ?_⟩)
      simp only [roomSize] at hlt
      omega

end Heap

end SegFit
