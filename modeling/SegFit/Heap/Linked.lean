/-
  The free lists as lists.  `Linked m l` says that consecutive nodes of `l` link to one
  another, and `h.Holds b ns` that the list of bucket `b` consists of the blocks `ns`, front
  to back.  A walk over such a list finds exactly these blocks (`firstNodes_of_holds`).
-/
import SegFit.Heap.Lists
import SegFit.Memory.Lemmas

namespace SegFit

namespace Memory

/-- The backward link in the words of `node`. -/
def predLink (m : Memory) (node : Nat) : Nat :=
  (m.word node).toNat

/-- The forward link in the words of `node`. -/
def succLink (m : Memory) (node : Nat) : Nat :=
  (m.word (node + wordSize)).toNat

theorem pred_of_le {m : Memory} {node : Nat} (h : node + wordSize ≤ m.size) :
    m.pred node = .ok (m.predLink node) := by
  simp [pred, readWord_of_le h, predLink, Functor.map, Except.map]

theorem succ_of_le {m : Memory} {node : Nat} (h : node + nodeSize ≤ m.size) :
    m.succ node = .ok (m.succLink node) := by
  have h' : node + wordSize + wordSize ≤ m.size := by simp only [nodeSize, wordSize] at *; omega
  simp [succ, readWord_of_le h', succLink, Functor.map, Except.map]

/-- Consecutive nodes link to one another. -/
def Linked (m : Memory) : List Nat → Prop
  | x :: y :: rest => m.succLink x = y ∧ m.predLink y = x ∧ Linked m (y :: rest)
  | _ => True

/-- A walk over linked nodes finds them, in order. -/
theorem follow_of_linked {m : Memory} {tail : Nat} (ns : List Nat) (node n : Nat)
    (hl : m.Linked (node :: ns ++ [tail])) (ht : tail ∉ ns)
    (hb : ∀ x ∈ ns, x + nodeSize ≤ m.size) :
    m.follow tail n (m.succLink node) = .ok (ns.take n) := by
  induction ns generalizing node n with
  | nil =>
    have h : m.succLink node = tail := hl.1
    cases n with
    | zero => rfl
    | succ n => rw [h, follow, if_pos rfl]; rfl
  | cons x rest ih =>
    have h : m.succLink node = x := hl.1
    have hx : x ≠ tail := fun he => ht (he ▸ List.mem_cons_self)
    cases n with
    | zero => rfl
    | succ n =>
      have hr := ih x n hl.2.2 (fun hm => ht (List.mem_cons_of_mem _ hm))
        fun y hy => hb y (List.mem_cons_of_mem _ hy)
      rw [h, follow, if_neg hx, succ_of_le (hb x List.mem_cons_self)]
      show (do return x :: (← m.follow tail n (m.succLink x))) = _
      rw [hr]
      rfl

end Memory

namespace Heap

/-- The list of bucket `b` holds the blocks `ns`, front to back. -/
def Holds (h : Heap) (b : Nat) (ns : List Nat) : Prop :=
  h.mem.Linked (prologNode b :: ns ++ [h.epilogNode b])

/-- Reading the list of a bucket yields the blocks that it holds. -/
theorem firstNodes_of_holds {h : Heap} {b : Nat} {ns : List Nat} (n : Nat) (hl : h.Holds b ns)
    (hp : prologNode b + nodeSize ≤ h.size) (he : h.epilogNode b ∉ ns)
    (hb : ∀ x ∈ ns, x + nodeSize ≤ h.size) : h.firstNodes b n = .ok (ns.take n) := by
  unfold firstNodes
  rw [Memory.succ_of_le hp]
  exact Memory.follow_of_linked ns (prologNode b) n hl he hb

end Heap

end SegFit
