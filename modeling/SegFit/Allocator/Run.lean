/-
  Runs of an allocator: what clients ask for, one request after the other, and the states
  that are reached when every pointer they pass is that of a live allocation.  A session
  computes such a state.
-/
import SegFit.Allocator.Operations
import SegFit.Allocator.Payload

namespace SegFit

/-- What a client asks of an allocator. -/
inductive Request where
  | allocate (n : Nat)
  | allocateZeroed (count size : Nat)
  | release (ptr : Nat)
  | resize (ptr : Option Nat) (n : Nat)
  /-- Writes `part` into a payload from position `i` on. -/
  | write (ptr i : Nat) (part : ByteArray)
  /-- Reads `n` bytes of a payload from position `i` on, all to its end if no number is given. -/
  | read (ptr i : Nat) (n : Option Nat)

namespace Request

/-- The pointer that a request passes. -/
def pointer : Request → Option Nat
  | .allocate _ => none
  | .allocateZeroed .. => none
  | .release ptr => some ptr
  | .resize ptr _ => ptr
  | .write ptr .. => some ptr
  | .read ptr .. => some ptr

/-- The live allocations after a request that was granted with `answer`. -/
def live (allocations : List Nat) (r : Request) (answer : Option Nat) : List Nat :=
  match r with
  | .write .. => allocations
  | .read .. => allocations
  | _ => answer.toList ++ allocations.filter fun ptr => some ptr ≠ r.pointer

end Request

namespace Allocator

/-- Carries out a request. -/
def perform (a : Allocator) : Request → Except Stop (Reply (Option Nat))
  | .allocate n => a.allocate n
  | .allocateZeroed count size => a.allocateZeroed count size
  | .release ptr => return (← a.release ptr).map (·.map fun _ => none) id
  | .resize ptr n => a.resize ptr n
  | .write ptr i part => return (← lift (a.writePayload ptr i part)).map (·.map fun _ => none) id
  | .read ptr i n => return ((← lift (a.readPayload ptr i n)).map fun _ => none, a)

/-- The allocators that clients with the live allocations given can face, when every pointer
they passed was live at that moment. -/
inductive Reachable (settings : Settings) : Allocator → List Nat → Prop where
  | start {a : Allocator} (h : ofSettings settings = .ok (.ok a)) : Reachable settings a []
  | granted {a a' : Allocator} {allocations : List Nat} {r : Request} {answer : Option Nat}
      (before : Reachable settings a allocations)
      (legal : ∀ ptr, r.pointer = some ptr → ptr ∈ allocations)
      (h : a.perform r = .ok (.ok answer, a')) :
      Reachable settings a' (r.live allocations answer)
  | refused {a a' : Allocator} {allocations : List Nat} {r : Request} {e : Refusal}
      (before : Reachable settings a allocations)
      (legal : ∀ ptr, r.pointer = some ptr → ptr ∈ allocations)
      (h : a.perform r = .ok (.error e, a')) :
      Reachable settings a' allocations

/-- One more request; none if it passes a pointer that is not live or stops the run. -/
def advance : Allocator × List Nat → Request → Option (Allocator × List Nat)
  | (a, allocations), r =>
    if ∀ ptr ∈ r.pointer, ptr ∈ allocations then
      match a.perform r with
      | .ok (.ok answer, a) => some (a, r.live allocations answer)
      | .ok (.error _, a) => some (a, allocations)
      | .error _ => none
    else none

/-- A new allocator after the requests `rs`, and the live allocations then. -/
def session (settings : Settings) (rs : List Request) : Option (Allocator × List Nat) :=
  match ofSettings settings with
  | .ok (.ok a) => rs.foldlM advance (a, [])
  | _ => none

theorem Reachable.advance {settings : Settings} {a a' : Allocator} {live live' : List Nat}
    {r : Request} (h : Reachable settings a live) (ha : advance (a, live) r = some (a', live')) :
    Reachable settings a' live' := by
  rw [Allocator.advance] at ha
  split at ha
  · rename_i legal
    have legal : ∀ ptr, r.pointer = some ptr → ptr ∈ live := fun ptr => legal ptr
    split at ha
    · cases ha
      exact .granted h legal ‹_›
    · cases ha
      exact .refused h legal ‹_›
    · cases ha
  · cases ha

/-- What every step of a run keeps, the run keeps. -/
theorem foldlM_keeps {σ ι : Type} {step : σ → ι → Option σ} {P : σ → Prop}
    (hstep : ∀ s i t, P s → step s i = some t → P t) :
    ∀ (is : List ι) {s t : σ}, P s → is.foldlM step s = some t → P t := by
  intro is
  induction is with
  | nil =>
    intro s t hs he
    cases he
    exact hs
  | cons i is ih =>
    intro s t hs he
    rw [List.foldlM_cons] at he
    obtain ⟨u, hu, he⟩ := Option.bind_eq_some_iff.mp he
    exact ih (hstep s i u hs hu) he

/-- What a session ends in can be reached. -/
theorem Reachable.of_session {settings : Settings} {rs : List Request} {a : Allocator}
    {live : List Nat} (h : session settings rs = some (a, live)) : Reachable settings a live := by
  rw [session] at h
  split at h
  · rename_i a₀ h₀
    exact foldlM_keeps (P := fun s => Reachable settings s.1 s.2)
      (fun _ _ _ hs ht => hs.advance ht) rs (.start h₀) h
  · cases h

end Allocator

end SegFit
