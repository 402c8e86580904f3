/-
  Clients of an allocator.  They make requests, ask how much they may use and what is stored
  there, have the heap checked or verified, and take the records out of the journal at any time.
  A run carries out calls up to the first that stops it; a session passes live pointers only.
-/
import SegFit.Allocator.Run

namespace SegFit

/-- What a client calls an allocator for. -/
inductive Call where
  | request (r : Request)
  /-- The number of bytes that may be used at `ptr`. -/
  | usable (ptr : Nat)
  /-- All bytes of the payload at `ptr`. -/
  | payload (ptr : Nat)
  /-- Checks the heap. -/
  | check
  /-- Checks the heap, and ends the run at a violation. -/
  | verify
  /-- Takes the records out of the journal. -/
  | drain

/-- What a call is answered. -/
inductive Response where
  | reply (result : Except Refusal (Option Nat))
  | usable (result : Except Refusal Nat)
  | payload (result : Except Refusal ByteArray)
  | verdict (result : Except Violation Unit)
  | done

/-- An allocator, with the records that were taken out of its journal so far. -/
structure Client where
  allocator : Allocator
  drained : List Record

/-- The pointer that a call passes. -/
def Call.pointer : Call → Option Nat
  | .request r => r.pointer
  | .usable ptr | .payload ptr => some ptr
  | .check | .verify | .drain => none

/-- The live allocations after a call that was answered with `response`. -/
def Call.live (allocations : List Nat) : Call → Response → List Nat
  | .request r, .reply (.ok answer) => r.live allocations answer
  | _, _ => allocations

namespace Client

/-- The records of the run, those taken out and those still in the journal. -/
def records (c : Client) : List Record :=
  c.drained ++ c.allocator.journal.records.toList

/-- Carries out a call. -/
def call (c : Client) : Call → Except Stop (Response × Client)
  | .request r => do
    let (result, allocator) ← c.allocator.perform r
    return (.reply result, { c with allocator })
  | .usable ptr => return (.usable (← lift (c.allocator.usable ptr)), c)
  | .payload ptr => return (.payload (← lift (c.allocator.readPayload ptr 0 none)), c)
  | .check => do
    let (verdict, allocator) ← lift c.allocator.check
    return (.verdict verdict, { c with allocator })
  | .verify => return (.done, { c with allocator := ← c.allocator.verify })
  | .drain =>
    let (records, allocator) := c.allocator.drain
    return (.done, ⟨allocator, c.drained ++ records⟩)

/-- Carries out calls one after the other, up to the first that stops the run.  Gives what each
was answered and what it left, and why the run stopped, if it did. -/
def run (c : Client) : List Call → List (Response × Client) × Option Stop
  | [] => ([], none)
  | call :: calls =>
    match c.call call with
    | .error stop => ([], some stop)
    | .ok (response, c) => ((response, c) :: (c.run calls).1, (c.run calls).2)

/-- The clients with the live allocations given after any calls, when every pointer they passed
was live at that moment. -/
inductive Reachable (settings : Settings) : Client → List Nat → Prop where
  | start {a : Allocator} (h : Allocator.ofSettings settings = .ok (.ok a)) :
      Reachable settings ⟨a, []⟩ []
  | call {c c' : Client} {allocations : List Nat} {call : Call} {response : Response}
      (before : Reachable settings c allocations)
      (legal : ∀ ptr, call.pointer = some ptr → ptr ∈ allocations)
      (h : c.call call = .ok (response, c')) :
      Reachable settings c' (call.live allocations response)

/-- One more call; none if it passes a pointer that is not live or stops the run. -/
def advance : Client × List Nat → Call → Option (Client × List Nat)
  | (c, allocations), call =>
    if ∀ ptr ∈ call.pointer, ptr ∈ allocations then
      match c.call call with
      | .ok (response, c) => some (c, call.live allocations response)
      | .error _ => none
    else none

/-- A client of a new allocator after the calls given, and the live allocations then. -/
def session (settings : Settings) (calls : List Call) : Option (Client × List Nat) :=
  match Allocator.ofSettings settings with
  | .ok (.ok a) => calls.foldlM advance (⟨a, []⟩, [])
  | _ => none

theorem Reachable.advance {settings : Settings} {c c' : Client} {live live' : List Nat}
    {call : Call} (h : Reachable settings c live)
    (ha : advance (c, live) call = some (c', live')) : Reachable settings c' live' := by
  rw [Client.advance] at ha
  split at ha
  · rename_i legal
    have legal : ∀ ptr, call.pointer = some ptr → ptr ∈ live := fun ptr => legal ptr
    split at ha
    · cases ha
      exact .call h legal ‹_›
    · cases ha
  · cases ha

/-- What a session ends in can be reached. -/
theorem Reachable.of_session {settings : Settings} {calls : List Call} {c : Client}
    {live : List Nat} (h : session settings calls = some (c, live)) : Reachable settings c live := by
  rw [session] at h
  split at h
  · rename_i a ha
    exact Allocator.foldlM_keeps (P := fun s => Reachable settings s.1 s.2)
      (fun _ _ _ hs ht => hs.advance ht) calls (.start ha) h
  · cases h

end Client

end SegFit
