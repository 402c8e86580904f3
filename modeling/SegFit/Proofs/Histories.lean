/-
  Histories: what clients asked for in a run, and what they were answered.  The settings and the
  requests determine the run (`History.unique`).
-/
import SegFit.Proofs.Runs

namespace SegFit

/-- The live allocations after a request that was answered with `result`. -/
def Request.liveAfter (allocations : List Nat) (r : Request) :
    Except Refusal (Option Nat) → List Nat
  | .ok answer => r.live allocations answer
  | .error _ => allocations

/-- A request and what it was answered. -/
abbrev Exchange : Type :=
  Request × Except Refusal (Option Nat)

namespace Allocator

/-- The allocators that clients face after the exchanges `es`, with the live allocations then,
when every pointer they passed was live at that moment. -/
inductive History (settings : Settings) : List Exchange → Allocator → List Nat → Prop where
  | start {a : Allocator} (h : ofSettings settings = .ok (.ok a)) : History settings [] a []
  | step {es : List Exchange} {a a' : Allocator} {allocations : List Nat} {r : Request}
      {result : Except Refusal (Option Nat)} (before : History settings es a allocations)
      (legal : ∀ ptr, r.pointer = some ptr → ptr ∈ allocations)
      (h : a.perform r = .ok (result, a')) :
      History settings (es ++ [(r, result)]) a' (r.liveAfter allocations result)

variable {settings : Settings} {es fs : List Exchange} {a a' b : Allocator} {live live' : List Nat}

theorem History.reachable (h : History settings es a live) : Reachable settings a live := by
  induction h with
  | start h => exact .start h
  | @step es a a' live r result _ legal hrun ih =>
    cases result with
    | ok answer => exact .granted ih legal hrun
    | error e => exact .refused ih legal hrun

/-- The requests of a run determine its replies and what it ends in. -/
theorem History.unique (h : History settings es a live) (h' : History settings fs b live')
    (he : es.map Prod.fst = fs.map Prod.fst) : es = fs ∧ a = b ∧ live = live' := by
  induction h generalizing fs b live' with
  | start h =>
    cases h' with
    | start h' => exact ⟨rfl, Except.ok.inj (Except.ok.inj (h.symm.trans h')), rfl⟩
    | step => simp at he
  | step _ _ hrun ih =>
    cases h' with
    | start => simp at he
    | step before' _ hrun' =>
      rw [List.map_append, List.map_append] at he
      obtain ⟨hes, hr⟩ := List.append_inj' he rfl
      obtain ⟨rfl, rfl, rfl⟩ := ih before' hes
      obtain rfl := List.singleton_inj.mp hr
      obtain ⟨rfl, rfl⟩ := Prod.mk.inj (Except.ok.inj (hrun.symm.trans hrun'))
      exact ⟨rfl, rfl, rfl⟩

/-- A history goes on as a session does. -/
theorem History.of_foldlM {rs : List Request} (h : History settings es a live)
    (hrun : rs.foldlM advance (a, live) = some (a', live')) :
    ∃ fs, fs.map Prod.fst = rs ∧ History settings (es ++ fs) a' live' := by
  induction rs generalizing es a live with
  | nil =>
    cases hrun
    exact ⟨[], rfl, by rwa [List.append_nil]⟩
  | cons r rs ih =>
    rw [List.foldlM_cons] at hrun
    obtain ⟨⟨a₁, live₁⟩, hadvance, hrest⟩ := Option.bind_eq_some_iff.mp hrun
    obtain ⟨result, hstep⟩ : ∃ result, History settings (es ++ [(r, result)]) a₁ live₁ := by
      rw [advance] at hadvance
      split at hadvance
      · rename_i hlegal
        split at hadvance <;> cases hadvance <;> exact ⟨_, .step h (fun ptr => hlegal ptr) ‹_›⟩
      · cases hadvance
    obtain ⟨fs, rfl, hfs⟩ := ih hstep hrest
    exact ⟨(r, result) :: fs, rfl, by simpa using hfs⟩

/-- A session has a history. -/
theorem History.of_session {rs : List Request} (h : session settings rs = some (a, live)) :
    ∃ es, es.map Prod.fst = rs ∧ History settings es a live := by
  rw [session] at h
  split at h
  · rename_i a₀ h₀
    exact History.of_foldlM (.start h₀) h
  · cases h

end Allocator

end SegFit
