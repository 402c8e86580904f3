import SegFit.Allocator.Run
import SegFit.Allocator.Client
import SegFit.Heap.WellFormed
import SegFit.Proofs.Words
import SegFit.Proofs.Strands
import SegFit.Proofs.Sentinels
import SegFit.Proofs.Consistency
import SegFit.Proofs.Growth
import SegFit.Proofs.Sound
import SegFit.Proofs.FirstFit
import SegFit.Proofs.Carving
import SegFit.Proofs.Acquiring
import SegFit.Proofs.Releasing
import SegFit.Proofs.Resizing
import SegFit.Proofs.Checker
import SegFit.Proofs.Views
import SegFit.Proofs.Payloads
import SegFit.Proofs.LiveBlocks
import SegFit.Proofs.Unforged
import SegFit.Proofs.Outcome
import SegFit.Proofs.Steps
import SegFit.Proofs.Requests
import SegFit.Proofs.Answers
import SegFit.Proofs.Runs
import SegFit.Proofs.Invariant
import SegFit.Proofs.Cells
import SegFit.Proofs.Accepted
import SegFit.Proofs.Deciding
import SegFit.Proofs.Cornered
import SegFit.Proofs.Exposure
import SegFit.Guarded.Allocator
import SegFit.Proofs.Accounts
import SegFit.Proofs.GuardedHeap
import SegFit.Proofs.GuardedRuns
import SegFit.Proofs.Figures
import SegFit.Proofs.Lockstep
import SegFit.Proofs.Histories
import SegFit.Proofs.Transparency
import SegFit.Proofs.Likeness
import SegFit.Proofs.Coalescing
import SegFit.Proofs.Noninterference
import SegFit.Proofs.Placement
import SegFit.Proofs.ReleaseOrder
import SegFit.Proofs.Granting
import SegFit.Proofs.ReleaseLayout
import SegFit.Proofs.ResizeLayout
import SegFit.Proofs.ListOperations
import SegFit.Proofs.Levels
import SegFit.Proofs.Replay
import SegFit.Proofs.Foremost
import SegFit.Guarded.Diagnostics
import SegFit.Proofs.Diagnostics
import SegFit.Proofs.Damage
import SegFit.Proofs.Undoing
import SegFit.Proofs.Restoring
import SegFit.Proofs.SettingTexts
import SegFit.Proofs.JsonLines
import SegFit.Proofs.BackLinks
import SegFit.Guarded.Size
import SegFit.Proofs.Sizes
import SegFit.Proofs.CheckInvariance
