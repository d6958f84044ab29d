import SortGovernor.Engine.Cleanup
import SortGovernor.Replay.Publication

/-!
# Shared scratch ownership of a replay

The writer, the sealed replay and every cursor hold a reference to one
`ReplayInner`.  Its scratch owner is shared with it, so it can only be moved out
together with the last reference.
-/

namespace SortGovernor.Engine

open SortGovernor.Resumption

variable {Value State : Type}

/-- The parts of a `ReplayInner` that never change. -/
structure ReplayInner where
  dir : ScratchDir
  scope : ScopeId
  deriving DecidableEq, Repr

namespace ReplayInner

def path (inner : ReplayInner) : ScratchPath := { dir := inner.dir, file := .rows }

/-- The scratch owner `new` puts into it. -/
def cleanup (inner : ReplayInner) : AsyncCleanupGuard :=
  (AsyncCleanupGuard.disarmed inner.scope).setFdBudget .shared

def arm (inner : ReplayInner) (reservation : MemoryCharge) : Async Unit Value State Unit := do
  let cleanup ← access .lockCleanup
  let cleanup ← Method.ofExcept (cleanup.retain reservation)
  access (.storeCleanup (cleanup.arm inner.dir))

end ReplayInner

/-- A sealed immutable replay. -/
structure Replay where
  inner : ReplayInner
  deriving DecidableEq, Repr

/-- `Replay::close`.  What it has in hand is a scratch owner, once it took one. -/
def Replay.close : Async Unit Value (Option AsyncCleanupGuard) Unit := do
  match ← access .unwrap with
  | none =>
      set (← access .release)
      throw (.error .replayInUse)
  | some cleanup =>
      set (some cleanup)
      Method.within cleanup (fun cleanup _ => some cleanup) AsyncCleanupGuard.cleanup

end SortGovernor.Engine
