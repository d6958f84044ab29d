import SortGovernor.Engine.Operation

/-!
# The publication of a replay

The single writer publishes a watermark of complete rows and one terminal
state.  Both are atomics that readers load one after the other, so every access
is a request of its own.
-/

namespace SortGovernor.Engine

open SortGovernor.Resumption

variable {Value State Result : Type}

def access (request : ReplayRequest) : Async Unit Value State request.Reply :=
  ask (.replay request)

namespace Publication

/-- The check before a `PublicationGuard` is handed out. -/
def begin : Async Unit Value State Unit := do
  if (← access .loadState) = .writing then
    return ()
  else
    throw (.error .sessionFailed)

def publish (rows : Nat) : Async Unit Value State Unit := do
  if (← access .loadState) = .writing then
    access (.storeRows rows)
    access .notifyWaiters
  else
    throw (.error .sessionFailed)

def «seal» : Async Unit Value State Unit := do
  if ← access (.compareExchange .sealed) then
    access .notifyWaiters
  else
    throw (.error .sessionFailed)

def fail : Async Unit Value State Unit := do
  if ← access (.compareExchange .failed) then
    access .notifyWaiters
  else
    return ()

def snapshot : Async Unit Value State (Nat × Bool) := do
  let state ← access .loadState
  if state = .failed then
    throw (.error .replaySourceFailed)
  else
    let rows ← access .loadRows
    return (rows, decide (state = .sealed))

/-- A body that holds a `PublicationGuard` until it succeeds; dropped before, the
guard fails the publication. -/
def guarded (body : Async Unit Value State Result) : Async Unit Value State Result := do
  begin
  tryCatch body fun abort => do
    fail
    throw abort

end Publication

end SortGovernor.Engine
