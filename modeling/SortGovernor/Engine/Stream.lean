import SortGovernor.Engine.Merge
import SortGovernor.Engine.Cleanup

/-!
# Output streams

A finished sort is a lazily unfolded stream.  A sort that never spilled emits
its sorted buffer; one that did drives the final merge, then removes its
scratch directory.
-/

namespace SortGovernor.Engine

open SortGovernor.Resumption

variable {Key Value State : Type} [LinearOrder Key] [Layout Key Value]

/-- An opaque resource held for the lifetime of a sort, the admission lease. -/
structure Resource where
  id : Nat
  deriving DecidableEq, Repr

/-- What a merging stream holds until it is consumed or dropped. -/
structure StreamHold where
  scratch : AsyncCleanupGuard
  resource : Option Resource

/-- The state of `stream::unfold` between two polls; `ended` once it returned
`None`, with the guard it dropped then. -/
inductive ValueStream (Key Value : Type) where
  | inMemory (dedup : Bool) (rows : List (RunRow Key Value))
      (last : Option (Key × Option MemoryCharge)) (hold : Option Resource)
      (allocation metadata : Option MemoryCharge)
  | merging (state : Option (MergeState Key Value)) (hold : StreamHold) (cleanupReported : Bool)
  | ended (scratch : Option AsyncCleanupGuard)

namespace ValueStream

/-- The loop over the sorted buffer: the next value that is not a repeated key. -/
def nextInMemory (dedup : Bool) : List (RunRow Key Value) → Option (Key × Option MemoryCharge) →
    Option (Value × List (RunRow Key Value) × Option (Key × Option MemoryCharge))
  | [], _ => none
  | row :: rows, last =>
      if dedup && last.any (fun last => last.1 = row.key) then
        nextInMemory dedup rows last
      else
        some (row.value, rows, if dedup then some (row.key, row.charge) else last)

/-- Run the cleanup of the held scratch and report its error once. -/
def finishCleanup (hold : StreamHold) :
    Async Key Value (ValueStream Key Value) (Option (Except SorterError Value)) := do
  let (outcome, scratch) ← Method.attempt hold.scratch AsyncCleanupGuard.cleanup
  match outcome with
  | .ok () =>
      set (ended (some scratch) : ValueStream Key Value)
      return none
  | .error (.error error) =>
      set (merging none { hold with scratch } true : ValueStream Key Value)
      return some (.error error)
  | .error abort => throw abort

/-- One poll to completion: the next item, or `none` at the end. -/
def next : Async Key Value (ValueStream Key Value) (Option (Except SorterError Value)) := do
  match ← get with
  | inMemory dedup rows last hold allocation metadata =>
      match nextInMemory dedup rows last with
      | some (value, rows, last) =>
          set (inMemory dedup rows last hold allocation metadata : ValueStream Key Value)
          return some (.ok value)
      | none =>
          set (ended none : ValueStream Key Value)
          return none
  | merging none hold cleanupReported =>
      if cleanupReported then
        set (ended (some hold.scratch) : ValueStream Key Value)
        return none
      else
        finishCleanup hold
  | merging (some state) hold _ =>
      let (outcome, state) ← Method.attempt state MergeState.nextRow
      match outcome with
      | .ok (some row) =>
          set (merging (some state) hold false : ValueStream Key Value)
          return some (.ok row.value)
      | .ok none => finishCleanup hold
      | .error (.error error) =>
          set (merging none hold false : ValueStream Key Value)
          return some (.error error)
      | .error abort => throw abort
  | ended _ => throw (.panic "`Unfold` must not be polled after it returned `Poll::Ready(None)`")

end ValueStream

/-- `value_stream` -/
def valueStream (state : MergeState Key Value) (scratch : AsyncCleanupGuard)
    (resource : Option Resource) : ValueStream Key Value :=
  .merging (some state) { scratch, resource } false

/-- Fold `runs` down to `fanIn` files at most, then stream the final merge.  The
method's state is the guard the future owns until the stream takes it. -/
def cascadeAndStream (runs : List ScratchPath) (fanIn : Nat) (dir : ScratchDir) (dedup : Bool)
    (hold : Option Resource) : Async Key Value AsyncCleanupGuard (ValueStream Key Value) := do
  let io := (← get).scope
  let runs ← cascade dir io fanIn (runs.length + 1) 0 runs
  let state ← MergeState.open runs dedup io
  let guard ← get
  set (AsyncCleanupGuard.disarmed guard.scope)
  return valueStream state guard hold

end SortGovernor.Engine
