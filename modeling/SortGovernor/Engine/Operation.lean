import SortGovernor.Engine.Files

/-!
# Requests of the engine and owned filesystem operations

Every effect of the engine is a request: an atomic access, a call into the
serializer, or an operation it awaits.  `perform` and `performReserved` hand a
job to a worker that owns a descriptor permit and a count of its scope;
`direct` awaits a filesystem call in place, outside both.
-/

namespace SortGovernor.Engine

open SortGovernor.Resumption

/-- The one descriptor semaphore a sort shares. -/
inductive Semaphore where
  | shared
  deriving DecidableEq, Repr

abbrev ScopeId := Nat

/-- Removes a scratch directory when cleaned up or dropped. -/
structure AsyncCleanupGuard where
  dir : Option ScratchDir
  scope : ScopeId
  reservation : Option MemoryCharge
  fds : Option Semaphore
  deriving DecidableEq, Repr

inductive PublicationState where
  | writing
  | sealed
  | failed
  deriving DecidableEq, Repr

/-- Accesses to the shared parts of a replay: the publication's atomics and
notifications, the reference count of its storage and its scratch owner.  The
last `release`, and an `unwrap` of the only reference, move that owner out. -/
inductive ReplayRequest where
  | loadState
  | loadRows
  | storeRows (rows : Nat)
  | compareExchange (next : PublicationState)
  | notifyWaiters
  | notified
  | changed (token : Nat)
  | retain
  | release
  | unwrap
  | exclusive
  | lockCleanup
  | storeCleanup (guard : AsyncCleanupGuard)
  deriving DecidableEq, Repr

@[reducible]
def ReplayRequest.Reply : ReplayRequest → Type
  | loadState => PublicationState
  | loadRows => Nat
  | compareExchange _ => Bool
  | notified => Nat
  | release | unwrap => Option AsyncCleanupGuard
  | exclusive => Bool
  | lockCleanup => AsyncCleanupGuard
  | _ => Unit

inductive Request (Key Value : Type) where
  | limit
  | reserve (bytes : Nat)
  | serialize (row : RunRow Key Value)
  | deserialize (bytes : List UInt8)
  | perform (io : ScopeId) (held : List MemoryCharge) (job : FsJob)
  | direct (job : FsJob)
  | idle (io : ScopeId)
  | replay (request : ReplayRequest)

@[reducible]
def Request.Reply {Key Value : Type} : Request Key Value → Type
  | limit => Nat
  | reserve _ => Except SorterError MemoryCharge
  | serialize _ => Serialization
  | deserialize _ => Except String (Key × Value × Nat)
  | perform _ _ job => Except SorterError job.Value
  | direct job => Except SorterError job.Value
  | idle _ => Unit
  | replay request => request.Reply

/-- Requests at which the future suspends; only there can a caller drop it. -/
def Request.awaits {Key Value : Type} : Request Key Value → Bool
  | perform .. | direct _ | idle _ | replay (.changed _) => true
  | _ => false

abbrev engine (Key Value : Type) : Signature where
  Op := Request Key Value
  Reply := Request.Reply

/-- An engine function over `State`, what it borrows mutably. -/
abbrev Async (Key Value State : Type) := Method (engine Key Value) Abort State

/-- Sizes the compiler and the allocator fix for the row types of a sort. -/
class Layout (Key Value : Type) where
  rowSize : Nat
  pairSize : Nat
  sourceSize : Nat
  heapEntrySize : Nat
  sessionSize : Nat
  readerSize : Nat
  replayWriterSize : Nat
  replayInnerSize : Nat
  futureSize : FsJob → Nat
  pathCapacity : ScratchPath → Nat
  dirCapacity : ScratchDir → Nat
  dirDisplay : ScratchDir → String
  rowSize_pos : 0 < rowSize
  rowSize_le : rowSize ≤ usizeMax

variable {Key Value State Result : Type}

def ask (op : Request Key Value) : Async Key Value State op.Reply :=
  Method.issue (show (engine Key Value).Op from op)

/-- `?` on a result of the crate's own error type. -/
def propagate (result : Except SorterError Result) : Async Key Value State Result :=
  Method.ofExcept (result.mapError Abort.error)

def orError (value : Option Result) (error : SorterError) : Async Key Value State Result :=
  Method.okOr value (.error error)

/-- `MemoryBudget::limit` -/
def budgetLimit : Async Key Value State Nat :=
  ask .limit

/-- `MemoryBudget::reserve` -/
def reserve (bytes : Nat) : Async Key Value State MemoryCharge := do
  propagate (← ask (.reserve bytes))

/-- `MemoryBudget::reserve_frame` -/
def reserveFrame (bytes : Nat) : Async Key Value State MemoryCharge := do
  let working ← orError (MemoryBudget.frameBytes bytes) .runLimit
  reserve working

/-- Run a job under a permit and a scope count; `held` are the charges it owns. -/
def performReserved (io : ScopeId) (held : List MemoryCharge) (job : FsJob) :
    Async Key Value State job.Value := do
  propagate (← ask (.perform io held job))

/-- Bookkeeping bytes of one operation: `2 * size_of::<F>() + 3 * path_bytes + 1024`. -/
def metadataBytes (futureBytes pathBytes : Nat) : Option Nat := do
  let size ← checkedMul usizeMax futureBytes 2
  let paths ← checkedMul usizeMax pathBytes 3
  let size ← checkedAdd usizeMax size paths
  checkedAdd usizeMax size 1024

def perform [Layout Key Value] (io : ScopeId) (pathBytes : Nat) (held : List MemoryCharge)
    (job : FsJob) : Async Key Value State job.Value := do
  let bytes ← orError (metadataBytes (Layout.futureSize Key Value job) pathBytes) .runLimit
  let metadata ← reserve bytes
  performReserved io (metadata :: held) job

def awaitDirect (job : FsJob) : Async Key Value State job.Value := do
  propagate (← ask (.direct job))

/-- `IoScope::idle` -/
def scopeIdle (io : ScopeId) : Async Key Value State Unit :=
  ask (.idle io)

end SortGovernor.Engine
