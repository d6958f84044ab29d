import SortGovernor.Engine.Stream
import Mathlib.Data.List.Sort

/-!
# A single sort in flight

Rows are pushed into a charged buffer.  A full buffer is sorted and spilled as
a run, and the runs are compacted like the bits of a binary counter: slot `i`
of the frontier holds one run made of `2 ^ i` original spills.
-/

namespace SortGovernor.Engine

open SortGovernor.Resumption

variable {Key Value : Type} [LinearOrder Key] [Layout Key Value]

structure SortSession (Key Value : Type) where
  plan : SortPlan
  bufferCharge : Option MemoryCharge
  metadataReserved : Bool
  nextRow : Nat
  dir : ScratchDir
  dedup : Bool
  buffer : List (RunRow Key Value)
  bufferCapacity : Nat
  bufferBytes : Nat
  spills : List (Option ScratchPath)
  nextRun : Nat
  failed : Bool
  hold : Option Resource
  cleanup : AsyncCleanupGuard

/-- `u64::BITS`, the number of frontier slots. -/
def frontierSlots : Nat := 64

namespace SortSession

omit [LinearOrder Key] [Layout Key Value] in
/-- `new` followed by `hold_resource`; the scope is the one its guard creates. -/
def new (plan : SortPlan) (dir : ScratchDir) (dedup : Bool) (scope : ScopeId)
    (hold : Option Resource) : SortSession Key Value where
  plan
  bufferCharge := none
  metadataReserved := false
  nextRow := 0
  dir
  dedup
  buffer := []
  bufferCapacity := 0
  bufferBytes := 0
  spills := List.replicate frontierSlots none
  nextRun := 0
  failed := false
  hold
  cleanup := (AsyncCleanupGuard.disarmed scope).setFdBudget .shared

omit [LinearOrder Key] [Layout Key Value] in
def ensureUsable : Async Key Value (SortSession Key Value) Unit := do
  if (← get).failed then throw (.error .sessionFailed) else return ()

/-- The order of `sort_unstable_by`: by key, then by ordinal. -/
def RowLe (left right : RunRow Key Value) : Prop :=
  left.key < right.key ∨ left.key = right.key ∧ left.ordinal ≤ right.ordinal

instance : DecidableRel (@RowLe Key Value _) :=
  fun left right => inferInstanceAs (Decidable
    (left.key < right.key ∨ left.key = right.key ∧ left.ordinal ≤ right.ordinal))

omit [Layout Key Value] in
/-- `sort_unstable_by`.  Ordinals are distinct, so any sorting algorithm gives
this permutation. -/
def sortBuffer (rows : List (RunRow Key Value)) : List (RunRow Key Value) :=
  rows.insertionSort RowLe

omit [LinearOrder Key] in
def reserveMetadata : Async Key Value (SortSession Key Value) Unit := do
  let session ← get
  if session.metadataReserved then
    return ()
  else
    let pathBytes ← orError
      (checkedAdd usizeMax (Layout.dirCapacity Key Value session.dir) 128) .runLimit
    let bytes ← orError
      ((checkedMul usizeMax pathBytes 256).bind fun n =>
        checkedAdd usizeMax n (Layout.sessionSize Key Value)) .runLimit
    let cleanup ← Method.ofExcept (session.cleanup.retain (← reserve bytes))
    modify fun session => { session with cleanup }
    modify fun session => { session with metadataReserved := true }

omit [LinearOrder Key] in
def growBuffer : Async Key Value (SortSession Key Value) Unit := do
  let session ← get
  if session.buffer.length < session.bufferCapacity then
    return ()
  else
    let capacity ← orError (checkedMul usizeMax (max session.bufferCapacity 1) 2) .runLimit
    let bytes ← orError (checkedMul usizeMax capacity (Layout.rowSize Key Value)) .runLimit
    let charge ← reserve bytes
    modify fun session => { session with bufferCapacity := capacity, bufferCharge := some charge }

omit [LinearOrder Key] [Layout Key Value] in
def bufferLimit : Async Key Value (SortSession Key Value) Nat := do
  let limit ← budgetLimit
  let shared := max (min (limit / 8) usizeMax) 1
  match (← get).plan with
  | .inMemory => return min shared (8 * 1024 * 1024)
  | .external runBufferBytes _ => return min shared (max runBufferBytes 1)

omit [LinearOrder Key] in
/-- `for row in &self.buffer { writer.write_row(row).await?; }` -/
def writeRows : List (RunRow Key Value) → RunWriter →
    Async Key Value (SortSession Key Value) RunWriter
  | [], writer => return writer
  | row :: rows, writer => do
      writeRows rows (← writer.writeRow row)

/-- The carry loop over the frontier: `before` are the slots already passed,
`slots` those from `level` on. -/
def carry (ordinal : Nat) : (level : Nat) → (before slots : List (Option ScratchPath)) →
    (run : ScratchPath) → Async Key Value (SortSession Key Value) Unit
  | _, _, [], _ =>
      throw (.panic "a checked u64 spill count always fits in 64 frontier levels")
  | _, before, none :: after, run => do
      modify fun session => { session with spills := before ++ some run :: after }
      modify fun session => { session with failed := false }
  | level, before, some older :: after, run => do
      modify fun session => { session with spills := before ++ none :: after }
      let session ← get
      let output := { dir := session.dir, file := .carry ordinal level }
      let run ← mergeGroupToFile [older, run] output false session.cleanup.scope
      carry ordinal (level + 1) (before ++ [none]) after run

/-- Sort and write the current buffer to a new run file. -/
def spill : Async Key Value (SortSession Key Value) Unit := do
  if (← get).buffer.isEmpty then
    return ()
  else
    modify fun session => { session with failed := true }
    let ordinal := (← get).nextRun
    let nextRun ← orError (checkedAdd u64Max ordinal 1) .runLimit
    modify fun session => { session with nextRun }
    modify fun session => { session with buffer := sortBuffer session.buffer }
    modify fun session => { session with cleanup := session.cleanup.arm session.dir }
    let session ← get
    perform session.cleanup.scope (Layout.dirCapacity Key Value session.dir) []
      (.ensureDir session.dir)
    let writer ← RunWriter.create { dir := session.dir, file := .run ordinal }
      session.cleanup.scope
    let writer ← writeRows session.buffer writer
    let run ← writer.finish
    modify fun session =>
      { session with buffer := [], bufferCapacity := 0, bufferCharge := none, bufferBytes := 0 }
    carry ordinal 0 [] (← get).spills run

omit [LinearOrder Key] [Layout Key Value] in
/-- Whether a row of `bytes` would overflow the buffer that already holds rows. -/
def overflowsBuffer (bytes : Nat) : Async Key Value (SortSession Key Value) Bool := do
  let session ← get
  if session.buffer.isEmpty then
    return false
  else
    match checkedAdd usizeMax session.bufferBytes bytes with
    | none => return true
    | some sum => return decide (sum > (← bufferLimit))

omit [LinearOrder Key] in
/-- Store an admitted row at the end of the buffer. -/
def storeRow (key : Key) (value : Value) (bytes : Nat) (charge : MemoryCharge) :
    Async Key Value (SortSession Key Value) Unit := do
  let ordinal := (← get).nextRow
  let nextRow ← orError (checkedAdd u64Max ordinal 1) .runLimit
  modify fun session => { session with nextRow }
  let row : RunRow Key Value :=
    { key, value, ordinal, retainedBytes := bytes, charge := some charge }
  modify fun session => { session with buffer := session.buffer ++ [row] }
  let bufferBytes ← orError (checkedAdd usizeMax (← get).bufferBytes bytes) .runLimit
  modify fun session => { session with bufferBytes }

/-- Push one row with its retained bytes.  Spills the current run first when
the row would overflow it, and afterwards when it is full. -/
def pushWithSize (key : Key) (value : Value) (estimatedBytes : UInt64) :
    Async Key Value (SortSession Key Value) Unit := do
  ensureUsable
  reserveMetadata
  let bytes := max estimatedBytes.toNat (Layout.rowSize Key Value)
  let charge ← reserve bytes
  (if ← overflowsBuffer bytes then spill else pure ())
  growBuffer
  storeRow key value bytes charge
  (if (← get).bufferBytes ≥ (← bufferLimit) then spill else pure ())

def push (key : Key) (value : Value) : Async Key Value (SortSession Key Value) Unit :=
  pushWithSize key value (UInt64.ofNat (max (Layout.pairSize Key Value) 1))

omit [LinearOrder Key] [Layout Key Value] in
/-- Stream the sorted in-memory buffer; the session keeps nothing of it. -/
def inMemoryStream : Async Key Value (SortSession Key Value) (ValueStream Key Value) := do
  let session ← get
  modify fun session => { session with buffer := [], hold := none, bufferCharge := none }
  modify fun session => { session with cleanup := { session.cleanup with reservation := none } }
  return .inMemory session.dedup session.buffer none session.hold session.bufferCharge
    session.cleanup.reservation

/-- Spill what is left and hand the frontier, oldest run first, to the cascade. -/
def mergeStream (fanIn : Nat) :
    Async Key Value (SortSession Key Value) (ValueStream Key Value) := do
  (if (← get).buffer.isEmpty then pure () else spill)
  let hold := (← get).hold
  modify fun session => { session with hold := none }
  let spills := (← get).spills.reverse.filterMap id
  modify fun session => { session with spills := session.spills.map fun _ => none }
  let session ← get
  -- the future owns session and guard together, so its guard is still the session's here
  Method.within session.cleanup (fun cleanup session => { session with cleanup })
    (cascadeAndStream spills (max fanIn 2) session.dir session.dedup hold)

/-- Finish the sort, returning a stream of values in key order. -/
def finish : Async Key Value (SortSession Key Value) (ValueStream Key Value) := do
  ensureUsable
  modify fun session => { session with buffer := sortBuffer session.buffer }
  let session ← get
  match session.plan with
  | .inMemory => if session.nextRun = 0 then inMemoryStream else mergeStream 2
  | .external _ maxFanIn =>
      if session.nextRun = 0 then inMemoryStream else mergeStream maxFanIn

end SortSession

end SortGovernor.Engine
