import SortGovernor.Replay.Cursor

/-!
# The writer of a replay

One sequential publisher of complete frames.  A reference that one of its own
calls holds for its duration is not counted: it is gone before the writer's.
-/

namespace SortGovernor.Engine

open SortGovernor.Resumption

variable {Value : Type}

structure ReplayWriter where
  inner : Option ReplayInner
  writer : Option RunWriter
  rows : Nat

namespace ReplayWriter

def new (inner : ReplayInner) : ReplayWriter := { inner := some inner, writer := none, rows := 0 }

def active : Async Unit Value ReplayWriter ReplayInner := do
  orError (← get).inner .sessionFailed

def prefixCursor : Async Unit Value ReplayWriter ReplayCursor := do
  let inner ← active
  access .retain
  tryCatch (do
      let _ ← Publication.snapshot
      return .new inner)
    fun abort => do
      let _ ← access .release
      throw abort

/-- What `prepare` reserves for the scratch metadata. -/
def preparedBytes (dirCapacity writerSize innerSize : Nat) : Option Nat := do
  let size ← checkedAdd usizeMax dirCapacity 128
  let size ← checkedMul usizeMax size 4
  checkedAdd usizeMax size (writerSize + innerSize + 4096)

section

variable [Layout Unit Value]

def prepare : Async Unit Value ReplayWriter Unit := do
  match (← get).writer with
  | some _ => return ()
  | none =>
      let inner ← active
      let bytes ← orError (preparedBytes (Layout.dirCapacity Unit Value inner.dir)
        (Layout.replayWriterSize Unit Value) (Layout.replayInnerSize Unit Value)) .runLimit
      inner.arm (← reserve bytes)
      perform inner.scope (Layout.dirCapacity Unit Value inner.dir) [] (.ensureDir inner.dir)
      let run ← (RunWriter.create inner.path inner.scope : Async Unit Value ReplayWriter RunWriter)
      modify fun writer => { writer with writer := some run }

def appendWithSize (value : Value) (retainedBytes : UInt64) :
    Async Unit Value ReplayWriter Unit := do
  let _ ← active
  Publication.guarded do
    let writer ← get
    let next ← orError (checkedAdd u64Max writer.rows 1) .runLimit
    let retained := max retainedBytes.toNat (Layout.rowSize Unit Value)
    let charge ← reserve retained
    prepare
    let run ← Method.okOr (← get).writer (.panic "prepared replay writer")
    let run ← run.writeRow
      { key := (), value, ordinal := writer.rows, retainedBytes := retained, charge := some charge }
    modify fun writer => { writer with writer := some run }
    modify fun writer => { writer with rows := next }
    Publication.publish next

def «seal» : Async Unit Value ReplayWriter Replay := do
  let _ ← active
  Publication.guarded do
    prepare
    let run ← Method.okOr (← get).writer (.panic "prepared replay writer")
    modify fun writer => { writer with writer := none }
    let _ ← (run.finish : Async Unit Value ReplayWriter ScratchPath)
    Publication.seal
  let inner ← Method.okOr (← get).inner (.panic "active replay owner")
  modify fun writer => { writer with inner := none }
  return { inner }

end

def abort : Async Unit Value ReplayWriter Unit := do
  match (← get).inner with
  | none => return ()
  | some _ =>
      Publication.fail
      modify fun writer => { writer with writer := none }
      if ← access .exclusive then
        let (outcome, cleanup) ← Method.attempt (← access .lockCleanup) AsyncCleanupGuard.cleanup
        access (.storeCleanup cleanup)
        Method.ofExcept outcome
      else
        throw (.error .replayInUse)

/-- `drop`: poison the publication, then give up the reference. -/
def drop : Async Unit Value ReplayWriter (Option AsyncCleanupGuard) := do
  match (← get).inner with
  | none => return none
  | some _ =>
      Publication.fail
      access .release

end ReplayWriter

end SortGovernor.Engine
