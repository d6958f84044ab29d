import SortGovernor.Engine.Run
import SortGovernor.Replay.Storage

/-!
# Replay cursors

A cursor is a checkpoint: the position of the next row and the offset of its
frame.  No file stays open between two reads.
-/

namespace SortGovernor.Engine

open SortGovernor.Resumption

variable {Value State : Type}

/-- One demand-driven read from a complete replay prefix. -/
inductive ReplayStep (Value : Type) where
  | item (value : Value)
  | awaitingAppend
  | exhausted
  deriving DecidableEq, Repr

structure ReplayCursor where
  inner : ReplayInner
  offset : Nat
  position : Nat
  deriving DecidableEq, Repr

namespace ReplayCursor

def new (inner : ReplayInner) : ReplayCursor := { inner, offset := 8, position := 0 }

def rewind (cursor : ReplayCursor) : ReplayCursor := { cursor with offset := 8, position := 0 }

variable [Layout Unit Value]

def nextCommitted : Async Unit Value ReplayCursor (ReplayStep Value) := do
  let cursor ← get
  let (published, complete) ← Publication.snapshot
  if published ≤ cursor.position then
    return if complete then .exhausted else .awaitingAppend
  else
    let path := cursor.inner.path
    let _ ← reserve (Layout.pathCapacity Unit Value path + Layout.readerSize Unit Value)
    let reader := RunReader.fromPosition path cursor.offset 1 cursor.inner.scope
    let (row, reader) ← Method.call reader
      (RunReader.nextRow : Async Unit Value RunReader (Option (RunRow Unit Value)))
    let row ← orError row (.decode "committed replay row is missing")
    let _ ← Publication.snapshot
    let position ← orError (checkedAdd u64Max cursor.position 1) .runLimit
    set { cursor with offset := reader.offset, position }
    return .item row.value

/-- One turn of the loop in `next`; `none` goes round again. -/
def nextTurn : Async Unit Value ReplayCursor (Option (Option Value)) := do
  let changed ← access .notified
  match ← nextCommitted with
  | .item value => return some (some value)
  | .exhausted => return some none
  | .awaitingAppend =>
      access (.changed changed)
      return none

end ReplayCursor

/-- `Replay::cursor` -/
def Replay.cursor (replay : Replay) : Async Unit Value State ReplayCursor := do
  access .retain
  return .new replay.inner

end SortGovernor.Engine
