import SortGovernor.Engine.Run
import SortGovernor.Sorting.PriorityQueue
import Mathlib.Data.Prod.Lex

/-!
# Bounded cascade merge

A merge keeps one buffered head per run and a heap of their keys.  Files are
merged in groups of at most `fan_in` until no more than `fan_in` remain.
-/

namespace SortGovernor.Engine

open SortGovernor.Resumption SortGovernor.Sorting

variable {Key Value State : Type} [LinearOrder Key] [Layout Key Value]

/-- One merge input: a reader and its buffered head row. -/
structure MergeSource (Key Value : Type) where
  head : Option (RunRow Key Value)
  reader : RunReader
  keyCharge : Option MemoryCharge

namespace MergeSource

omit [LinearOrder Key] in
/-- Open a run and buffer its first row; `none` for an empty run. -/
def «open» (path : ScratchPath) (io : ScopeId) :
    Async Key Value State (Option (MergeSource Key Value)) := do
  let reader ← RunReader.open path io
  let (first, reader) ← Method.call reader RunReader.nextRow
  match first with
  | some head => return some { head := some head, reader, keyCharge := none }
  | none => return none

/-- Return the buffered head and refill it from the run. -/
def takeHead : Async Key Value (MergeSource Key Value) (RunRow Key Value) := do
  match (← get).head with
  | none => throw (.panic "take_head on exhausted source")
  | some row =>
      modify fun source => { source with head := none }
      let next ← Method.within (← get).reader (fun reader source => { source with reader })
        RunReader.nextRow
      modify fun source => { source with head := next }
      return row

end MergeSource

structure HeapEntry (Key : Type) where
  key : Key
  idx : Nat

/-- The derived order of heap entries: by key, then by source index. -/
def HeapEntry.rank (entry : HeapEntry Key) : Key ×ₗ Nat := toLex (entry.key, entry.idx)

/-- The running k-way merge over a fixed set of sources. -/
structure MergeState (Key Value : Type) where
  sources : List (MergeSource Key Value)
  heap : List (HeapEntry Key)
  dedup : Bool
  lastKey : Option (Key × MemoryCharge)
  arrays : MemoryCharge

namespace MergeState

def new (capacity : Nat) (dedup : Bool) : Async Key Value State (MergeState Key Value) := do
  let sourceBytes ← orError (checkedMul usizeMax capacity (Layout.sourceSize Key Value)) .runLimit
  let heapBytes ← orError (checkedMul usizeMax capacity (Layout.heapEntrySize Key Value)) .runLimit
  let bytes ← orError (checkedAdd usizeMax sourceBytes heapBytes) .runLimit
  let arrays ← reserve bytes
  return { sources := [], heap := [], dedup, lastKey := none, arrays }

def pushSource (state : MergeState Key Value) (source : MergeSource Key Value) :
    Async Key Value State (MergeState Key Value) := do
  match source.head with
  | some head =>
      let charge ← reserve head.retainedBytes
      return { state with
        heap := { key := head.key, idx := state.sources.length } :: state.heap
        sources := state.sources ++ [{ source with keyCharge := some charge }] }
  | none => return { state with sources := state.sources ++ [source] }

def openSources (io : ScopeId) :
    List ScratchPath → MergeState Key Value → Async Key Value State (MergeState Key Value)
  | [], state => return state
  | path :: paths, state => do
      match ← MergeSource.open path io with
      | some source => openSources io paths (← state.pushSource source)
      | none => openSources io paths state

def «open» (paths : List ScratchPath) (dedup : Bool) (io : ScopeId) :
    Async Key Value State (MergeState Key Value) := do
  openSources io paths (← new paths.length dedup)

/-- Rows still to come, buffered or on disk. -/
def rowsLeft (state : MergeState Key Value) : Nat :=
  (state.sources.map fun source => source.head.toList.length + source.reader.remaining).sum

def setSource (state : MergeState Key Value) (idx : Nat) (source : MergeSource Key Value) :
    MergeState Key Value :=
  { state with sources := state.sources.set idx source }

/-- The source of a heap entry; the slice index panics out of bounds. -/
def source (idx : Nat) : Async Key Value (MergeState Key Value) (MergeSource Key Value) := do
  match (← get).sources[idx]? with
  | some source => return source
  | none => throw (.panic "index out of bounds")

def refill (idx : Nat) : Async Key Value (MergeState Key Value) Unit := do
  let source ← source idx
  match source.head with
  | none => return ()
  | some head =>
      let charge ← reserve head.retainedBytes
      modify fun state => state.setSource idx { source with keyCharge := some charge }
      modify fun state => { state with heap := { key := head.key, idx } :: state.heap }

/-- One turn of the loop of `next_row`: the row taken, or `none` at the end. -/
def takeNext : Async Key Value (MergeState Key Value) (Option (RunRow Key Value)) := do
  match popMin HeapEntry.rank (← get).heap with
  | none => return none
  | some (entry, heap) =>
      modify fun state => { state with heap }
      let source ← source entry.idx
      modify fun state => state.setSource entry.idx { source with keyCharge := none }
      let row ← Method.within { source with keyCharge := none }
        (fun source state => state.setSource entry.idx source) MergeSource.takeHead
      refill entry.idx
      return some row

/-- The loop of `next_row`; every turn takes a row, so `rowsLeft + 1` turns suffice. -/
def nextRowLoop : Nat → Async Key Value (MergeState Key Value) (Option (RunRow Key Value))
  | 0 => throw .diverged
  | turns + 1 => do
      match ← takeNext with
      | none => return none
      | some row =>
          if (← get).dedup then
            if (← get).lastKey.any fun last => last.1 = row.key then
              nextRowLoop turns
            else
              let charge ← reserve row.retainedBytes
              modify fun state => { state with lastKey := some (row.key, charge) }
              return some row
          else
            return some row

/-- Emit the next row in key order, collapsing equal keys when `dedup`. -/
def nextRow : Async Key Value (MergeState Key Value) (Option (RunRow Key Value)) := do
  nextRowLoop ((← get).rowsLeft + 1)

end MergeState

/-- Write every remaining row of a merge; the loop of `merge_group_to_file`. -/
def drainInto : Nat → MergeState Key Value → RunWriter → Async Key Value State RunWriter
  | 0, _, _ => throw .diverged
  | turns + 1, state, writer => do
      match ← Method.call state MergeState.nextRow with
      | (none, _) => return writer
      | (some row, state) => drainInto turns state (← writer.writeRow row)

def removeInputs : List ScratchPath → Async Key Value State Unit
  | [] => return ()
  | path :: paths => do
      awaitDirect (.removeIfExists path)
      removeInputs paths

/-- Merge a group of runs into one new run file, deleting the inputs. -/
def mergeGroupToFile (paths : List ScratchPath) (out : ScratchPath) (dedup : Bool)
    (io : ScopeId) : Async Key Value State ScratchPath := do
  let state : MergeState Key Value ← MergeState.open paths dedup io
  let writer ← RunWriter.create out io
  let writer ← drainInto (state.rowsLeft + 1) state writer
  let merged ← writer.finish
  removeInputs paths
  return merged

/-- `slice::chunks`, for a positive size. -/
def chunks {Item : Type} (size : Nat) (items : List Item) : List (List Item) :=
  go items.length items
where
  go : Nat → List Item → List (List Item)
    | 0, _ => []
    | _ + 1, [] => []
    | fuel + 1, items => items.take size :: go fuel (items.drop size)

/-- A group of one run is passed on, a longer one merged. -/
def mergeGroup (dir : ScratchDir) (io : ScopeId) (pass group : Nat) :
    List ScratchPath → Async Key Value State ScratchPath
  | [path] => return path
  | paths => mergeGroupToFile paths { dir, file := .merge pass group } false io

def mergeGroups (dir : ScratchDir) (io : ScopeId) (pass : Nat) :
    Nat → List (List ScratchPath) → Async Key Value State (List ScratchPath)
  | _, [] => return []
  | group, paths :: groups => do
      let path ← mergeGroup dir io pass group paths
      let next ← mergeGroups dir io pass (group + 1) groups
      return path :: next

/-- The passes of the cascade; each one shortens the list. -/
def cascade (dir : ScratchDir) (io : ScopeId) (fanIn : Nat) :
    Nat → Nat → List ScratchPath → Async Key Value State (List ScratchPath)
  | 0, _, _ => throw .diverged
  | turns + 1, pass, runs =>
      if runs.length > fanIn then do
        cascade dir io fanIn turns (pass + 1) (← mergeGroups dir io pass 0 (chunks fanIn runs))
      else
        return runs

end SortGovernor.Engine
