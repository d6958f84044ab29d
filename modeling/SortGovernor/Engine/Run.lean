import SortGovernor.Engine.Codec

/-!
# Run files

A run file is a `u64` row count followed by frames: a `u32` body length, a
`u64` declared size and the encoded body.  The count is zero until the writer
finishes.  No file stays open between two operations.
-/

namespace SortGovernor.Engine

open SortGovernor.Resumption

variable {Key Value State : Type} [Layout Key Value]

/-- `{value:0width}` -/
def padded (width value : Nat) : String :=
  let digits := toString value
  String.ofList (List.replicate (width - digits.length) '0') ++ digits

def ScratchFile.fileName : ScratchFile → String
  | run ordinal => "run-" ++ padded 20 ordinal ++ ".cbor"
  | carry ordinal level => "carry-" ++ padded 20 ordinal ++ "-" ++ padded 2 level ++ ".cbor"
  | merge pass group => "merge-" ++ padded 3 pass ++ "-" ++ padded 5 group ++ ".cbor"
  | rows => "rows.cbor"

def ScratchPath.display (Key Value : Type) [Layout Key Value] (path : ScratchPath) : String :=
  Layout.dirDisplay Key Value path.dir ++ "/" ++ path.file.fileName

structure RunWriter where
  path : ScratchPath
  count : Nat
  io : ScopeId

namespace RunWriter

def create (path : ScratchPath) (io : ScopeId) : Async Key Value State RunWriter := do
  perform io (Layout.pathCapacity Key Value path) [] (.create path)
  return { path, count := 0, io }

def writeRow (writer : RunWriter) (row : RunRow Key Value) :
    Async Key Value State RunWriter := do
  let (bytes, charge) ← encode row
  let len ← orError (tryFrom u32Max bytes.length)
    (.encode "out of range integral type conversion attempted")
  let weight ← orError (tryFrom u64Max row.retainedBytes) .runLimit
  perform writer.io (Layout.pathCapacity Key Value writer.path) [charge]
    (.append writer.path len weight bytes)
  let count ← orError (checkedAdd u64Max writer.count 1) .runLimit
  return { writer with count }

def finish (writer : RunWriter) : Async Key Value State ScratchPath := do
  perform writer.io (Layout.pathCapacity Key Value writer.path) []
    (.patch writer.path writer.count)
  return writer.path

end RunWriter

structure RunReader where
  path : ScratchPath
  offset : Nat
  remaining : Nat
  io : ScopeId

namespace RunReader

def fromPosition (path : ScratchPath) (offset remaining : Nat) (io : ScopeId) : RunReader :=
  { path, offset, remaining, io }

def «open» (path : ScratchPath) (io : ScopeId) : Async Key Value State RunReader := do
  let remaining ← perform io (Layout.pathCapacity Key Value path) [] (.readCount path)
  return fromPosition path 8 remaining io

def nextRow : Async Key Value RunReader (Option (RunRow Key Value)) := do
  let reader ← get
  if reader.remaining = 0 then
    return none
  else
    let frame ← perform reader.io (Layout.pathCapacity Key Value reader.path) []
      (.readFrame reader.path reader.offset (Layout.rowSize Key Value))
    let decoded ← decode frame.bytes
    let (key, value, ordinal) ← propagate (decoded.mapError fun error =>
      .decode (error ++ " (run " ++ reader.path.display Key Value ++ ")"))
    let len ← orError (tryFrom u64Max frame.bytes.length) .runLimit
    let offset ← orError (checkedAdd u64Max reader.offset (12 + len)) .runLimit
    modify fun reader => { reader with offset }
    modify fun reader => { reader with remaining := reader.remaining - 1 }
    return some
      { key, value, ordinal, retainedBytes := frame.retainedBytes, charge := some frame.rowCharge }

end RunReader

end SortGovernor.Engine
