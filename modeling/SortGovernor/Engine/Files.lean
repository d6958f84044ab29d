import SortGovernor.Engine.Basic
import SortGovernor.Bytes.LittleEndian
import Mathlib.Logic.Function.Basic

/-!
# Scratch files and filesystem jobs

A job is the body of one owned filesystem operation: a short program over the
calls of `async-fs-io`.  Every call may succeed, or fail and leave a torn
effect on the file it was working on.
-/

namespace SortGovernor.Engine

open SortGovernor.Resumption SortGovernor.Bytes

abbrev ScratchDir := Nat

/-- The file names the engine joins to a scratch directory. -/
inductive ScratchFile where
  | run (ordinal : Nat)
  | carry (ordinal level : Nat)
  | merge (pass group : Nat)
  | rows
  deriving DecidableEq, Repr

structure ScratchPath where
  dir : ScratchDir
  file : ScratchFile
  deriving DecidableEq, Repr

/-- The part of the filesystem the engine uses. -/
structure Fs where
  dirs : ScratchDir → Bool
  files : ScratchPath → Option (List UInt8)

namespace Fs

def withDir (fs : Fs) (dir : ScratchDir) : Fs :=
  { fs with dirs := Function.update fs.dirs dir true }

def without (fs : Fs) (dir : ScratchDir) : Fs where
  dirs := Function.update fs.dirs dir false
  files path := if path.dir = dir then none else fs.files path

def write (fs : Fs) (path : ScratchPath) (bytes : List UInt8) : Fs :=
  { fs with files := Function.update fs.files path (some bytes) }

def remove (fs : Fs) (path : ScratchPath) : Fs :=
  { fs with files := Function.update fs.files path none }

@[simp]
theorem write_same (fs : Fs) (path : ScratchPath) (bytes : List UInt8) :
    (fs.write path bytes).files path = some bytes := by
  simp [write]

@[simp]
theorem write_write (fs : Fs) (path : ScratchPath) (first second : List UInt8) :
    (fs.write path first).write path second = fs.write path second := by
  simp [write]

end Fs

/-- Replace the bytes from `offset` on, as far as `patch` reaches. -/
def overwrite (bytes : List UInt8) (offset : Nat) (patch : List UInt8) : List UInt8 :=
  bytes.take offset ++ patch ++ bytes.drop (offset + patch.length)

/-- The calls a job makes. -/
inductive FileOp where
  | ensureDir (dir : ScratchDir)
  | removeDirAll (dir : ScratchDir)
  | removeIfExists (path : ScratchPath)
  | create (path : ScratchPath)
  | open (path : ScratchPath)
  | append (path : ScratchPath) (bytes : List UInt8)
  | writeAt (path : ScratchPath) (offset : Nat) (bytes : List UInt8)
  | readExact (path : ScratchPath) (offset count : Nat)
  | flush (path : ScratchPath)
  | reserve (bytes : Nat)

namespace FileOp

@[reducible]
def Value : FileOp → Type
  | readExact .. => List UInt8
  | reserve _ => MemoryCharge
  | _ => Unit

/-- The effect of a call that succeeds; `none` where it cannot. -/
def effect : (op : FileOp) → Fs → Option (op.Value × Fs)
  | ensureDir dir, fs => some ((), fs.withDir dir)
  | removeDirAll dir, fs => some ((), fs.without dir)
  | removeIfExists path, fs => some ((), fs.remove path)
  | create path, fs => if fs.dirs path.dir then some ((), fs.write path []) else none
  | .open path, fs => (fs.files path).map fun _ => ((), fs)
  | append path bytes, fs => (fs.files path).map fun old => ((), fs.write path (old ++ bytes))
  | writeAt path offset bytes, fs =>
      (fs.files path).map fun old => ((), fs.write path (overwrite old offset bytes))
  | readExact path offset count, fs =>
      (fs.files path).bind fun bytes =>
        if offset + count ≤ bytes.length then some ((bytes.drop offset).take count, fs) else none
  | flush _, fs => some ((), fs)
  | reserve _, _ => none

/-- What a failing call may leave behind: a prefix of its writes, or a part of
the files it was removing. -/
def Torn : FileOp → Fs → Fs → Prop
  | ensureDir dir, fs, fs' => fs' = fs ∨ fs' = fs.withDir dir
  | removeDirAll dir, fs, fs' =>
      fs'.dirs = fs.dirs ∧ ∀ path, fs'.files path = fs.files path ∨
        path.dir = dir ∧ fs'.files path = none
  | removeIfExists path, fs, fs' => fs' = fs ∨ fs' = fs.remove path
  | create path, fs, fs' => fs' = fs ∨ fs.dirs path.dir ∧ fs' = fs.write path []
  | append path bytes, fs, fs' =>
      fs' = fs ∨ ∃ old count, fs.files path = some old ∧
        fs' = fs.write path (old ++ bytes.take count)
  | writeAt path offset bytes, fs, fs' =>
      fs' = fs ∨ ∃ old count, fs.files path = some old ∧
        fs' = fs.write path (overwrite old offset (bytes.take count))
  | _, fs, fs' => fs' = fs

def Touches : FileOp → ScratchPath → Prop
  | removeDirAll dir, path => path.dir = dir
  | removeIfExists target, path => path = target
  | create target, path => path = target
  | append target _, path => path = target
  | writeAt target _ _, path => path = target
  | _, _ => False

end FileOp

abbrev fileCalls : Signature where
  Op := FileOp
  Reply op := Except SorterError op.Value

/-- A reservation inside a job is one admission at some reading of the budget;
every other call succeeds with its effect or fails with an I/O error. -/
def FileOp.Step : (op : FileOp) → Fs → Except SorterError op.Value → Fs → Prop
  | .reserve bytes, fs, reply, fs' =>
      fs' = fs ∧ ∃ limit used, reply = MemoryBudget.reserve limit used bytes
  | op, fs, reply, fs' =>
      (∃ value, op.effect fs = some (value, fs') ∧ reply = .ok value) ∨
        ∃ error, reply = .error (.io error) ∧ op.Torn fs fs'

/-- A worker that dies stops between two calls. -/
def fileSemantics : Semantics fileCalls Fs where
  reply := FileOp.Step
  drop _ fs fs' := fs' = fs

abbrev Job := Method fileCalls SorterError Unit

namespace Job

def call (op : FileOp) : Job op.Value := do
  Method.ofExcept (← Method.issue (show fileCalls.Op from op))

end Job

/-- An open file: where the next read or write goes. -/
structure AsyncFile where
  path : ScratchPath
  append : Bool
  position : Nat

namespace AsyncFile

def create (path : ScratchPath) : Job AsyncFile := do
  Job.call (.create path)
  return { path, append := false, position := 0 }

def «open» (path : ScratchPath) : Job AsyncFile := do
  Job.call (.open path)
  return { path, append := false, position := 0 }

def openAppend (path : ScratchPath) : Job AsyncFile := do
  Job.call (.open path)
  return { path, append := true, position := 0 }

/-- `seek(SeekFrom::Start(position))` -/
def seek (file : AsyncFile) (position : Nat) : AsyncFile :=
  { file with position }

def writeAll (file : AsyncFile) (bytes : List UInt8) : Job AsyncFile :=
  if file.append then do
    Job.call (.append file.path bytes)
    return file
  else do
    Job.call (.writeAt file.path file.position bytes)
    return { file with position := file.position + bytes.length }

def readExact (file : AsyncFile) (count : Nat) : Job (List UInt8 × AsyncFile) := do
  let bytes ← Job.call (.readExact file.path file.position count)
  return (bytes, { file with position := file.position + count })

def flush (file : AsyncFile) : Job Unit := Job.call (.flush file.path)

end AsyncFile

/-- One frame as a read job hands it over, with the charges it was read under. -/
structure Frame where
  bytes : List UInt8
  retainedBytes : Nat
  rowCharge : MemoryCharge
  frameCharge : MemoryCharge
  deriving DecidableEq, Repr

/-- The filesystem operations of the engine. -/
inductive FsJob where
  | ensureDir (dir : ScratchDir)
  | create (path : ScratchPath)
  | append (path : ScratchPath) (len weight : Nat) (bytes : List UInt8)
  | patch (path : ScratchPath) (count : Nat)
  | readCount (path : ScratchPath)
  | readFrame (path : ScratchPath) (offset rowInline : Nat)
  | removeDirAll (dir : ScratchDir)
  | removeIfExists (path : ScratchPath)
  deriving DecidableEq, Repr

namespace FsJob

@[reducible]
def Value : FsJob → Type
  | readCount _ => Nat
  | readFrame .. => Frame
  | _ => Unit

def dir : FsJob → ScratchDir
  | ensureDir dir | removeDirAll dir => dir
  | create path | append path .. | patch path _ | readCount path | readFrame path ..
  | removeIfExists path => path.dir

/-- `budget.reserve_frame(len)` inside a job. -/
def reserveFrame (len : Nat) : Job MemoryCharge := do
  let working ← Method.okOr (MemoryBudget.frameBytes len) .runLimit
  Job.call (.reserve working)

def body : (job : FsJob) → Job job.Value
  | ensureDir dir => Job.call (.ensureDir dir)
  | create path => do
      let file ← AsyncFile.create path
      let file ← file.writeAll (toLittleEndian 8 0)
      file.flush
  | append path len weight bytes => do
      let file ← AsyncFile.openAppend path
      let file ← file.writeAll (toLittleEndian 4 len)
      let file ← file.writeAll (toLittleEndian 8 weight)
      let file ← file.writeAll bytes
      file.flush
  | patch path count => do
      let file ← AsyncFile.open path
      let file ← (file.seek 0).writeAll (toLittleEndian 8 count)
      file.flush
  | readCount path => do
      let file ← AsyncFile.open path
      let (count, _) ← file.readExact 8
      return ofLittleEndian count
  | readFrame path offset rowInline => do
      let file ← AsyncFile.open path
      let file := file.seek offset
      let (length, file) ← file.readExact 4
      let (weight, file) ← file.readExact 8
      let len := ofLittleEndian length
      let retainedBytes := ofLittleEndian weight
      let rowCharge ← Job.call (.reserve (max retainedBytes rowInline))
      let frameCharge ← reserveFrame len
      let (bytes, _) ← file.readExact len
      return { bytes, retainedBytes, rowCharge, frameCharge }
  | removeDirAll dir => Job.call (.removeDirAll dir)
  | removeIfExists path => Job.call (.removeIfExists path)

/-- A job ends with its body, or with a worker error when the worker dies. -/
inductive Completes (job : FsJob) (fs : Fs) : Except SorterError job.Value → Fs → Prop where
  | finished {result fs'} :
      Runs fileSemantics (job.body ()) fs (.returned (result, ())) fs' →
      Completes job fs result fs'
  | died {fs'} (text : String) :
      Runs fileSemantics (job.body ()) fs (.dropped ()) fs' →
      Completes job fs (.error (.worker text)) fs'

end FsJob

end SortGovernor.Engine
