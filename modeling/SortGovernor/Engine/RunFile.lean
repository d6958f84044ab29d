import SortGovernor.Engine.Requests

/-!
# Run files and the records they hold

A run file holds a sequence of records, one to a frame.  Writing appends the
record of a row, reading gives the records back in order, and neither disturbs
another file.
-/

namespace SortGovernor.Engine

open SortGovernor.Resumption SortGovernor.Bytes

variable {Key Value State : Type}

/-- `Unused` from one world to the next. -/
theorem World.Unused.trans {first second third : World} {path : ScratchPath}
    (left : first.Unused second path) (right : second.Unused third path) :
    first.Unused third path :=
  ⟨fun created => left.created (right.created created),
    fun present => left.present (right.present present)⟩

def FsJob.appends (path : ScratchPath) : FsJob → List UInt8
  | .append target len weight bytes =>
      if target = path then toLittleEndian 4 len ++ toLittleEndian 8 weight ++ bytes else []
  | _ => []

namespace World

/-- Everything the jobs so far were to append to a file. -/
def appended (world : World) (path : ScratchPath) : List UInt8 :=
  world.log.flatMap (FsJob.appends path)

/-- `next` comes after `world`: only files in `removed` or `written` differ, and
only files in `written` were created or appended to. -/
structure Follows (removed written : ScratchPath → Prop) (world next : World) : Prop where
  files : ∀ path, ¬removed path → ¬written path → next.fs.files path = world.fs.files path
  appended : ∀ path, ¬written path → next.appended path = world.appended path
  unused : ∀ path, ¬written path → world.Unused next path

/-- Only reading happened in between. -/
abbrev Reads (world next : World) : Prop :=
  Follows (fun _ => False) (fun _ => False) world next

namespace Follows

variable {removed written removed' written' : ScratchPath → Prop} {first second third : World}

theorem refl (world : World) : Follows removed written world world :=
  ⟨fun _ _ _ => rfl, fun _ _ => rfl, fun _ _ => ⟨id, id⟩⟩

theorem trans (left : Follows removed written first second)
    (right : Follows removed written second third) : Follows removed written first third where
  files path kept unwritten :=
    (right.files path kept unwritten).trans (left.files path kept unwritten)
  appended path unwritten := (right.appended path unwritten).trans (left.appended path unwritten)
  unused path unwritten := (left.unused path unwritten).trans (right.unused path unwritten)

theorem mono (follows : Follows removed written first second)
    (moreRemoved : ∀ path, removed path → removed' path)
    (moreWritten : ∀ path, written path → written' path) :
    Follows removed' written' first second where
  files path kept unwritten :=
    follows.files path (fun gone => kept (moreRemoved path gone))
      (fun wrote => unwritten (moreWritten path wrote))
  appended path unwritten := follows.appended path fun wrote => unwritten (moreWritten path wrote)
  unused path unwritten := follows.unused path fun wrote => unwritten (moreWritten path wrote)

theorem of_reads (reads : Reads first second) : Follows removed written first second :=
  reads.mono (fun _ => False.elim) fun _ => False.elim

theorem files_eq (reads : Reads first second) : second.fs.files = first.fs.files :=
  funext fun path => reads.files path not_false not_false

end Follows

/-- From `world` to `next` only files in `written` were created, and whatever is
there now and not in `held'` was there before and not in `held`. -/
structure Advances (written : ScratchPath → Prop) (held held' : List ScratchPath)
    (world next : World) : Prop where
  created : ∀ path, .create path ∈ next.log → .create path ∈ world.log ∨ written path
  present : ∀ path, next.fs.files path ≠ none → path ∉ held' →
    world.fs.files path ≠ none ∧ path ∉ held

namespace Advances

variable {written written' : ScratchPath → Prop} {held held' more more' : List ScratchPath}
  {first second third : World}

theorem refl (world : World) : Advances written held held world world :=
  ⟨fun _ created => .inl created, fun _ present absent => ⟨present, absent⟩⟩

theorem trans (left : Advances written held held' first second)
    (right : Advances written more more' second third)
    (covers : ∀ path ∈ held', path ∈ more ∨ path ∈ more') :
    Advances written (held ++ more) more' first third := by
  constructor
  · intro path created
    obtain created | wrote := right.created path created
    · exact left.created path created
    · exact .inr wrote
  · intro path present absent
    obtain ⟨present, notMore⟩ := right.present path present absent
    have notHeld : path ∉ held' := fun member =>
      (covers path member).elim notMore absent
    obtain ⟨present, notHeld⟩ := left.present path present notHeld
    exact ⟨present, fun member => (List.mem_append.mp member).elim notHeld notMore⟩

theorem mono (advances : Advances written held held' first second)
    (wider : ∀ path, written path → written' path) (fewer : more ⊆ held) (others : held' ⊆ more') :
    Advances written' more more' first second := by
  constructor
  · intro path created
    exact (advances.created path created).imp id (wider path)
  · intro path present absent
    obtain ⟨present, notHeld⟩ := advances.present path present fun member => absent (others member)
    exact ⟨present, fun member => notHeld (fewer member)⟩

end Advances

/-- Files that only `written` may add and that are gone in the end. -/
theorem Follows.advances {removed written : ScratchPath → Prop} {held held' : List ScratchPath}
    {first second : World} (follows : Follows removed written first second)
    (wrote : ∀ path, written path → path ∈ held')
    (gone : ∀ path ∈ held, path ∉ held' → second.fs.files path = none) :
    Advances written held held' first second := by
  constructor
  · intro path created
    by_cases own : written path
    · exact .inr own
    · exact .inl ((follows.unused path own).created created)
  · intro path present absent
    refine ⟨(follows.unused path fun own => absent (wrote path own)).present present, ?_⟩
    exact fun member => present (gone path member absent)

/-- The files of `view` are there, with these contents. -/
def Shows (world : World) (view : Contents) : Prop :=
  ∀ path bytes, view path = some bytes → world.fs.files path = some bytes

theorem Shows.after {world next : World} {view : Contents} {removed written : ScratchPath → Prop}
    (shows_ : world.Shows view) (follows : Follows removed written world next)
    (kept : ∀ path, view path ≠ none → ¬removed path ∧ ¬written path) : next.Shows view := by
  intro path bytes content
  have present : view path ≠ none := by simp [content]
  rw [follows.files path (kept path present).1 (kept path present).2]
  exact shows_ path bytes content

theorem Shows.after_reads {world next : World} {view : Contents} (shows_ : world.Shows view)
    (reads : Reads world next) : next.Shows view :=
  shows_.after reads fun _ _ => ⟨not_false, not_false⟩

theorem shows_self (world : World) : world.Shows world.fs.files := fun _ _ content => content

theorem appended_append (world : World) (fs : Fs) (job : FsJob) (path : ScratchPath) :
    appended { fs, log := world.log ++ [job] } path = world.appended path ++ job.appends path := by
  simp [appended, List.flatMap_append]

theorem unused_of_completes {world : World} {job : FsJob} {path : ScratchPath}
    {reply : Except SorterError job.Value} {fs : Fs} (completes : job.Completes world.fs reply fs)
    (untouched : ¬job.Touches path) : world.Unused { fs, log := world.log ++ [job] } path := by
  constructor
  · intro created
    obtain earlier | now := List.mem_append.mp created
    · exact earlier
    · exact absurd rfl (List.mem_singleton.mp now ▸ untouched)
  · intro present
    rwa [completes.files_eq untouched] at present

theorem reads_of_completes {world : World} {job : FsJob} {reply : Except SorterError job.Value}
    {fs : Fs} (completes : job.Completes world.fs reply fs) (untouched : ∀ path, ¬job.Touches path)
    (unappended : ∀ path, job.appends path = []) :
    Reads world { fs, log := world.log ++ [job] } where
  files path _ _ := completes.files_eq (untouched path)
  appended path _ := by rw [appended_append, unappended, List.append_nil]
  unused path _ := unused_of_completes completes (untouched path)

theorem follows_of_completes {world : World} {job : FsJob} {path : ScratchPath}
    {reply : Except SorterError job.Value} {fs : Fs}
    (completes : job.Completes world.fs reply fs)
    (untouched : ∀ other, other ≠ path → ¬job.Touches other)
    (unappended : ∀ other, other ≠ path → job.appends other = []) :
    Follows (fun _ => False) (· = path) world { fs, log := world.log ++ [job] } where
  files other _ different := completes.files_eq (untouched other different)
  appended other different := by
    rw [appended_append, unappended other different, List.append_nil]
  unused other different := unused_of_completes completes (untouched other different)

end World

/-- The rows a reader has still to read are `records`. -/
structure RunReader.Pends (codec : Codec Key Value) (files : Contents) (reader : RunReader)
    (records : List (Record Key Value)) : Prop where
  remaining : reader.remaining = records.length
  frames : ∃ before bytes after, files reader.path = some (before ++ bytes ++ after) ∧
    reader.offset = before.length ∧ Frames codec records bytes

variable {codec : Codec Key Value} {initial : World}
  {issue : State → Request Key Value → World → Prop} {err : Abort → State → World → Prop}
  {state : State} {world : World}

theorem wp_decode {bytes : List UInt8}
    {ok : Except String (Key × Value × Nat) → State → World → Prop}
    (issued : issue state (.deserialize bytes) world)
    (done : ∀ decoded, codec.deserializes bytes decoded → ok decoded state world) :
    (decode bytes : Async Key Value State _).wp (sessionSemantics codec)
        issue ok err state world := by
  refine wp_ask.mpr ⟨issued, ?_⟩
  rintro decoded _ ⟨rfl, decodes⟩
  exact done decoded decodes

theorem readFrame_body {files files' : Contents} {path : ScratchPath} {rowInline weight : Nat}
    {before body after : List UInt8} {frame : Frame}
    (content : files path = some (before ++ (frameBytes weight body ++ after)))
    (fits : body.length ≤ u32Max)
    (effect : (FsJob.readFrame path before.length rowInline).Effect files frame files') :
    frame.bytes = body := by
  rcases effect with ⟨-, bytes, found, -, read, -⟩
  cases content.symm.trans found
  have small : body.length < 256 ^ 4 := by
    unfold u32Max at fits
    omega
  have length : ofLittleEndian (((before ++ (frameBytes weight body ++ after)).drop
      before.length).take 4) = body.length := by
    rw [List.drop_left, frameBytes, List.append_assoc, List.append_assoc,
      List.take_left' (length_toLittleEndian _ _), ofLittleEndian_toLittleEndian 4 _ small]
  rw [read, length, ← List.drop_drop, List.drop_left, frameBytes, List.append_assoc,
    List.append_assoc, ← List.append_assoc, List.drop_left' (by simp), List.take_left]

theorem RunFile.of_shows {view : Contents} {path : ScratchPath} {records : List (Record Key Value)}
    (run : RunFile codec view path records) (visible : world.Shows view) :
    RunFile codec world.fs.files path records := by
  obtain ⟨bounded, bytes, content, frames⟩ := run
  exact ⟨bounded, bytes, visible _ _ content, frames⟩

namespace RunReader

variable [Layout Key Value] {view : Contents}

/-- `next_row` gives the next record and moves past its frame. -/
theorem wp_nextRow {issue : RunReader → Request Key Value → World → Prop}
    {err : Abort → RunReader → World → Prop} {reader : RunReader}
    {records : List (Record Key Value)} {ok : Option (RunRow Key Value) → RunReader → World → Prop}
    (tolerates : ∀ reader, Tolerates codec initial issue err reader) (visible : world.Shows view)
    (pends : reader.Pends codec view records) (ended : records = [] → ok none reader world)
    (read : ∀ (row : RunRow Key Value) rest reader' world', records = row.record :: rest →
      reader'.Pends codec view rest → world.Reads world' →
      ok (some row) reader' world') :
    nextRow.wp (sessionSemantics codec) issue ok err reader world := by
  unfold nextRow
  refine Method.wp_bind.mpr (Method.wp_get.mpr (Method.wp_ite.mpr ⟨?_, ?_⟩))
  · intro exhausted
    refine ended (List.eq_nil_of_length_eq_zero ?_)
    exact pends.remaining.symm.trans exhausted
  · intro more
    refine Method.wp_bind.mpr (wp_perform _ (tolerates _) (fun _ => trivial) ?_)
    intro frame fs completes
    refine Method.wp_bind.mpr (wp_decode ((tolerates _).issue _ _ trivial) ?_)
    intro decoded decodes
    refine Method.wp_bind.mpr (wp_propagate.mpr ?_)
    cases decoded with
    | error text => exact (tolerates _).err _ _
    | ok decoded =>
        rcases pends.frames with ⟨before, bytes, after, content, offset, frames⟩
        have reads : world.Reads { fs, log := world.log ++ [_] } :=
          World.reads_of_completes completes (fun _ => not_false) (fun _ => rfl)
        cases frames with
        | nil => exact absurd pends.remaining more
        | @cons record body weight rest bytes encodes fits frames =>
            rw [List.append_assoc, List.append_assoc] at content
            rw [offset] at completes
            have isBody := readFrame_body (visible _ _ content) fits completes.effect
            rw [isBody] at decodes
            have isRecord := codec.decoded_eq encodes decodes
            refine Method.wp_bind.mpr (wp_orError_of ((tolerates _).err _ _) ?_)
            intro len lenEq
            refine Method.wp_bind.mpr (wp_orError_of ((tolerates _).err _ _) ?_)
            intro next nextEq
            refine read _ rest _ _ ?_ ⟨?_, ?_⟩ reads
            · rw [← isRecord]
              rfl
            · simp only [pends.remaining, List.length_cons, Nat.add_sub_cancel]
            · refine ⟨before ++ frameBytes weight body, bytes, after, ?_, ?_, frames⟩
              · rw [content]
                simp only [List.append_assoc]
              · have lenIs := (tryFrom_eq_some.mp lenEq).2
                have nextIs := (checkedAdd_eq_some.mp nextEq).2
                simp only [List.length_append, length_frameBytes]
                rw [← nextIs, ← lenIs, isBody, offset]

/-- `open` starts at the first record of a finished run. -/
theorem wp_open {path : ScratchPath} {io : ScopeId} {records : List (Record Key Value)}
    {ok : RunReader → State → World → Prop} (tolerates : Tolerates codec initial issue err state)
    (issued : ∀ held, issue state (.perform io held (.readCount path)) world)
    (visible : world.Shows view) (run : RunFile codec view path records)
    (opened : ∀ reader world', reader.Pends codec view records → world.Reads world' →
      ok reader state world') :
    (RunReader.open path io : Async Key Value State RunReader).wp (sessionSemantics codec)
        issue ok err state world := by
  refine Method.wp_bind.mpr
    (wp_perform_of _ (fun _ => tolerates.issue _ _ trivial) issued tolerates.err ?_)
  intro remaining fs completes
  have reads : world.Reads { fs, log := world.log ++ [_] } :=
    World.reads_of_completes completes (fun _ => not_false) (fun _ => rfl)
  rcases run with ⟨bounded, bytes, content, frames⟩
  rcases completes.effect with ⟨-, bytes', found, -, count⟩
  cases (visible _ _ content).symm.trans found
  have small : records.length < 256 ^ 8 := by
    unfold u64Max at bounded
    omega
  rw [List.take_left' (length_toLittleEndian _ _), ofLittleEndian_toLittleEndian 8 _ small] at count
  refine opened _ _ ⟨count, toLittleEndian 8 records.length, bytes, [], ?_, ?_, frames⟩ reads
  · rw [List.append_nil]
    exact content
  · simp [fromPosition]

end RunReader

theorem FrameWriter.write_bytes {writer writer' : FrameWriter} {bytes : List UInt8}
    (written : writer.write bytes = .ok writer') : writer'.bytes = writer.bytes ++ bytes := by
  unfold FrameWriter.write at written
  split at written
  · cases written
  · cases written
    rfl

theorem FrameWriter.writes_bytes {writes : List (List UInt8)} {writer writer' : FrameWriter}
    (written : writes.foldlM FrameWriter.write writer = .ok writer') :
    writer'.bytes = writer.bytes ++ writes.flatten := by
  induction writes generalizing writer with
  | nil =>
      cases written
      exact (List.append_nil _).symm
  | cons bytes writes inductionHypothesis =>
      rw [List.foldlM_cons] at written
      cases first : writer.write bytes with
      | error text =>
          rw [first] at written
          cases written
      | ok middle =>
          rw [first] at written
          rw [inductionHypothesis written, FrameWriter.write_bytes first, List.flatten_cons,
            List.append_assoc]

theorem intoWriter_frame {writer writer' : FrameWriter} {pass : Serialization}
    (written : intoWriter FrameWriter.write writer pass = .ok writer') :
    pass.failure = none ∧ writer'.bytes = writer.bytes ++ pass.bytes := by
  unfold intoWriter at written
  cases all : pass.writes.foldlM FrameWriter.write writer with
  | error text =>
      rw [all] at written
      cases written
  | ok last =>
      rw [all] at written
      cases failure : pass.failure with
      | some text =>
          rw [failure] at written
          cases written
      | none =>
          rw [failure] at written
          cases written
          exact ⟨rfl, FrameWriter.writes_bytes all⟩

theorem wp_serialize {row : RunRow Key Value} {ok : Serialization → State → World → Prop}
    (issued : issue state (.serialize row) world)
    (done : ∀ pass, codec.serializes row pass → ok pass state world) :
    (serialize row : Async Key Value State _).wp (sessionSemantics codec)
        issue ok err state world := by
  refine wp_ask.mpr ⟨issued, ?_⟩
  rintro pass _ ⟨rfl, serialized⟩
  exact done pass serialized

/-- A successful `encode` returns a complete pass over the row. -/
theorem wp_encode {row : RunRow Key Value}
    {ok : List UInt8 × MemoryCharge → State → World → Prop}
    (tolerates : Tolerates codec initial issue err state)
    (done : ∀ bytes charge, codec.Encodes row.record bytes → ok (bytes, charge) state world) :
    (encode row : Async Key Value State _).wp (sessionSemantics codec)
        issue ok err state world := by
  refine Method.wp_bind.mpr (wp_budgetLimit (tolerates.issue _ _ trivial) ?_)
  intro limit
  refine Method.wp_bind.mpr (wp_serialize (tolerates.issue _ _ trivial) ?_)
  intro sizing _
  refine Method.wp_bind.mpr (wp_propagate.mpr ?_)
  cases intoWriter Counter.write _ sizing with
  | error text => exact tolerates.err _ _
  | ok count =>
      refine Method.wp_bind.mpr (Method.wp_bind.mpr (wp_orError_of (tolerates.err _ _) ?_))
      intro working _
      refine wp_reserve (tolerates.issue _ _ trivial) (fun _ => tolerates.err _ _) ?_
      refine Method.wp_bind.mpr (wp_serialize (tolerates.issue _ _ trivial) ?_)
      intro pass serialized
      refine Method.wp_bind.mpr (wp_propagate.mpr ?_)
      cases filled : intoWriter FrameWriter.write
          { bytes := [], capacity := count.bytes, limit := count.bytes } pass with
      | error text => exact tolerates.err _ _
      | ok writer =>
          rcases intoWriter_frame filled with ⟨complete, bytes⟩
          refine Method.wp_ite.mpr ⟨fun _ => tolerates.err _ _, fun _ => ?_⟩
          exact done _ _ ⟨row, pass, serialized, complete, bytes.symm, rfl⟩

/-- The file of a writer holds `records`, all of them appended since the log
held `before` for it, and no count yet. -/
structure RunWriter.Holds (codec : Codec Key Value) (before : List UInt8) (world : World)
    (writer : RunWriter) (records : List (Record Key Value)) : Prop where
  count : writer.count = records.length
  bounded : records.length ≤ u64Max
  frames : ∃ bytes, world.fs.files writer.path = some (toLittleEndian 8 0 ++ bytes) ∧
    world.appended writer.path = before ++ bytes ∧ Frames codec records bytes

namespace RunWriter

variable [Layout Key Value]

theorem wp_create {path : ScratchPath} {io : ScopeId} {ok : RunWriter → State → World → Prop}
    (tolerates : Tolerates codec initial issue err state) (fresh : initial.Unused world path)
    (created : ∀ writer world', writer.path = path →
      writer.Holds codec (world.appended path) world' [] →
      world.Follows (fun _ => False) (· = path) world' → ok writer state world') :
    (RunWriter.create path io : Async Key Value State RunWriter).wp (sessionSemantics codec)
        issue ok err state world := by
  refine Method.wp_bind.mpr (wp_perform (.create path) tolerates (fun _ => fresh) ?_)
  intro _ fs completes
  have effect : fs.files = _ := completes.effect
  refine created _ _ rfl ⟨rfl, Nat.zero_le _, [], ?_, ?_, .nil⟩ ?_
  · simp only [effect, Function.update_self, List.append_nil]
  · rw [World.appended_append]
    rfl
  · exact World.follows_of_completes completes (fun _ different => different) fun _ _ => rfl

theorem wp_writeRow {before : List UInt8} {writer : RunWriter}
    {records : List (Record Key Value)} {row : RunRow Key Value}
    {ok : RunWriter → State → World → Prop} (tolerates : Tolerates codec initial issue err state)
    (holds : writer.Holds codec before world records)
    (written : ∀ writer' world', writer'.path = writer.path →
      writer'.Holds codec before world' (records ++ [row.record]) →
      world.Follows (fun _ => False) (· = writer.path) world' → ok writer' state world') :
    (writer.writeRow row : Async Key Value State RunWriter).wp (sessionSemantics codec)
        issue ok err state world := by
  refine Method.wp_bind.mpr (wp_encode tolerates ?_)
  intro body charge encodes
  refine Method.wp_bind.mpr (wp_orError_of (tolerates.err _ _) ?_)
  intro len lenEq
  refine Method.wp_bind.mpr (wp_orError_of (tolerates.err _ _) ?_)
  intro weight _
  refine Method.wp_bind.mpr (wp_perform (.append writer.path len weight body) tolerates
    (fun _ => trivial) ?_)
  intro _ fs completes
  refine Method.wp_bind.mpr (wp_orError_of (tolerates.err _ _) ?_)
  intro count countEq
  rcases tryFrom_eq_some.mp lenEq with ⟨fits, rfl⟩
  rcases checkedAdd_eq_some.mp countEq with ⟨bounded, rfl⟩
  rcases holds with ⟨sameCount, -, bytes, content, appended, frames⟩
  rcases completes.effect with ⟨old, found, effect⟩
  cases content.symm.trans found
  refine written _ _ rfl ⟨?_, ?_, bytes ++ frameBytes weight body, ?_, ?_, ?_⟩ ?_
  · simp [sameCount]
  · simp only [List.length_append, List.length_singleton]
    omega
  · simp only [effect, Function.update_self, frameBytes, List.append_assoc]
  · rw [World.appended_append, appended]
    simp [FsJob.appends, frameBytes]
  · exact frames.append (.singleton weight encodes fits)
  · refine World.follows_of_completes completes (fun _ different => different) ?_
    intro other different
    simp [FsJob.appends, Ne.symm different]

theorem wp_finish {before : List UInt8} {writer : RunWriter}
    {records : List (Record Key Value)} {ok : ScratchPath → State → World → Prop}
    (tolerates : Tolerates codec initial issue err state)
    (holds : writer.Holds codec before world records)
    (finished : ∀ world', RunFile codec world'.fs.files writer.path records →
      world.Follows (fun _ => False) (· = writer.path) world' →
      world'.appended writer.path = world.appended writer.path →
      ok writer.path state world') :
    (writer.finish : Async Key Value State ScratchPath).wp (sessionSemantics codec)
        issue ok err state world := by
  refine Method.wp_bind.mpr (wp_perform (.patch writer.path writer.count) tolerates
    (fun _ => trivial) ?_)
  intro _ fs completes
  rcases holds with ⟨sameCount, bounded, bytes, content, -, frames⟩
  rcases completes.effect with ⟨old, found, effect⟩
  cases content.symm.trans found
  refine finished _ ⟨bounded, bytes, ?_, frames⟩ ?_ ?_
  · simp only [effect, Function.update_self, overwrite, sameCount, List.take_zero, List.nil_append,
      Nat.zero_add, length_toLittleEndian]
    rw [List.drop_left' (length_toLittleEndian _ _)]
  · exact World.follows_of_completes completes (fun _ different => different) fun _ _ => rfl
  · rw [World.appended_append]
    exact List.append_nil _

end RunWriter

end SortGovernor.Engine
