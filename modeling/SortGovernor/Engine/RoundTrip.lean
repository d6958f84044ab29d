import SortGovernor.Engine.Execute

/-!
# Writing a run file and reading it back

The frames of a run file keep the declared size of each row beside its record.
A reader that stands at a frame reads the rest of the rows in order, wherever
it was built, and then nothing more.
-/

namespace SortGovernor.Engine

open SortGovernor.Resumption SortGovernor.Bytes

variable {Key Value : Type}

/-- What a run file keeps of a row: its record and its declared size. -/
abbrev SizedRecord (Key Value : Type) := Record Key Value × Nat

def RunRow.sized (row : RunRow Key Value) : SizedRecord Key Value :=
  (row.record, row.retainedBytes)

/-- `bytes` is a sequence of frames that hold these records under these sizes. -/
inductive SizedFrames (codec : Codec Key Value) :
    List (SizedRecord Key Value) → List UInt8 → Prop where
  | nil : SizedFrames codec [] []
  | cons {record body weight rows bytes} :
      codec.Encodes record body → body.length ≤ u32Max → weight ≤ u64Max →
      SizedFrames codec rows bytes →
      SizedFrames codec ((record, weight) :: rows) (frameBytes weight body ++ bytes)

theorem SizedFrames.concat {codec : Codec Key Value} {rows : List (SizedRecord Key Value)}
    {bytes body : List UInt8} {record : Record Key Value} {weight : Nat}
    (frames : SizedFrames codec rows bytes) (encodes : codec.Encodes record body)
    (fits : body.length ≤ u32Max) (word : weight ≤ u64Max) :
    SizedFrames codec (rows ++ [(record, weight)]) (bytes ++ frameBytes weight body) := by
  induction frames with
  | nil =>
      have single : SizedFrames codec [(record, weight)] (frameBytes weight body ++ []) :=
        .cons encodes fits word .nil
      rwa [List.append_nil] at single
  | cons first small weighed _ inductionHypothesis =>
      rw [List.append_assoc]
      exact .cons first small weighed inductionHypothesis

theorem readFrame_weight {files files' : Contents} {path : ScratchPath} {rowInline weight : Nat}
    {before body after : List UInt8} {frame : Frame}
    (content : files path = some (before ++ (frameBytes weight body ++ after)))
    (word : weight ≤ u64Max)
    (effect : (FsJob.readFrame path before.length rowInline).Effect files frame files') :
    frame.retainedBytes = weight := by
  obtain ⟨-, bytes, found, -, -, read⟩ := effect
  obtain rfl := Option.some.inj (content.symm.trans found)
  have small : weight < 256 ^ 8 := by
    unfold u64Max at word
    omega
  rw [read, ← List.drop_drop, List.drop_left, frameBytes, List.append_assoc, List.append_assoc,
    List.drop_left' (length_toLittleEndian _ _), List.take_left' (length_toLittleEndian _ _),
    ofLittleEndian_toLittleEndian 8 _ small]

/-- A reader has still to read `rows` of a file. -/
structure RunReader.Faces (codec : Codec Key Value) (files : Contents) (reader : RunReader)
    (rows : List (SizedRecord Key Value)) : Prop where
  remaining : reader.remaining = rows.length
  frames : ∃ before bytes after, files reader.path = some (before ++ bytes ++ after) ∧
    reader.offset = before.length ∧ SizedFrames codec rows bytes

/-- The file of a writer holds `rows` and no count yet. -/
structure RunWriter.Wrote (codec : Codec Key Value) (files : Contents) (writer : RunWriter)
    (rows : List (SizedRecord Key Value)) : Prop where
  count : writer.count = rows.length
  bounded : rows.length ≤ u64Max
  frames : ∃ bytes, files writer.path = some (toLittleEndian 8 0 ++ bytes) ∧
    SizedFrames codec rows bytes

section Calls

variable [Layout Key Value] {codec : Codec Key Value} {world : World} {State : Type} {state : State}

omit [Layout Key Value] in
theorem tolerates_any {initial : World} :
    Tolerates codec initial (fun (_ : State) _ _ => True) (fun _ _ _ => True) state :=
  ⟨fun _ _ _ => trivial, fun _ _ => trivial⟩

/-- What follows from the success of a call, whatever its failures do. -/
def Returns {Result : Type} (codec : Codec Key Value) (method : Async Key Value State Result)
    (state : State) (world : World) (ok : Result → State → World → Prop) : Prop :=
  method.wp (sessionSemantics codec) (fun _ _ _ => True) ok (fun _ _ _ => True) state world

theorem returns_perform {io : ScopeId} {pathBytes : Nat} {held : List MemoryCharge} (job : FsJob)
    {ok : job.Value → State → World → Prop}
    (done : ∀ value fs, job.Completes world.fs (.ok value) fs →
      ok value state { fs, log := world.log ++ [job] }) :
    Returns codec (perform io pathBytes held job) state world ok := by
  refine Method.wp_bind.mpr (wp_orError_of trivial ?_)
  intro bytes _
  refine Method.wp_bind.mpr (wp_reserve trivial (fun _ => trivial) ?_)
  refine Method.wp_bind.mpr (wp_ask.mpr ⟨trivial, ?_⟩)
  rintro reply next (⟨fs, completes, rfl⟩ | ⟨rfl, rfl⟩)
  · refine wp_propagate.mpr ?_
    cases reply with
    | error error => trivial
    | ok value => exact done value fs completes
  · trivial

theorem returns_create {path : ScratchPath} {io : ScopeId} :
    Returns codec (RunWriter.create path io) state world
      fun writer _ world' => writer.path = path ∧ writer.Wrote codec world'.fs.files [] := by
  refine Method.wp_bind.mpr (returns_perform (.create path) ?_)
  intro _ fs completes
  have effect : fs.files = _ := completes.effect
  refine ⟨rfl, rfl, Nat.zero_le _, [], ?_, .nil⟩
  simp only [effect, Function.update_self, List.append_nil]

theorem returns_writeRow {writer : RunWriter} {rows : List (SizedRecord Key Value)}
    {row : RunRow Key Value} (wrote : writer.Wrote codec world.fs.files rows) :
    Returns codec (writer.writeRow row) state world
      fun writer' _ world' => writer'.path = writer.path ∧
        writer'.Wrote codec world'.fs.files (rows ++ [row.sized]) := by
  obtain ⟨count, -, bytes, content, frames⟩ := wrote
  refine Method.wp_bind.mpr (@wp_encode _ _ _ codec world _ _ state world row _ tolerates_any ?_)
  intro body charge encodes
  refine Method.wp_bind.mpr (wp_orError_of trivial ?_)
  intro len lenEq
  refine Method.wp_bind.mpr (wp_orError_of trivial ?_)
  intro weight weightEq
  refine Method.wp_bind.mpr (returns_perform (.append writer.path len weight body) ?_)
  intro _ fs completes
  refine Method.wp_bind.mpr (wp_orError_of trivial ?_)
  intro next nextEq
  obtain ⟨fits, rfl⟩ := tryFrom_eq_some.mp lenEq
  obtain ⟨word, rfl⟩ := tryFrom_eq_some.mp weightEq
  obtain ⟨bounded, rfl⟩ := checkedAdd_eq_some.mp nextEq
  obtain ⟨old, found, effect⟩ := completes.effect
  obtain rfl := Option.some.inj (content.symm.trans found)
  refine ⟨rfl, ?_, ?_, bytes ++ frameBytes row.retainedBytes body, ?_, ?_⟩
  · simp [count]
  · rw [List.length_append, List.length_singleton]
    omega
  · simp only [effect, Function.update_self, frameBytes, List.append_assoc]
  · exact frames.concat encodes fits word

def SizedRun (codec : Codec Key Value) (files : Contents) (path : ScratchPath)
    (rows : List (SizedRecord Key Value)) : Prop :=
  rows.length ≤ u64Max ∧
    ∃ bytes, files path = some (toLittleEndian 8 rows.length ++ bytes) ∧
      SizedFrames codec rows bytes

theorem returns_finish {writer : RunWriter} {rows : List (SizedRecord Key Value)}
    (wrote : writer.Wrote codec world.fs.files rows) :
    Returns codec (writer.finish) state world
      fun path _ world' => path = writer.path ∧ SizedRun codec world'.fs.files path rows := by
  obtain ⟨count, bounded, bytes, content, frames⟩ := wrote
  refine Method.wp_bind.mpr (returns_perform (.patch writer.path writer.count) ?_)
  intro _ fs completes
  obtain ⟨old, found, effect⟩ := completes.effect
  obtain rfl := Option.some.inj (content.symm.trans found)
  refine ⟨rfl, bounded, bytes, ?_, frames⟩
  simp only [effect, Function.update_self, overwrite, count, List.take_zero, List.nil_append,
    Nat.zero_add, length_toLittleEndian]
  rw [List.drop_left' (length_toLittleEndian _ _)]

theorem returns_open {path : ScratchPath} {io : ScopeId} {rows : List (SizedRecord Key Value)}
    (run : SizedRun codec world.fs.files path rows) :
    Returns codec (RunReader.open path io) state world
      fun reader _ world' => world'.fs.files = world.fs.files ∧ reader.path = path ∧
        reader.Faces codec world'.fs.files rows := by
  obtain ⟨bounded, bytes, content, frames⟩ := run
  refine Method.wp_bind.mpr (returns_perform (.readCount path) ?_)
  intro remaining fs completes
  obtain ⟨same, bytes', found, -, count⟩ := completes.effect
  obtain rfl := Option.some.inj (content.symm.trans found)
  have small : rows.length < 256 ^ 8 := by
    unfold u64Max at bounded
    omega
  rw [List.take_left' (length_toLittleEndian _ _), ofLittleEndian_toLittleEndian 8 _ small] at count
  refine ⟨same, rfl, count, toLittleEndian 8 rows.length, bytes, [], ?_, ?_, frames⟩
  · rw [List.append_nil, same]
    exact content
  · simp [RunReader.fromPosition]

/-- What one call of `next_row` gives, and where the reader stands afterwards. -/
def RunReader.Given (codec : Codec Key Value) (reader : RunReader)
    (rows : List (SizedRecord Key Value)) (row : Option (RunRow Key Value)) (reader' : RunReader)
    (world' : World) : Prop :=
  row.map RunRow.sized = rows.head? ∧ reader'.path = reader.path ∧
    reader'.Faces codec world'.fs.files rows.tail

theorem returns_nextRow {reader : RunReader} {rows : List (SizedRecord Key Value)}
    (faces : reader.Faces codec world.fs.files rows) :
    Returns codec RunReader.nextRow reader world fun row reader' world' =>
      world'.fs.files = world.fs.files ∧ reader.Given codec rows row reader' world' := by
  unfold Returns RunReader.nextRow
  refine Method.wp_bind.mpr (Method.wp_get.mpr (Method.wp_ite.mpr ⟨?_, ?_⟩))
  · intro exhausted
    have none : rows = [] := List.eq_nil_of_length_eq_zero (faces.remaining.symm.trans exhausted)
    subst none
    exact ⟨rfl, rfl, rfl, faces⟩
  · intro more
    refine Method.wp_bind.mpr (returns_perform _ ?_)
    intro frame fs completes
    refine Method.wp_bind.mpr (wp_decode trivial ?_)
    intro decoded decodes
    refine Method.wp_bind.mpr (wp_propagate.mpr ?_)
    cases decoded with
    | error text => trivial
    | ok decoded =>
        obtain ⟨remaining, before, bytes, after, content, offset, frames⟩ := faces
        cases frames with
        | nil => exact absurd remaining more
        | @cons record body weight rest bytes encodes fits word frames =>
            rw [List.append_assoc, List.append_assoc] at content
            rw [offset] at completes
            have isBody := readFrame_body content fits completes.effect
            have isWeight := readFrame_weight content word completes.effect
            have same : fs.files = world.fs.files := completes.effect.1
            rw [isBody] at decodes
            have isRecord := codec.decoded_eq encodes decodes
            refine Method.wp_bind.mpr (wp_orError_of trivial ?_)
            intro len lenEq
            refine Method.wp_bind.mpr (wp_orError_of trivial ?_)
            intro next nextEq
            refine ⟨same, ?_, rfl, ?_, ?_⟩
            · simp only [Option.map_some, List.head?_cons, Option.some.injEq]
              exact Prod.ext isRecord isWeight
            · simp only [remaining, List.length_cons, Nat.add_sub_cancel, List.tail_cons]
            · refine ⟨before ++ frameBytes weight body, bytes, after, ?_, ?_, frames⟩
              · rw [same, content]
                simp only [List.append_assoc]
              · have lenIs := (tryFrom_eq_some.mp lenEq).2
                have nextIs := (checkedAdd_eq_some.mp nextEq).2
                simp only [List.length_append, length_frameBytes]
                rw [← nextIs, ← lenIs, isBody, offset]

end Calls

section Runs

variable [Layout Key Value] {codec : Codec Key Value}

/-- `create` and `write_row` for each of the rows, all of them successful. -/
inductive Writes (codec : Codec Key Value) (path : ScratchPath) (io : ScopeId) :
    List (RunRow Key Value) → RunWriter → World → Prop where
  | create {world world' writer} :
      Runs (sessionSemantics codec) ((RunWriter.create path io : Async Key Value Unit _) ()) world
        (.returned (.ok writer, ())) world' →
      Writes codec path io [] writer world'
  | row {rows writer world} {row : RunRow Key Value} {writer' world'} :
      Writes codec path io rows writer world →
      Runs (sessionSemantics codec) ((writer.writeRow row : Async Key Value Unit _) ()) world
        (.returned (.ok writer', ())) world' →
      Writes codec path io (rows ++ [row]) writer' world'

/-- Successful calls of `next_row`, one after another. -/
inductive Draws (codec : Codec Key Value) (reader : RunReader) (world : World) :
    List (Option (RunRow Key Value)) → RunReader → World → Prop where
  | none : Draws codec reader world [] reader world
  | some {drawn reader' world' row reader'' world''} :
      Draws codec reader world drawn reader' world' →
      Runs (sessionSemantics codec) (RunReader.nextRow reader') world'
        (.returned (.ok row, reader'')) world'' →
      Draws codec reader world (drawn ++ [row]) reader'' world''

theorem Writes.wrote {path : ScratchPath} {io : ScopeId} {rows : List (RunRow Key Value)}
    {writer : RunWriter} {world : World} (writes : Writes codec path io rows writer world) :
    writer.path = path ∧ writer.Wrote codec world.fs.files (rows.map RunRow.sized) := by
  induction writes with
  | create run => exact Method.wp_returned returns_create run
  | row _ run inductionHypothesis =>
      obtain ⟨samePath, wrote⟩ := inductionHypothesis
      obtain ⟨samePath', wrote'⟩ := Method.wp_returned (returns_writeRow wrote) run
      rw [List.map_append]
      exact ⟨samePath'.trans samePath, wrote'⟩

theorem Draws.drawn {reader reader' : RunReader} {world world' : World}
    {drawn : List (Option (RunRow Key Value))} {rows : List (SizedRecord Key Value)}
    (draws : Draws codec reader world drawn reader' world')
    (faces : reader.Faces codec world.fs.files rows) :
    (∀ i (inside : i < drawn.length), drawn[i].map RunRow.sized = rows[i]?) ∧
      reader'.path = reader.path ∧ world'.fs.files = world.fs.files ∧
      reader'.Faces codec world'.fs.files (rows.drop drawn.length) := by
  induction draws with
  | none => exact ⟨fun i inside => absurd inside (Nat.not_lt_zero i), rfl, rfl, faces⟩
  | @some drawn reader' world' row reader'' world'' _ run inductionHypothesis =>
      obtain ⟨earlier, samePath, sameFiles, faces'⟩ := inductionHypothesis
      obtain ⟨sameFiles', now, samePath', faces''⟩ :=
        Method.wp_returned (returns_nextRow faces') run
      rw [List.tail_drop] at faces''
      refine ⟨?_, samePath'.trans samePath, sameFiles'.trans sameFiles, ?_⟩
      · intro i inside
        rw [List.length_append, List.length_singleton] at inside
        by_cases last : i < drawn.length
        · rw [List.getElem_append_left last]
          exact earlier i last
        · obtain rfl : i = drawn.length := by omega
          rw [List.getElem_concat_length rfl, now, List.head?_drop]
      · rwa [List.length_append]

/-- A finished run file gives back the rows that were written, in order and with
their declared sizes, and then `None`; a reader built at a reported offset with
the rest of the count gives back the rest of the rows. -/
theorem run_file_round_trip {path path' : ScratchPath} {io io' : ScopeId}
    {rows : List (RunRow Key Value)} {writer : RunWriter} {world₁ world₂ world₃ world₄ : World}
    {reader reader' : RunReader} {drawn : List (Option (RunRow Key Value))}
    (writes : Writes codec path io rows writer world₁)
    (finished : Runs (sessionSemantics codec) ((writer.finish : Async Key Value Unit _) ()) world₁
      (.returned (.ok path', ())) world₂)
    (opened : Runs (sessionSemantics codec) ((RunReader.open path' io' : Async Key Value Unit _) ())
      world₂ (.returned (.ok reader, ())) world₃)
    (draws : Draws codec reader world₃ drawn reader' world₄) :
    path' = path ∧
      (∀ i (inside : i < drawn.length), drawn[i].map RunRow.sized = rows[i]?.map RunRow.sized) ∧
      (drawn.length ≤ rows.length → ∀ io'' drawn' last world₅,
        Draws codec (.fromPosition path reader'.offset (rows.length - drawn.length) io'') world₄
          drawn' last world₅ →
        ∀ i (inside : i < drawn'.length),
          drawn'[i].map RunRow.sized = rows[drawn.length + i]?.map RunRow.sized) := by
  obtain ⟨samePath, wrote⟩ := writes.wrote
  obtain ⟨samePath', run⟩ := Method.wp_returned (returns_finish wrote) finished
  obtain ⟨sameFiles, readerPath, faces⟩ := Method.wp_returned (returns_open run) opened
  obtain ⟨out, lastPath, -, faces'⟩ := draws.drawn faces
  have isPath : path' = path := samePath'.trans samePath
  refine ⟨isPath, ?_, ?_⟩
  · intro i inside
    rw [out i inside, List.getElem?_map]
  · intro within io'' drawn' last world₅ draws' i inside
    have again :
      (RunReader.fromPosition path reader'.offset (rows.length - drawn.length) io'').Faces
        codec world₄.fs.files ((rows.map RunRow.sized).drop drawn.length) := by
      obtain ⟨-, before, bytes, after, content, offset, frames⟩ := faces'
      refine ⟨?_, before, bytes, after, ?_, offset, frames⟩
      · simp [RunReader.fromPosition]
      · rw [← content, lastPath, readerPath, isPath]
        rfl
    rw [(draws'.drawn again).1 i inside, List.getElem?_drop, List.getElem?_map]

def writeAll (pure : PureCodec Key Value) :
    List (RunRow Key Value) → RunWriter → World → Option (RunWriter × World)
  | [], writer, world => some (writer, world)
  | row :: rows, writer, world =>
      match (writer.writeRow row : Async Key Value Unit _).follow pure.policy () world with
      | some ((.ok writer, ()), world) => writeAll pure rows writer world
      | _ => none

theorem writes_of_writeAll {pure : PureCodec Key Value} {path : ScratchPath} {io : ScopeId}
    {before rows : List (RunRow Key Value)} {writer writer' : RunWriter} {world world' : World}
    (writes : Writes pure.codec path io before writer world)
    (written : writeAll pure rows writer world = some (writer', world')) :
    Writes pure.codec path io (before ++ rows) writer' world' := by
  induction rows generalizing before writer world with
  | nil =>
      cases written
      rwa [List.append_nil]
  | cons row rows inductionHypothesis =>
      unfold writeAll at written
      split at written
      · rename_i next middle followed
        have run := Program.runs_of_follow pure.policy_allowed followed
        have rest := inductionHypothesis (.row writes run) written
        rwa [List.append_assoc, List.singleton_append] at rest
      · cases written

/-- Call `next_row` a number of times. -/
def drawAll (pure : PureCodec Key Value) :
    Nat → RunReader → World → Option (List (Option (RunRow Key Value)) × World)
  | 0, _, world => some ([], world)
  | calls + 1, reader, world =>
      match RunReader.nextRow.follow pure.policy reader world with
      | some ((.ok row, reader), world) =>
          (drawAll pure calls reader world).map fun (rows, world) => (row :: rows, world)
      | _ => none

theorem draws_of_drawAll {pure : PureCodec Key Value} {calls : Nat} {reader reader' : RunReader}
    {world world' last : World} {before drawn : List (Option (RunRow Key Value))}
    (draws : Draws pure.codec reader world before reader' world')
    (drew : drawAll pure calls reader' world' = some (drawn, last)) :
    ∃ final, Draws pure.codec reader world (before ++ drawn) final last := by
  induction calls generalizing before drawn reader' world' with
  | zero =>
      cases drew
      rw [List.append_nil]
      exact ⟨reader', draws⟩
  | succ calls inductionHypothesis =>
      unfold drawAll at drew
      split at drew
      · rename_i row next middle followed
        obtain ⟨⟨rest, _⟩, drew', same⟩ := Option.map_eq_some_iff.mp drew
        cases same
        have run := Program.runs_of_follow pure.policy_allowed followed
        obtain ⟨final, more⟩ := inductionHypothesis (.some draws run) drew'
        rw [List.append_assoc, List.singleton_append] at more
        exact ⟨final, more⟩
      · cases drew

def writeAndRead (pure : PureCodec Key Value) (path : ScratchPath) (rows : List (RunRow Key Value))
    (calls : Nat) (world : World) : Option (List (Option (RunRow Key Value))) := do
  match (RunWriter.create path 0 : Async Key Value Unit _).follow pure.policy () world with
  | some ((.ok writer, ()), world) =>
      let (writer, world) ← writeAll pure rows writer world
      match (writer.finish : Async Key Value Unit _).follow pure.policy () world with
      | some ((.ok path, ()), world) =>
          match (RunReader.open path 0 : Async Key Value Unit _).follow pure.policy () world with
          | some ((.ok reader, ()), world) => (drawAll pure calls reader world).map Prod.fst
          | _ => none
      | _ => none
  | _ => none

theorem exists_of_writeAndRead {pure : PureCodec Key Value} {path : ScratchPath}
    {rows : List (RunRow Key Value)} {calls : Nat} {world : World}
    {drawn : List (Option (RunRow Key Value))}
    (read : writeAndRead pure path rows calls world = some drawn) :
    ∃ writer world₁ path' world₂ reader world₃ reader' world₄,
      Writes pure.codec path 0 rows writer world₁ ∧
      Runs (sessionSemantics pure.codec) ((writer.finish : Async Key Value Unit _) ()) world₁
        (.returned (.ok path', ())) world₂ ∧
      Runs (sessionSemantics pure.codec) ((RunReader.open path' 0 : Async Key Value Unit _) ())
        world₂ (.returned (.ok reader, ())) world₃ ∧
      Draws pure.codec reader world₃ drawn reader' world₄ := by
  unfold writeAndRead at read
  split at read
  · rename_i writer created followed
    obtain ⟨⟨writer', written⟩, wrote, read⟩ := Option.bind_eq_some_iff.mp read
    have writes := writes_of_writeAll
      (.create (Program.runs_of_follow pure.policy_allowed followed)) wrote
    simp only at read
    split at read
    · rename_i path' finished sealed
      split at read
      · rename_i reader opened began
        obtain ⟨⟨rows', last⟩, drew, rfl⟩ := Option.map_eq_some_iff.mp read
        obtain ⟨reader', draws⟩ := draws_of_drawAll .none drew
        exact ⟨writer', written, path', finished, reader, opened, reader', last, writes,
          Program.runs_of_follow pure.policy_allowed sealed,
          Program.runs_of_follow pure.policy_allowed began, draws⟩
      · cases read
    · cases read
  · cases read

def World.prepared : World where
  fs := { dirs := fun _ => true, files := fun _ => none }
  log := []

/-- Two rows of different declared sizes, and the end after them. -/
theorem run_file_round_trip_two :
    ∃ drawn : List (Option (RunRow Nat Nat)),
      writeAndRead byteRows ⟨0, .run 7⟩ [⟨3, 1, 0, 40, none⟩, ⟨2, 5, 1, 9, none⟩] 3 .prepared =
        some drawn ∧ drawn.length = 3 ∧
      ∀ i (inside : i < drawn.length), drawn[i].map RunRow.sized =
        [(⟨3, 1, 0, 40, none⟩ : RunRow Nat Nat), ⟨2, 5, 1, 9, none⟩][i]?.map RunRow.sized := by
  have three : (writeAndRead byteRows ⟨0, .run 7⟩ [⟨3, 1, 0, 40, none⟩, ⟨2, 5, 1, 9, none⟩] 3
      .prepared).map List.length = some 3 := by
    decide +kernel
  obtain ⟨drawn, read, length⟩ := Option.map_eq_some_iff.mp three
  obtain ⟨_, _, _, _, _, _, _, _, writes, finished, opened, draws⟩ := exists_of_writeAndRead read
  obtain ⟨-, rows, -⟩ := run_file_round_trip writes finished opened draws
  exact ⟨drawn, read, length, rows⟩

end Runs

end SortGovernor.Engine
