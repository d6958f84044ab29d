import SortGovernor.Replay.Committed

/-!
# The writing jobs of a replay

A job of the writer makes only calls of its own kind, whatever the world
replies.  Appends and header patches leave the committed frames where they are,
and a job that succeeds has reached its goal.
-/

namespace SortGovernor.Engine

open SortGovernor.Resumption SortGovernor.Bytes

variable {Value : Type}

def FsJob.Uses : FsJob → FileOp → Prop
  | .ensureDir dir, .ensureDir target | .removeDirAll dir, .removeDirAll target => target = dir
  | .create path, .create target | .create path, .writeAt target _ _
  | .create path, .flush target => target = path
  | .append path _ _ _, .open target | .append path _ _ _, .append target _
  | .append path _ _ _, .flush target => target = path
  | .patch path _, .open target | .patch path _, .flush target => target = path
  | .patch path _, .writeAt target offset bytes =>
      target = path ∧ offset = 0 ∧ bytes.length = 8
  | _, _ => False

/-- What a job that succeeds has done to a directory with `rows`. -/
def FsJob.Goal (rows : List (Committed Value)) : FsJob → Fs → Prop
  | .ensureDir dir, fs => fs.dirs dir = true
  | .create path, fs => RowsFile ([] : List (Committed Value)) [] (fs.files path)
  | .append path _ weight bytes, fs => RowsFile rows (frameBytes weight bytes) (fs.files path)
  | .removeDirAll dir, fs => fs.dirs dir = false ∧ ∀ path, path.dir = dir → fs.files path = none
  | _, _ => True

/-- The jobs that change the scratch directory of a replay. -/
def FsJob.Mutates : FsJob → Bool
  | .ensureDir _ | .create _ | .append .. | .patch .. | .removeDirAll _ => true
  | _ => false

/-- A writing job may start: an append counts its bytes and finds the committed
frames and nothing else. -/
def FsJob.Ready (rows : List (Committed Value)) : FsJob → Fs → Prop
  | .append path len _ bytes, fs => len = bytes.length ∧ RowsFile rows [] (fs.files path)
  | _, _ => True

section Calls

variable {job : FsJob} {op : FileOp} {fs fs' : Fs} {rows : List (Committed Value)}

instance : Std.Refl fun _ _ : Fs => True := ⟨fun _ => trivial⟩

instance : IsTrans Fs fun _ _ => True := ⟨fun _ _ _ _ _ => trivial⟩

theorem FsJob.confined_call {Result : Type} {next : op.Value → Job Result} (uses : job.Uses op)
    (rest : ∀ value, Method.Confined fileSemantics job.Uses (fun _ _ => True) (next value)) :
    Method.Confined fileSemantics job.Uses (fun _ _ => True) (Job.call op >>= next) := by
  apply Method.confined_bind
  · apply Method.confined_bind (Method.confined_issue (by exact uses) fun _ _ _ _ => trivial)
    exact fun _ => Method.confined_ofExcept _
  · exact rest

theorem FsJob.confined_last (uses : job.Uses op) :
    Method.Confined fileSemantics job.Uses (fun _ _ => True) (Job.call op) := by
  apply Method.confined_bind (Method.confined_issue (by exact uses) fun _ _ _ _ => trivial)
  exact fun _ => Method.confined_ofExcept _

/-- A writing job makes no other calls. -/
theorem FsJob.body_uses (mutates : job.Mutates = true) :
    Method.Confined fileSemantics job.Uses (fun _ _ => True) job.body := by
  cases job with
  | ensureDir dir | removeDirAll dir => exact confined_last rfl
  | create path =>
      simp only [body, AsyncFile.create, AsyncFile.writeAll, AsyncFile.flush, bind_assoc,
        pure_bind, Bool.false_eq_true, ite_false]
      apply confined_call
      · exact rfl
      intro _
      apply confined_call
      · exact rfl
      intro _
      exact confined_last rfl
  | append path len weight bytes =>
      simp only [body, AsyncFile.openAppend, AsyncFile.writeAll, AsyncFile.flush, bind_assoc,
        pure_bind, ite_true]
      apply confined_call
      · exact rfl
      intro _
      apply confined_call
      · exact rfl
      intro _
      apply confined_call
      · exact rfl
      intro _
      apply confined_call
      · exact rfl
      intro _
      exact confined_last rfl
  | patch path count =>
      simp only [body, AsyncFile.open, AsyncFile.seek, AsyncFile.writeAll, AsyncFile.flush,
        bind_assoc, pure_bind, Bool.false_eq_true, ite_false]
      apply confined_call
      · exact rfl
      intro _
      apply confined_call
      · exact ⟨rfl, rfl, length_toLittleEndian ..⟩
      intro _
      exact confined_last rfl
  | _ => cases mutates

/-- A writing job that succeeds has reached its goal. -/
theorem FsJob.body_goal (ready : job.Ready rows fs) :
    Job.Yields job.body fs fun _ fs' => job.Goal rows fs' := by
  cases job with
  | ensureDir dir =>
      apply Job.yields_call (by simp)
      intro value fs' done
      cases done
      exact Function.update_self ..
  | removeDirAll dir =>
      apply Job.yields_call (by simp)
      intro value fs' done
      cases done
      exact ⟨Function.update_self .., fun path inside => if_pos inside⟩
  | create path =>
      apply Method.wp_post body_yields
      · intro _ _ fs' made
        have content : fs'.files path = some (toLittleEndian 8 0) := by
          rw [show fs'.files = _ from made, Function.update_self]
        exact ⟨toLittleEndian 8 0, length_toLittleEndian .., content⟩
      · exact fun _ _ _ _ => trivial
  | append path len weight bytes =>
      obtain ⟨rfl, header, eight, content⟩ := ready
      apply Method.wp_post body_yields
      · rintro _ _ fs' ⟨old, found, written⟩
        cases content.symm.trans found
        have grown : fs'.files path = some (header ++ (framesOf rows ++ []) ++
            toLittleEndian 4 bytes.length ++ toLittleEndian 8 weight ++ bytes) := by
          rw [written, Function.update_self]
        refine ⟨header, eight, grown.trans ?_⟩
        simp only [frameBytes, List.append_nil, List.append_assoc]
      · exact fun _ _ _ _ => trivial
  | _ => exact Program.wp_of_forall (fun _ _ _ => trivial) (by rintro ⟨_ | _, _⟩ _ <;> trivial)

theorem FsJob.Uses.keepsDirs {path : ScratchPath} (uses : (FsJob.create path).Uses op)
    {reply : Except SorterError op.Value} (step : op.Step fs reply fs') : fs'.dirs = fs.dirs := by
  cases op with
  | create target =>
      obtain ⟨value, effect, -⟩ | ⟨error, -, rfl | ⟨-, rfl⟩⟩ := step
      · obtain ⟨-, rfl⟩ := FileOp.effect_create effect
        rfl
      · rfl
      · rfl
  | writeAt target offset bytes =>
      obtain ⟨value, effect, -⟩ | ⟨error, -, rfl | ⟨old, count, -, rfl⟩⟩ := step
      · obtain ⟨old, -, rfl⟩ := FileOp.effect_writeAt effect
        rfl
      · rfl
      · rfl
  | flush target =>
      obtain ⟨value, effect, -⟩ | ⟨error, -, torn⟩ := step
      · cases effect
        rfl
      · rw [show fs' = fs from torn]
  | _ => cases uses

/-- The calls of a job that only adds to the rows file or rewrites its header. -/
theorem FsJob.Uses.keepsRows {path : ScratchPath} {tail : List UInt8} (uses : job.Uses op)
    (kind : (∃ len weight bytes, job = .append path len weight bytes) ∨
      ∃ count, job = .patch path count)
    {reply : Except SorterError op.Value} (step : op.Step fs reply fs')
    (content : RowsFile rows tail (fs.files path)) :
    (∃ tail', RowsFile rows tail' (fs'.files path)) ∧ fs'.dirs = fs.dirs := by
  obtain ⟨header, eight, content⟩ := content
  have same : fs' = fs → (∃ tail', RowsFile rows tail' (fs'.files path)) ∧ fs'.dirs = fs.dirs := by
    rintro rfl
    exact ⟨⟨tail, header, eight, content⟩, rfl⟩
  obtain ⟨len, weight, bytes, rfl⟩ | ⟨count, rfl⟩ := kind
  · cases op with
    | «open» target =>
        obtain ⟨value, effect, -⟩ | ⟨error, -, torn⟩ := step
        · exact same (FileOp.effect_open effect)
        · exact same torn
    | flush target =>
        obtain ⟨value, effect, -⟩ | ⟨error, -, torn⟩ := step
        · cases effect
          exact same rfl
        · exact same torn
    | append target more =>
        obtain rfl : target = path := uses
        have grows : ∀ more, fs' = fs.write target (header ++ (framesOf rows ++ tail) ++ more) →
            (∃ tail', RowsFile rows tail' (fs'.files target)) ∧ fs'.dirs = fs.dirs := by
          rintro more rfl
          refine ⟨⟨tail ++ more, header, eight, ?_⟩, rfl⟩
          rw [Fs.write_same, List.append_assoc, List.append_assoc]
        obtain ⟨value, effect, -⟩ | ⟨error, -, rfl | ⟨old, count, found, rfl⟩⟩ := step
        · obtain ⟨old, found, rfl⟩ := FileOp.effect_append effect
          cases content.symm.trans found
          exact grows _ rfl
        · exact same rfl
        · cases content.symm.trans found
          exact grows _ rfl
    | _ => cases uses
  · cases op with
    | «open» target =>
        obtain ⟨value, effect, -⟩ | ⟨error, -, torn⟩ := step
        · exact same (FileOp.effect_open effect)
        · exact same torn
    | flush target =>
        obtain ⟨value, effect, -⟩ | ⟨error, -, torn⟩ := step
        · cases effect
          exact same rfl
        · exact same torn
    | writeAt target offset bytes =>
        obtain ⟨rfl, rfl, full⟩ := uses
        have patched : ∀ bytes : List UInt8, bytes.length ≤ 8 →
            fs' = fs.write target (overwrite (header ++ (framesOf rows ++ tail)) 0 bytes) →
            (∃ tail', RowsFile rows tail' (fs'.files target)) ∧ fs'.dirs = fs.dirs := by
          rintro bytes short rfl
          refine ⟨⟨tail, bytes ++ header.drop bytes.length, ?_, ?_⟩, rfl⟩
          · rw [List.length_append, List.length_drop]
            omega
          · rw [Fs.write_same, overwrite, List.take_zero, List.nil_append, Nat.zero_add,
              List.drop_append_of_le_length (by omega), List.append_assoc]
        obtain ⟨value, effect, -⟩ | ⟨error, -, rfl | ⟨old, count, found, rfl⟩⟩ := step
        · obtain ⟨old, found, rfl⟩ := FileOp.effect_writeAt effect
          cases content.symm.trans found
          exact patched bytes full.le rfl
        · exact same rfl
        · cases content.symm.trans found
          exact patched _ (by rw [List.length_take]; omega) rfl
    | _ => cases uses

end Calls

end SortGovernor.Engine
