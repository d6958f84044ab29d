import SortGovernor.Engine.Files

/-!
# What the filesystem jobs do

A job changes no file but its own, whatever its outcome, and a job that
succeeds has the effect its calls have one after another.
-/

namespace SortGovernor.Engine

open SortGovernor.Resumption SortGovernor.Bytes

namespace FileOp

variable {op : FileOp} {fs fs' : Fs} {path : ScratchPath}

theorem effect_create {target : ScratchPath} {value : (create target).Value}
    (done : (create target).effect fs = some (value, fs')) : fs' = fs.write target [] := by
  simp only [effect, Option.ite_none_right_eq_some, Option.some.injEq] at done
  exact (Prod.ext_iff.mp done.2).2.symm

theorem effect_open {target : ScratchPath} {value : (FileOp.open target).Value}
    (done : (FileOp.open target).effect fs = some (value, fs')) : fs' = fs := by
  simp only [effect, Option.map_eq_some_iff] at done
  rcases done with ⟨_, -, same⟩
  exact (Prod.ext_iff.mp same).2.symm

theorem effect_append {target : ScratchPath} {bytes : List UInt8}
    {value : (append target bytes).Value}
    (done : (append target bytes).effect fs = some (value, fs')) :
    ∃ old, fs.files target = some old ∧ fs' = fs.write target (old ++ bytes) := by
  simp only [effect, Option.map_eq_some_iff] at done
  rcases done with ⟨old, found, same⟩
  exact ⟨old, found, (Prod.ext_iff.mp same).2.symm⟩

theorem effect_writeAt {target : ScratchPath} {offset : Nat} {bytes : List UInt8}
    {value : (writeAt target offset bytes).Value}
    (done : (writeAt target offset bytes).effect fs = some (value, fs')) :
    ∃ old, fs.files target = some old ∧ fs' = fs.write target (overwrite old offset bytes) := by
  simp only [effect, Option.map_eq_some_iff] at done
  rcases done with ⟨old, found, same⟩
  exact ⟨old, found, (Prod.ext_iff.mp same).2.symm⟩

theorem effect_readExact {target : ScratchPath} {offset count : Nat} {value : List UInt8}
    (done : (readExact target offset count).effect fs = some (value, fs')) :
    ∃ bytes, fs.files target = some bytes ∧ offset + count ≤ bytes.length ∧
      value = (bytes.drop offset).take count ∧ fs' = fs := by
  simp only [effect, Option.bind_eq_some_iff, Option.ite_none_right_eq_some,
    Option.some.injEq] at done
  rcases done with ⟨bytes, found, inside, same⟩
  exact ⟨bytes, found, inside, (Prod.ext_iff.mp same).1.symm, (Prod.ext_iff.mp same).2.symm⟩

theorem effect_files_eq {value : op.Value} (done : op.effect fs = some (value, fs'))
    (untouched : ¬op.Touches path) : fs'.files path = fs.files path := by
  cases op with
  | reserve bytes => cases done
  | ensureDir dir | flush target =>
      cases done
      rfl
  | removeDirAll dir | removeIfExists target =>
      cases done
      simp_all [Touches, Fs.without, Fs.remove]
  | create target =>
      rw [effect_create done]
      simp_all [Touches, Fs.write]
  | «open» target => rw [effect_open done]
  | append target bytes =>
      rcases effect_append done with ⟨old, -, rfl⟩
      simp_all [Touches, Fs.write]
  | writeAt target offset bytes =>
      rcases effect_writeAt done with ⟨old, -, rfl⟩
      simp_all [Touches, Fs.write]
  | readExact target offset count =>
      rcases effect_readExact done with ⟨bytes, -, -, -, rfl⟩
      rfl

theorem Torn.files_eq (torn : op.Torn fs fs') (untouched : ¬op.Touches path) :
    fs'.files path = fs.files path := by
  cases op with
  | reserve _ | «open» _ | readExact _ _ _ | flush _ => rw [torn]
  | ensureDir dir => rcases torn with rfl | rfl <;> rfl
  | removeDirAll dir =>
      rcases torn.2 path with same | ⟨inside, -⟩
      · exact same
      · exact absurd inside untouched
  | removeIfExists target =>
      rcases torn with rfl | rfl
      · rfl
      · simp_all [Touches, Fs.remove]
  | create target =>
      rcases torn with rfl | ⟨-, rfl⟩
      · rfl
      · simp_all [Touches, Fs.write]
  | append target bytes | writeAt target offset bytes =>
      rcases torn with rfl | ⟨_, _, _, rfl⟩
      · rfl
      · simp_all [Touches, Fs.write]

theorem Step.files_eq {reply : Except SorterError op.Value} (step : op.Step fs reply fs')
    (untouched : ¬op.Touches path) : fs'.files path = fs.files path := by
  cases op with
  | reserve bytes => rw [step.1]
  | _ =>
      rcases step with ⟨value, done, -⟩ | ⟨error, -, torn⟩
      · exact effect_files_eq done untouched
      · exact torn.files_eq untouched

theorem Step.effect_of_ok {value : op.Value} (step : op.Step fs (.ok value) fs')
    (call : ∀ bytes, op ≠ .reserve bytes) : op.effect fs = some (value, fs') := by
  cases op with
  | reserve bytes => exact absurd rfl (call bytes)
  | _ =>
      rcases step with ⟨value, done, replied⟩ | ⟨error, replied, -⟩
      · cases replied
        exact done
      · cases replied

end FileOp

namespace Job

variable {fs : Fs}

theorem keeps_call {invariant : Fs → Prop} (op : FileOp)
    (step : ∀ fs reply fs', op.Step fs reply fs' → invariant fs → invariant fs') :
    Method.Keeps fileSemantics invariant (Job.call op) :=
  Method.keeps_bind (Method.keeps_issue (show fileCalls.Op from op) step) Method.keeps_ofExcept

/-- What follows from the success of a job, whatever its failures do. -/
def Yields {Result : Type} (job : Job Result) (fs : Fs) (ok : Result → Fs → Prop) : Prop :=
  job.wp fileSemantics (fun _ _ _ => True) (fun result _ fs' => ok result fs')
    (fun _ _ _ => True) () fs

theorem yields_bind {Result Result' : Type} {job : Job Result} {next : Result → Job Result'}
    {ok : Result' → Fs → Prop}
    (holds : Yields job fs fun result fs' => Yields (next result) fs' ok) :
    Yields (job >>= next) fs ok := Method.wp_bind.mpr holds

theorem yields_okOr {Result : Type} {value : Option Result} {error : SorterError}
    {ok : Result → Fs → Prop} (done : ∀ result, ok result fs) :
    Yields (Method.okOr value error) fs ok := by
  cases value with
  | none => trivial
  | some result => exact done result

theorem yields_call {op : FileOp} {ok : op.Value → Fs → Prop}
    (call : ∀ bytes, op ≠ .reserve bytes)
    (done : ∀ value fs', op.effect fs = some (value, fs') → ok value fs') :
    Yields (Job.call op) fs ok := by
  unfold Yields Job.call
  refine Method.wp_bind.mpr (Method.wp_issue.mpr ⟨trivial, ?_⟩)
  intro reply fs' step
  refine Method.wp_ofExcept.mpr ?_
  cases reply with
  | error error => trivial
  | ok value => exact done value fs' (FileOp.Step.effect_of_ok step call)

theorem yields_reserve {bytes : Nat} {ok : MemoryCharge → Fs → Prop}
    (done : ok ⟨bytes⟩ fs) : Yields (Job.call (.reserve bytes)) fs ok := by
  unfold Yields Job.call
  refine Method.wp_bind.mpr (Method.wp_issue.mpr ⟨trivial, ?_⟩)
  rintro reply fs' ⟨rfl, limit, used, rfl⟩
  refine Method.wp_ofExcept.mpr ?_
  unfold MemoryBudget.reserve
  split <;> rename_i admitted
  · split at admitted
    · cases admitted
    · cases admitted
      exact done
  · trivial

end Job

/-- The contents of all files. -/
abbrev Contents := ScratchPath → Option (List UInt8)

namespace FsJob

def Touches : FsJob → ScratchPath → Prop
  | removeDirAll dir, path => path.dir = dir
  | create target, path | append target .., path | patch target _, path
  | removeIfExists target, path => path = target
  | _, _ => False

/-- What a job that succeeds does to the contents of the files. -/
def Effect : (job : FsJob) → Contents → job.Value → Contents → Prop
  | ensureDir _, files, _, files' => files' = files
  | create path, files, _, files' =>
      files' = Function.update files path (some (toLittleEndian 8 0))
  | append path len weight bytes, files, _, files' =>
      ∃ old, files path = some old ∧ files' = Function.update files path
        (some (old ++ toLittleEndian 4 len ++ toLittleEndian 8 weight ++ bytes))
  | patch path count, files, _, files' =>
      ∃ old, files path = some old ∧ files' = Function.update files path
        (some (overwrite old 0 (toLittleEndian 8 count)))
  | readCount path, files, count, files' =>
      files' = files ∧ ∃ bytes, files path = some bytes ∧ 8 ≤ bytes.length ∧
        count = ofLittleEndian (bytes.take 8)
  | readFrame path offset _, files, frame, files' =>
      files' = files ∧ ∃ bytes, files path = some bytes ∧
        offset + 12 + frame.bytes.length ≤ bytes.length ∧
        frame.bytes = (bytes.drop (offset + 12)).take
          (ofLittleEndian ((bytes.drop offset).take 4)) ∧
        frame.retainedBytes = ofLittleEndian ((bytes.drop (offset + 4)).take 8)
  | removeDirAll dir, files, _, files' =>
      files' = fun path => if path.dir = dir then none else files path
  | removeIfExists path, files, _, files' => files' = Function.update files path none

variable {job : FsJob} {fs fs' : Fs}

theorem body_keeps {path : ScratchPath} (untouched : ¬job.Touches path)
    (content : Option (List UInt8)) :
    Method.Keeps fileSemantics (fun fs => fs.files path = content) job.body := by
  have keep : ∀ op : FileOp, ¬op.Touches path →
      Method.Keeps fileSemantics (fun fs => fs.files path = content) (Job.call op) := by
    intro op opUntouched
    refine Job.keeps_call op ?_
    intro fs reply fs' step same
    exact (step.files_eq opUntouched).trans same
  cases job with
  | ensureDir dir => exact keep _ (by exact id)
  | removeDirAll dir | removeIfExists target => exact keep _ (by exact untouched)
  | create target =>
      simp only [body, AsyncFile.create, AsyncFile.writeAll, AsyncFile.flush, bind_assoc,
        pure_bind, Bool.false_eq_true, ite_false]
      refine Method.keeps_bind (keep _ (by exact untouched)) fun _ => ?_
      refine Method.keeps_bind (keep _ (by exact untouched)) fun _ => ?_
      exact keep _ (by exact id)
  | append target len weight bytes =>
      simp only [body, AsyncFile.openAppend, AsyncFile.writeAll, AsyncFile.flush, bind_assoc,
        pure_bind, ite_true]
      refine Method.keeps_bind (keep _ (by exact id)) fun _ => ?_
      refine Method.keeps_bind (keep _ (by exact untouched)) fun _ => ?_
      refine Method.keeps_bind (keep _ (by exact untouched)) fun _ => ?_
      refine Method.keeps_bind (keep _ (by exact untouched)) fun _ => ?_
      exact keep _ (by exact id)
  | patch target count =>
      simp only [body, AsyncFile.open, AsyncFile.seek, AsyncFile.writeAll, AsyncFile.flush,
        bind_assoc, pure_bind, Bool.false_eq_true, ite_false]
      refine Method.keeps_bind (keep _ (by exact id)) fun _ => ?_
      refine Method.keeps_bind (keep _ (by exact untouched)) fun _ => ?_
      exact keep _ (by exact id)
  | readCount target =>
      simp only [body, AsyncFile.open, AsyncFile.readExact, bind_assoc, pure_bind]
      refine Method.keeps_bind (keep _ (by exact id)) fun _ => ?_
      exact Method.keeps_bind (keep _ (by exact id)) fun _ => Method.keeps_pure _
  | readFrame target offset rowInline =>
      simp only [body, AsyncFile.open, AsyncFile.seek, AsyncFile.readExact, reserveFrame,
        bind_assoc, pure_bind]
      refine Method.keeps_bind (keep _ (by exact id)) fun _ => ?_
      refine Method.keeps_bind (keep _ (by exact id)) fun _ => ?_
      refine Method.keeps_bind (keep _ (by exact id)) fun _ => ?_
      refine Method.keeps_bind (keep _ (by exact id)) fun _ => ?_
      refine Method.keeps_bind (Method.keeps_okOr _ _) fun _ => ?_
      refine Method.keeps_bind (keep _ (by exact id)) fun _ => ?_
      exact Method.keeps_bind (keep _ (by exact id)) fun _ => Method.keeps_pure _

/-- A job leaves every file it does not touch as it was, whatever its outcome. -/
theorem Completes.files_eq {reply : Except SorterError job.Value}
    (completes : job.Completes fs reply fs') {path : ScratchPath}
    (untouched : ¬job.Touches path) : fs'.files path = fs.files path := by
  have body := body_keeps untouched (fs.files path) () fs rfl
  cases completes with
  | finished run =>
      have reached := Method.wp_returned body run
      cases reply <;> exact reached
  | died text run =>
      rcases Method.wp_dropped body run with ⟨op, middle, same, rfl⟩
      exact same

theorem body_yields :
    Job.Yields job.body fs fun value fs' => job.Effect fs.files value fs'.files := by
  cases job with
  | ensureDir dir | removeDirAll dir | removeIfExists target =>
      refine Job.yields_call (by simp) ?_
      intro value fs' done
      cases done
      rfl
  | create target =>
      simp only [body, AsyncFile.create, AsyncFile.writeAll, AsyncFile.flush, bind_assoc,
        pure_bind, Bool.false_eq_true, ite_false]
      refine Job.yields_bind (Job.yields_call (by simp) ?_)
      intro _ _ created
      refine Job.yields_bind (Job.yields_call (by simp) ?_)
      intro _ _ written
      refine Job.yields_call (by simp) ?_
      intro _ _ flushed
      cases flushed
      rcases FileOp.effect_writeAt written with ⟨old, found, rfl⟩
      cases FileOp.effect_create created
      cases (Fs.write_same _ _ _).symm.trans found
      rw [Fs.write_write]
      rfl
  | append target len weight bytes =>
      simp only [body, AsyncFile.openAppend, AsyncFile.writeAll, AsyncFile.flush, bind_assoc,
        pure_bind, ite_true]
      refine Job.yields_bind (Job.yields_call (by simp) ?_)
      intro _ _ opened
      refine Job.yields_bind (Job.yields_call (by simp) ?_)
      intro _ _ length
      refine Job.yields_bind (Job.yields_call (by simp) ?_)
      intro _ _ declared
      refine Job.yields_bind (Job.yields_call (by simp) ?_)
      intro _ _ encoded
      refine Job.yields_call (by simp) ?_
      intro _ _ flushed
      cases flushed
      cases FileOp.effect_open opened
      rcases FileOp.effect_append length with ⟨old, found, rfl⟩
      rcases FileOp.effect_append declared with ⟨old', found', rfl⟩
      cases (Fs.write_same _ _ _).symm.trans found'
      rcases FileOp.effect_append encoded with ⟨old'', found'', rfl⟩
      cases (Fs.write_same _ _ _).symm.trans found''
      rw [Fs.write_write, Fs.write_write]
      exact ⟨old, found, rfl⟩
  | patch target count =>
      simp only [body, AsyncFile.open, AsyncFile.seek, AsyncFile.writeAll, AsyncFile.flush,
        bind_assoc, pure_bind, Bool.false_eq_true, ite_false]
      refine Job.yields_bind (Job.yields_call (by simp) ?_)
      intro _ _ opened
      refine Job.yields_bind (Job.yields_call (by simp) ?_)
      intro _ _ written
      refine Job.yields_call (by simp) ?_
      intro _ _ flushed
      cases flushed
      cases FileOp.effect_open opened
      rcases FileOp.effect_writeAt written with ⟨old, found, rfl⟩
      exact ⟨old, found, rfl⟩
  | readCount target =>
      simp only [body, AsyncFile.open, AsyncFile.readExact, bind_assoc, pure_bind]
      refine Job.yields_bind (Job.yields_call (by simp) ?_)
      intro _ _ opened
      refine Job.yields_bind (Job.yields_call (by simp) ?_)
      intro _ _ read
      cases FileOp.effect_open opened
      rcases FileOp.effect_readExact read with ⟨bytes, found, inside, rfl, rfl⟩
      exact ⟨rfl, bytes, found, by omega, rfl⟩
  | readFrame target offset rowInline =>
      simp only [body, AsyncFile.open, AsyncFile.seek, AsyncFile.readExact, reserveFrame,
        bind_assoc, pure_bind]
      refine Job.yields_bind (Job.yields_call (by simp) ?_)
      intro _ _ opened
      refine Job.yields_bind (Job.yields_call (by simp) ?_)
      intro _ _ length
      refine Job.yields_bind (Job.yields_call (by simp) ?_)
      intro _ _ declared
      refine Job.yields_bind (Job.yields_reserve ?_)
      refine Job.yields_bind (Job.yields_okOr ?_)
      intro _
      refine Job.yields_bind (Job.yields_reserve ?_)
      refine Job.yields_bind (Job.yields_call (by simp) ?_)
      intro _ _ encoded
      cases FileOp.effect_open opened
      rcases FileOp.effect_readExact length with ⟨bytes, found, -, rfl, rfl⟩
      rcases FileOp.effect_readExact declared with ⟨bytes', found', -, rfl, rfl⟩
      cases found.symm.trans found'
      rcases FileOp.effect_readExact encoded with ⟨bytes'', found'', inside, rfl, rfl⟩
      cases found.symm.trans found''
      refine ⟨rfl, bytes, found, ?_, rfl, rfl⟩
      rw [List.length_take]
      omega

theorem Completes.effect {value : job.Value} (completes : job.Completes fs (.ok value) fs') :
    job.Effect fs.files value fs'.files := by
  cases completes with
  | finished run => exact Method.wp_returned body_yields run

end FsJob

end SortGovernor.Engine
