import SortGovernor.Engine.Charges

/-!
# Jobs and directories

Only `ensure_dir` creates a directory and only `remove_dir_all` removes one, each
its own.  A directory that is not there has no files.
-/

namespace SortGovernor.Engine

open SortGovernor.Resumption

namespace FileOp

def Changes : FileOp → ScratchDir → Prop
  | ensureDir target, dir | removeDirAll target, dir => dir = target
  | _, _ => False

variable {op : FileOp} {fs fs' : Fs} {dir : ScratchDir}

theorem effect_dirs_eq {value : op.Value} (done : op.effect fs = some (value, fs'))
    (unchanged : ¬op.Changes dir) : fs'.dirs dir = fs.dirs dir := by
  cases op with
  | reserve bytes => cases done
  | removeIfExists target | flush target =>
      cases done
      rfl
  | ensureDir target | removeDirAll target =>
      cases done
      exact Function.update_of_ne unchanged _ _
  | create target =>
      rw [effect_create done]
      rfl
  | «open» target => rw [effect_open done]
  | append target bytes =>
      obtain ⟨old, -, rfl⟩ := effect_append done
      rfl
  | writeAt target offset bytes =>
      obtain ⟨old, -, rfl⟩ := effect_writeAt done
      rfl
  | readExact target offset count =>
      obtain ⟨bytes, -, -, -, rfl⟩ := effect_readExact done
      rfl

theorem Torn.dirs_eq (torn : op.Torn fs fs') (unchanged : ¬op.Changes dir) :
    fs'.dirs dir = fs.dirs dir := by
  cases op with
  | reserve _ | «open» _ | readExact _ _ _ | flush _ => rw [torn]
  | ensureDir target =>
      rcases torn with rfl | rfl
      · rfl
      · exact Function.update_of_ne unchanged _ _
  | removeDirAll target => exact congrFun torn.1 dir
  | removeIfExists target => rcases torn with rfl | rfl <;> rfl
  | create target => rcases torn with rfl | ⟨-, rfl⟩ <;> rfl
  | append target bytes | writeAt target offset bytes =>
      rcases torn with rfl | ⟨_, _, _, rfl⟩ <;> rfl

theorem Step.dirs_eq {reply : Except SorterError op.Value} (step : op.Step fs reply fs')
    (unchanged : ¬op.Changes dir) : fs'.dirs dir = fs.dirs dir := by
  cases op with
  | reserve bytes => rw [step.1]
  | _ =>
      rcases step with ⟨value, done, -⟩ | ⟨error, -, torn⟩
      · exact effect_dirs_eq done unchanged
      · exact torn.dirs_eq unchanged

/-- Only `ensure_dir` creates a directory. -/
theorem Step.dirs_absent {reply : Except SorterError op.Value} (step : op.Step fs reply fs')
    (other : op ≠ .ensureDir dir) (absent : fs.dirs dir = false) : fs'.dirs dir = false := by
  by_cases changes : op.Changes dir
  · cases op with
    | ensureDir target =>
        obtain rfl : dir = target := changes
        exact absurd rfl other
    | removeDirAll target =>
        rcases step with ⟨value, done, -⟩ | ⟨error, -, torn⟩
        · cases done
          obtain rfl : dir = target := changes
          exact Function.update_self ..
        · exact (congrFun torn.1 dir).trans absent
    | _ => exact changes.elim
  · exact (step.dirs_eq changes).trans absent

theorem Step.dirs_removed {value : Unit} (step : (removeDirAll dir).Step fs (.ok value) fs') :
    fs'.dirs dir = false := by
  cases step.effect_of_ok (by simp)
  exact Function.update_self ..

end FileOp

/-- Every file is in a directory that is there. -/
def Fs.Rooted (fs : Fs) : Prop := ∀ path, fs.dirs path.dir = false → fs.files path = none

section Rooted

variable {fs fs' : Fs} {path : ScratchPath}

theorem Fs.Rooted.present (rooted : fs.Rooted) {bytes : List UInt8}
    (found : fs.files path = some bytes) :
    fs.dirs path.dir = true := by
  by_contra absent
  rw [rooted path (Bool.eq_false_iff.mpr absent)] at found
  cases found

theorem Fs.Rooted.write (rooted : fs.Rooted) (present : fs.dirs path.dir = true)
    (bytes : List UInt8) :
    (fs.write path bytes).Rooted := by
  intro other absent
  by_cases same : other = path
  · subst same
    rw [show (fs.write other bytes).dirs = fs.dirs from rfl, present] at absent
    cases absent
  · exact (Function.update_of_ne same _ _).trans (rooted other absent)

theorem Fs.Rooted.remove (rooted : fs.Rooted) (path : ScratchPath) : (fs.remove path).Rooted := by
  intro other absent
  by_cases same : other = path
  · subst same
    exact Function.update_self ..
  · exact (Function.update_of_ne same _ _).trans (rooted other absent)

theorem Fs.Rooted.withDir (rooted : fs.Rooted) (dir : ScratchDir) : (fs.withDir dir).Rooted := by
  intro other absent
  by_cases same : other.dir = dir
  · have present : (fs.withDir dir).dirs other.dir = true := by
      rw [same]
      exact Function.update_self ..
    rw [present] at absent
    cases absent
  · exact rooted other ((Function.update_of_ne same _ _).symm.trans absent)

theorem Fs.Rooted.without (rooted : fs.Rooted) (dir : ScratchDir) : (fs.without dir).Rooted := by
  intro other absent
  by_cases same : other.dir = dir
  · exact if_pos same
  · exact (if_neg same).trans (rooted other ((Function.update_of_ne same _ _).symm.trans absent))

theorem FileOp.effect_rooted {op : FileOp} {value : op.Value} (rooted : fs.Rooted)
    (done : op.effect fs = some (value, fs')) : fs'.Rooted := by
  cases op with
  | reserve bytes => cases done
  | flush target =>
      cases done
      exact rooted
  | removeIfExists target =>
      cases done
      exact rooted.remove target
  | ensureDir dir =>
      cases done
      exact rooted.withDir dir
  | removeDirAll dir =>
      cases done
      exact rooted.without dir
  | create target =>
      have present : fs.dirs target.dir = true := by
        by_contra absent
        simp [effect, absent] at done
      rw [effect_create done]
      exact rooted.write present _
  | «open» target =>
      rw [effect_open done]
      exact rooted
  | append target bytes =>
      obtain ⟨old, found, rfl⟩ := effect_append done
      exact rooted.write (rooted.present found) _
  | writeAt target offset bytes =>
      obtain ⟨old, found, rfl⟩ := effect_writeAt done
      exact rooted.write (rooted.present found) _
  | readExact target offset count =>
      obtain ⟨bytes, -, -, -, rfl⟩ := effect_readExact done
      exact rooted

theorem FileOp.Torn.rooted {op : FileOp} (rooted : fs.Rooted) (torn : op.Torn fs fs') :
    fs'.Rooted := by
  cases op with
  | reserve _ | «open» _ | readExact _ _ _ | flush _ =>
      rw [torn]
      exact rooted
  | ensureDir dir =>
      rcases torn with rfl | rfl
      · exact rooted
      · exact rooted.withDir dir
  | removeDirAll dir =>
      intro path absent
      rw [torn.1] at absent
      rcases torn.2 path with same | ⟨-, gone⟩
      · exact same.trans (rooted path absent)
      · exact gone
  | removeIfExists target =>
      rcases torn with rfl | rfl
      · exact rooted
      · exact rooted.remove target
  | create target =>
      rcases torn with rfl | ⟨present, rfl⟩
      · exact rooted
      · exact rooted.write present _
  | append target bytes | writeAt target offset bytes =>
      rcases torn with rfl | ⟨_, _, found, rfl⟩
      · exact rooted
      · exact rooted.write (rooted.present found) _

theorem FileOp.Step.rooted {op : FileOp} {reply : Except SorterError op.Value} (rooted : fs.Rooted)
    (step : op.Step fs reply fs') : fs'.Rooted := by
  cases op with
  | reserve bytes =>
      rw [step.1]
      exact rooted
  | _ =>
      rcases step with ⟨value, done, -⟩ | ⟨error, -, torn⟩
      · exact effect_rooted rooted done
      · exact torn.rooted rooted

end Rooted

namespace FsJob

def Makes (job : FsJob) : FileOp → Prop
  | .ensureDir dir => job = .ensureDir dir
  | .removeDirAll dir => job = .removeDirAll dir
  | _ => True

variable {job : FsJob} {op : FileOp} {dir : ScratchDir}

theorem Makes.own (makes : job.Makes op) (changes : op.Changes dir) : dir = job.dir := by
  cases op with
  | ensureDir target | removeDirAll target =>
      obtain rfl : job = _ := makes
      exact changes
  | _ => exact changes.elim

theorem gives_call (makes : job.Makes op) :
    Method.Gives anyFile job.Makes (fun _ : Unit => True) (fun _ => True) (Job.call op) :=
  Method.gives_bind (Method.gives_issue makes fun _ _ _ _ => trivial) fun _ _ =>
    Method.gives_ofExcept fun _ _ => trivial

theorem gives_next {Result : Type} {next : op.Value → Job Result} (makes : job.Makes op)
    (rest : ∀ value, Method.Gives anyFile job.Makes (fun _ => True) (fun _ => True) (next value)) :
    Method.Gives anyFile job.Makes (fun _ => True) (fun _ => True) (Job.call op >>= next) :=
  Method.gives_bind (gives_call makes) fun value _ => rest value

theorem body_makes (job : FsJob) :
    Method.Gives anyFile job.Makes (fun _ => True) (fun _ => True) job.body := by
  cases job with
  | ensureDir dir | removeDirAll dir => exact gives_call rfl
  | removeIfExists path => exact gives_call trivial
  | create path =>
      simp only [body, AsyncFile.create, AsyncFile.writeAll, AsyncFile.flush, bind_assoc,
        pure_bind, Bool.false_eq_true, ite_false]
      refine gives_next trivial fun _ => ?_
      refine gives_next trivial fun _ => ?_
      exact gives_call trivial
  | append path len weight bytes =>
      simp only [body, AsyncFile.openAppend, AsyncFile.writeAll, AsyncFile.flush, bind_assoc,
        pure_bind, ite_true]
      refine gives_next trivial fun _ => ?_
      refine gives_next trivial fun _ => ?_
      refine gives_next trivial fun _ => ?_
      refine gives_next trivial fun _ => ?_
      exact gives_call trivial
  | patch path count =>
      simp only [body, AsyncFile.open, AsyncFile.seek, AsyncFile.writeAll, AsyncFile.flush,
        bind_assoc, pure_bind, Bool.false_eq_true, ite_false]
      refine gives_next trivial fun _ => ?_
      refine gives_next trivial fun _ => ?_
      exact gives_call trivial
  | readCount path =>
      simp only [body, AsyncFile.open, AsyncFile.readExact, bind_assoc, pure_bind]
      refine gives_next trivial fun _ => ?_
      refine gives_next trivial fun _ => ?_
      exact Method.gives_pure trivial
  | readFrame path offset rowInline =>
      simp only [body, AsyncFile.open, AsyncFile.seek, AsyncFile.readExact,
        reserveFrame, bind_assoc,
        pure_bind]
      refine gives_next trivial fun _ => ?_
      refine gives_next trivial fun _ => ?_
      refine gives_next trivial fun _ => ?_
      refine gives_next trivial fun _ => ?_
      refine Method.gives_bind (Method.gives_okOr fun _ _ => trivial) fun _ _ => ?_
      refine gives_next trivial fun _ => ?_
      refine gives_next trivial fun _ => ?_
      exact Method.gives_pure trivial

theorem body_removeDirAll (dir : ScratchDir) :
    (removeDirAll dir).body () =
      .request () (.removeDirAll dir) fun reply => .done (reply, ()) := by
  have called : (removeDirAll dir).body () = .request () (.removeDirAll dir) fun reply =>
      (Method.ofExcept reply : Job Unit) () := rfl
  rw [called]
  congr 1
  funext reply
  cases reply <;> rfl

end FsJob

end SortGovernor.Engine
