import SortGovernor.Engine.Jobs
import SortGovernor.Resumption.Abstraction

/-!
# What a job hands over

A frame read leaves its worker with two charges, one for the row to be decoded
and one for its bytes.  Both were admitted before the bytes were read, and their
sizes do not depend on what else happens to the file.
-/

namespace SortGovernor.Engine

open SortGovernor.Resumption SortGovernor.Bytes

/-- The charges a frame was read under are those of its row and of its bytes. -/
structure Frame.Charged (rowInline : Nat) (frame : Frame) : Prop where
  row : frame.rowCharge.bytes = max frame.retainedBytes rowInline
  bytes : MemoryBudget.frameBytes frame.bytes.length = some frame.frameCharge.bytes

namespace FsJob

def handed : (job : FsJob) → Except SorterError job.Value → List MemoryCharge
  | readFrame .., .ok frame => [frame.rowCharge, frame.frameCharge]
  | _, _ => []

def Charged : (job : FsJob) → Except SorterError job.Value → Prop
  | readFrame _ _ rowInline, .ok frame => frame.Charged rowInline
  | _, _ => True

theorem charged_error (job : FsJob) (error : SorterError) : job.Charged (.error error) := by
  cases job <;> trivial

end FsJob

/-- Calls on files that anyone may change in between. -/
def anyFile : Semantics fileCalls Unit where
  reply op _ reply _ := ∃ fs fs', FileOp.Step op fs reply fs'
  drop _ _ _ := False

section Jobs

theorem MemoryBudget.bytes_of_reserve {limit used bytes : Nat} {charge : MemoryCharge}
    (admitted : MemoryBudget.reserve limit used bytes = .ok charge) : charge.bytes = bytes := by
  unfold MemoryBudget.reserve at admitted
  split at admitted <;> cases admitted
  rfl

theorem Job.wp_call {op : FileOp} {ok : op.Value → Unit → Unit → Prop}
    (next : ∀ value fs fs', op.Step fs (.ok value) fs' → ok value () ()) :
    (Job.call op).wp anyFile (fun _ _ _ => True) ok (fun _ _ _ => True) () () := by
  refine Method.wp_bind.mpr ⟨trivial, ?_⟩
  rintro (error | value) _ ⟨fs, fs', step⟩
  · trivial
  · exact next value fs fs' step

theorem FsJob.wp_reserve {bytes : Nat} {ok : MemoryCharge → Unit → Unit → Prop}
    (next : ∀ charge : MemoryCharge, charge.bytes = bytes → ok charge () ()) :
    (Job.call (.reserve bytes)).wp anyFile (fun _ _ _ => True) ok (fun _ _ _ => True) () () := by
  apply Job.wp_call
  rintro charge fs fs' ⟨-, limit, used, admitted⟩
  exact next charge (MemoryBudget.bytes_of_reserve admitted.symm)

theorem AsyncFile.wp_readExact {file : AsyncFile} {count : Nat}
    {ok : List UInt8 × AsyncFile → Unit → Unit → Prop}
    (next : ∀ bytes file', bytes.length = count → ok (bytes, file') () ()) :
    (file.readExact count).wp anyFile (fun _ _ _ => True) ok (fun _ _ _ => True) () () := by
  refine Method.wp_bind.mpr (Job.wp_call ?_)
  intro value fs fs' step
  apply next
  obtain ⟨bytes, -, inside, rfl, -⟩ := FileOp.effect_readExact (step.effect_of_ok (by simp))
  rw [List.length_take, List.length_drop]
  omega

theorem FsJob.body_charged (job : FsJob) :
    job.body.wp anyFile (fun _ _ _ => True) (fun value _ _ => job.Charged (.ok value))
      (fun _ _ _ => True) () () := by
  cases job with
  | readFrame path offset rowInline =>
      refine Method.wp_bind.mpr (Method.wp_bind.mpr (Job.wp_call fun _ _ _ _ => ?_))
      refine Method.wp_bind.mpr (AsyncFile.wp_readExact fun length file _ => ?_)
      refine Method.wp_bind.mpr (AsyncFile.wp_readExact fun weight file _ => ?_)
      refine Method.wp_bind.mpr (FsJob.wp_reserve fun rowCharge row => ?_)
      refine Method.wp_bind.mpr (Method.wp_bind.mpr (Method.wp_okOr.mpr ?_))
      cases working : MemoryBudget.frameBytes (ofLittleEndian length) with
      | none => trivial
      | some bytes =>
          refine FsJob.wp_reserve fun frameCharge size => ?_
          refine Method.wp_bind.mpr (AsyncFile.wp_readExact fun content _ full => ?_)
          refine ⟨row, ?_⟩
          rw [full, working, size]
  | _ =>
      exact Method.wp_of_forall (fun _ _ _ => trivial) (fun _ _ _ => trivial) fun _ _ _ => trivial

theorem FsJob.Completes.charged {job : FsJob} {fs fs' : Fs} {result : Except SorterError job.Value}
    (completes : job.Completes fs result fs') : job.Charged result := by
  have simulates : fileSemantics.Simulates anyFile fun _ => () :=
    fun op fs reply fs' step => ⟨fs, fs', step⟩
  cases completes with
  | finished run =>
      have charged := Program.wp_returned (Program.wp_concrete simulates job.body_charged) run
      cases result with
      | error error => exact job.charged_error error
      | ok value => exact charged
  | died text => exact job.charged_error _

end Jobs

end SortGovernor.Engine
