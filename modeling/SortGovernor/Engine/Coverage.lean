import SortGovernor.Engine.Charges
import SortGovernor.Engine.Session
import SortGovernor.Engine.World

/-!
# Charges cover what a sort retains

Every row a session, a stream or a merge keeps carries a charge of its size, and
so do the vectors they are kept in and the keys of a merge heap.  An encoded frame
reaches its worker together with its charge.
-/

namespace SortGovernor.Engine

open SortGovernor.Resumption SortGovernor.Sorting

variable {Key Value State : Type}

/-- A frame to be written comes with the charge it was encoded under. -/
def FsJob.Backed (held : List MemoryCharge) : FsJob → Prop
  | append _ _ _ bytes => ∃ charge ∈ held,
      MemoryBudget.frameBytes bytes.length = some charge.bytes
  | _ => True

def Request.Backed : Request Key Value → Prop
  | perform _ held job => job.Backed held
  | _ => True

def Request.Charged : (op : Request Key Value) → op.Reply → Prop
  | reserve bytes, .ok charge => charge.bytes = bytes
  | perform _ _ job, reply | direct job, reply => job.Charged reply
  | _, _ => True

/-- Any budget, any files, any serializer; only charges are what they say. -/
def charging (Key Value : Type) : Semantics (engine Key Value) Unit where
  reply op _ reply _ := Request.Charged op reply
  drop _ _ _ := False

theorem simulates_charging (codec : Codec Key Value) :
    (sessionSemantics codec).Simulates (charging Key Value) fun _ => () := by
  rintro (_ | bytes | _ | _ | ⟨io, held, job⟩ | job | _ | _) world reply next replied
  · trivial
  · obtain ⟨-, limit, used, rfl⟩ := replied
    cases admitted : MemoryBudget.reserve limit used bytes with
    | error error => trivial
    | ok charge => exact MemoryBudget.bytes_of_reserve admitted
  · trivial
  · trivial
  · obtain ⟨fs, completes, -⟩ | ⟨rfl, -⟩ := replied
    · exact completes.charged
    · exact job.charged_error _
  · obtain ⟨fs, completes, -⟩ := replied
    exact completes.charged
  · trivial
  · trivial

/-- The requests of `method` are backed, it keeps `good` and gives known results. -/
abbrev Covers {Result : Type} (good : State → Prop) (known : Result → Prop)
    (method : Async Key Value State Result) : Prop :=
  Method.Gives (charging Key Value) Request.Backed good known method

section Requests

variable {good : State → Prop}

theorem covers_ask {op : Request Key Value} (backed : op.Backed) :
    Covers good (Request.Charged op) (ask op : Async Key Value State op.Reply) :=
  Method.gives_issue backed fun _ _ _ charged => charged

theorem covers_any {op : Request Key Value} (backed : op.Backed) :
    Covers good (fun _ => True) (ask op : Async Key Value State op.Reply) :=
  (covers_ask backed).weaken fun _ _ => trivial

theorem covers_orError {Result : Type} {value : Option Result} {error : SorterError} :
    Covers good (fun result => value = some result)
      (orError value error : Async Key Value State Result) :=
  Method.gives_okOr fun _ found => found

theorem covers_propagate {Result : Type} {outcome : Except SorterError Result} :
    Covers good (fun result => outcome = .ok result)
      (propagate outcome : Async Key Value State Result) := by
  apply Method.gives_ofExcept
  intro value found
  cases outcome with
  | error error => cases found
  | ok result =>
      cases found
      rfl

theorem covers_reserve (bytes : Nat) :
    Covers good (fun charge : MemoryCharge => charge.bytes = bytes)
      (reserve bytes : Async Key Value State MemoryCharge) := by
  refine Method.gives_bind (covers_ask trivial) fun reply charged => ?_
  refine covers_propagate.weaken fun charge admitted => ?_
  subst admitted
  exact charged

theorem covers_reserveFrame (bytes : Nat) :
    Covers good (fun charge : MemoryCharge => MemoryBudget.frameBytes bytes = some charge.bytes)
      (reserveFrame bytes : Async Key Value State MemoryCharge) := by
  refine Method.gives_bind covers_orError fun working found => ?_
  refine (covers_reserve working).weaken fun charge admitted => ?_
  rw [found, admitted]

variable [Layout Key Value]

theorem covers_perform {io : ScopeId} {pathBytes : Nat} {held : List MemoryCharge} (job : FsJob)
    (backed : job.Backed held) :
    Covers good (fun value => job.Charged (.ok value))
      (perform io pathBytes held job : Async Key Value State job.Value) := by
  refine Method.gives_bind covers_orError fun bytes _ => ?_
  refine Method.gives_bind (covers_reserve bytes) fun metadata _ => ?_
  refine Method.gives_bind (covers_ask ?_) fun reply charged => ?_
  · cases job with
    | append path len weight bytes =>
        obtain ⟨charge, member, covers⟩ := backed
        exact ⟨charge, List.mem_cons_of_mem _ member, covers⟩
    | _ => trivial
  · refine covers_propagate.weaken fun value succeeded => ?_
    rw [← succeeded]
    exact charged

omit [Layout Key Value] in
theorem covers_awaitDirect (job : FsJob) :
    Covers good (fun _ => True) (awaitDirect job : Async Key Value State job.Value) :=
  Method.gives_bind (covers_any trivial) fun _ _ => covers_propagate.weaken fun _ _ => trivial

end Requests

section Runs

variable [Layout Key Value] {good : State → Prop}

/-- A retained row owns a charge of its declared size, and of its own size at least. -/
structure RunRow.Covered (row : RunRow Key Value) (charge : MemoryCharge) : Prop where
  own : row.charge = some charge
  declared : row.retainedBytes ≤ charge.bytes
  inline : Layout.rowSize Key Value ≤ charge.bytes

def RunRow.IsCovered (row : RunRow Key Value) : Prop := ∃ charge, row.Covered charge

omit [Layout Key Value] in
theorem covers_encode (row : RunRow Key Value) :
    Covers good (fun encoded : List UInt8 × MemoryCharge =>
        MemoryBudget.frameBytes encoded.1.length = some encoded.2.bytes)
      (encode row : Async Key Value State (List UInt8 × MemoryCharge)) := by
  refine Method.gives_bind (covers_any trivial) fun limit _ => ?_
  refine Method.gives_bind (covers_any trivial) fun sizing _ => ?_
  refine Method.gives_bind covers_propagate fun count _ => ?_
  refine Method.gives_bind (covers_reserveFrame _) fun charge framed => ?_
  refine Method.gives_bind (covers_any trivial) fun encoding _ => ?_
  refine Method.gives_bind covers_propagate fun writer _ => ?_
  refine Method.gives_ite (fun _ => Method.gives_throw) fun same => Method.gives_pure ?_
  have length : writer.bytes.length = count.bytes := by omega
  rw [length]
  exact framed

theorem covers_create (path : ScratchPath) (io : ScopeId) :
    Covers good (fun _ => True) (RunWriter.create path io : Async Key Value State RunWriter) := by
  refine Method.gives_bind (covers_perform (.create path) ?_) fun _ _ => Method.gives_pure trivial
  trivial

theorem covers_writeRow (writer : RunWriter) (row : RunRow Key Value) :
    Covers good (fun _ => True) (writer.writeRow row : Async Key Value State RunWriter) := by
  refine Method.gives_bind (covers_encode row) fun encoded framed => ?_
  refine Method.gives_bind covers_orError fun len _ => ?_
  refine Method.gives_bind covers_orError fun weight _ => ?_
  refine Method.gives_bind (covers_perform (.append _ _ _ _) ?_) fun _ _ => ?_
  · exact ⟨encoded.2, List.mem_singleton_self _, framed⟩
  exact Method.gives_bind covers_orError fun count _ => Method.gives_pure trivial

theorem covers_finishRun (writer : RunWriter) :
    Covers good (fun _ => True) (writer.finish : Async Key Value State ScratchPath) := by
  refine Method.gives_bind (covers_perform (.patch _ _) ?_) fun _ _ => Method.gives_pure trivial
  trivial

theorem covers_openRun (path : ScratchPath) (io : ScopeId) :
    Covers good (fun _ => True) (RunReader.open path io : Async Key Value State RunReader) := by
  refine Method.gives_bind (covers_perform (.readCount path) ?_) fun _ _ =>
    Method.gives_pure trivial
  trivial

theorem covers_nextRow :
    Covers (fun _ => True) (fun row : Option (RunRow Key Value) => ∀ head, row = some head →
      head.IsCovered) (RunReader.nextRow : Async Key Value RunReader _) := by
  refine Method.gives_bind Method.gives_get fun reader _ => ?_
  refine Method.gives_ite (fun _ => Method.gives_pure (by simp)) fun _ => ?_
  refine Method.gives_bind (covers_perform (.readFrame _ _ _) trivial) fun frame charged => ?_
  refine Method.gives_bind (covers_any trivial) fun decoded _ => ?_
  refine Method.gives_bind covers_propagate fun row _ => ?_
  refine Method.gives_bind covers_orError fun len _ => ?_
  refine Method.gives_bind covers_orError fun offset _ => ?_
  refine Method.gives_bind (Method.gives_modify fun _ _ => trivial) fun _ _ => ?_
  refine Method.gives_bind (Method.gives_modify fun _ _ => trivial) fun _ _ => ?_
  apply Method.gives_pure
  rintro _ ⟨⟩
  refine ⟨frame.rowCharge, rfl, ?_, ?_⟩
  · rw [charged.row]
    exact Nat.le_max_left ..
  · rw [charged.row]
    exact Nat.le_max_right ..

end Runs

end SortGovernor.Engine
