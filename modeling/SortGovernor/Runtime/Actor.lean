import SortGovernor.Runtime.Machine
import SortGovernor.Engine.World

/-!
# Engine programs as clients

An actor is an owner between two calls, or a call in progress.  A call returns
an owner and leaves one behind when it is dropped.  A caller may drop a call at
any await; a task spawned on the runtime runs to its end.
-/

namespace SortGovernor.Runtime

open SortGovernor.Engine SortGovernor.Resumption

variable {Key Value Owner Shared : Type}

/-- A call that turns one owner into another. -/
abbrev Turn (Key Value Owner : Type) := Program (engine Key Value) Owner Owner

inductive Actor (Key Value Owner : Type) where
  | owner (owner : Owner)
  | running (cancellable : Bool) (turn : Turn Key Value Owner)

/-- The call of a method of a value an owner consists of. -/
def turn {State Result : Type} (method : Async Key Value State Result) (state : State)
    (dropped : State → Owner) (returned : Except Abort Result → State → Owner) :
    Turn Key Value Owner :=
  ((method state).rebase dropped).map fun (outcome, state) => returned outcome state

/-- What a future suspended at a request waits for. -/
def await : Request Key Value → Option Await
  | .perform io held job => some (.job (some io) held job)
  | .direct job => some (.job none [] job)
  | .idle io => some (.idle io)
  | .replay (.changed token) => some (.changed token)
  | _ => none

/-- Replies to the requests that do not suspend.  Readings of the budget are
arbitrary; replay requests access the shared state. -/
def Answers (codec : Codec Key Value)
    (replay : (request : ReplayRequest) → Shared → request.Reply → Shared → Prop) :
    (op : Request Key Value) → World Shared → op.Reply → World Shared → Prop
  | .limit, world, _, next => next = world
  | .reserve bytes, world, reply, next =>
      next = world ∧ ∃ limit used, reply = MemoryBudget.reserve limit used bytes
  | .serialize row, world, reply, next => next = world ∧ codec.serializes row reply
  | .deserialize bytes, world, reply, next => next = world ∧ codec.deserializes bytes reply
  | .replay request, world, reply, next =>
      next.fs = world.fs ∧ replay request world.shared reply next.shared
  | _, _, _, _ => False

namespace Actor

/-- Calls that start, requests answered at once, and calls that return. -/
inductive Moves (calls : Owner → Bool → Turn Key Value Owner → Prop)
    (answers : (op : Request Key Value) → World Shared → op.Reply → World Shared → Prop) :
    Actor Key Value Owner → World Shared → Actor Key Value Owner → World Shared → Prop where
  | call {owner cancellable turn world} : calls owner cancellable turn →
      Moves calls answers (.owner owner) world (.running cancellable turn) world
  | answer {cancellable left op resume world reply next} :
      op.awaits = false → answers op world reply next →
      Moves calls answers (.running cancellable (.request left op resume)) world
        (.running cancellable (resume reply)) next
  | return {cancellable owner world} :
      Moves calls answers (.running cancellable (.done owner)) world (.owner owner) world

def awaits : Actor Key Value Owner → Option Await
  | .running _ (.request _ op _) => await op
  | _ => none

inductive Resumes : Actor Key Value Owner → (await : Await) → await.Reply →
    Actor Key Value Owner → Prop where
  | perform {cancellable left io held job resume} (reply : Except SorterError job.Value) :
      Resumes (.running cancellable (.request left (.perform io held job) resume))
        (.job (some io) held job) reply (.running cancellable (resume reply))
  | direct {cancellable left job resume} (reply : Except SorterError job.Value) :
      Resumes (.running cancellable (.request left (.direct job) resume))
        (.job none [] job) reply (.running cancellable (resume reply))
  | idle {cancellable left io resume} :
      Resumes (.running cancellable (.request left (.idle io) resume)) (.idle io) ()
        (.running cancellable (resume ()))
  | changed {cancellable left token resume} :
      Resumes (.running cancellable (.request left (.replay (.changed token)) resume))
        (.changed token) () (.running cancellable (resume ()))

/-- The caller drops the call at an await. -/
inductive Cancels : Actor Key Value Owner → Actor Key Value Owner → Prop where
  | drop {left op resume} : op.awaits = true →
      Cancels (.running true (.request left op resume)) (.owner left)

end Actor

end SortGovernor.Runtime
