import SortGovernor.Runtime.Actor
import SortGovernor.Engine.Session

/-!
# Sorts as clients of the runtime

A sort is a session, then the stream `finish` returned, then the cleanup of the
guard that the last of them dropped.  Each sort is named by its scratch
directory, and the guard of its session creates a scope of the same number.
-/

namespace SortGovernor.Runtime

open SortGovernor.Engine SortGovernor.Resumption

variable {Key Value : Type}

inductive SortOwner (Key Value : Type) where
  | session (session : SortSession Key Value)
  | stream (stream : ValueStream Key Value)
  | dropped (guard : AsyncCleanupGuard)
  | gone

namespace SortOwner

/-- What dropping a stream drops: the guard it holds, if it holds one. -/
def ofStream : ValueStream Key Value → SortOwner Key Value
  | .merging _ hold _ => .dropped hold.scratch
  | .ended (some scratch) => .dropped scratch
  | _ => .gone

def polled : ValueStream Key Value → SortOwner Key Value
  | .ended scratch => ofStream (.ended scratch)
  | going => .stream going

/-- `finish` consumes the session; the guard of a session that hands over a
stream is disarmed, so only the guard of a failed call is left to drop. -/
def finished : Except Abort (ValueStream Key Value) → SortSession Key Value →
    SortOwner Key Value
  | .ok result, _ => .stream result
  | .error _, left => .dropped left.cleanup

variable [LinearOrder Key] [Layout Key Value]

/-- The calls of a sort and their drops. -/
inductive Calls : SortOwner Key Value → Bool → Turn Key Value (SortOwner Key Value) → Prop where
  | push {session} (key : Key) (value : Value) (bytes : UInt64) :
      Calls (.session session) true
        (turn (SortSession.pushWithSize key value bytes) session .session fun _ => .session)
  | finish {session} :
      Calls (.session session) true
        (turn SortSession.finish session (fun session => .dropped session.cleanup) finished)
  | dropSession {session} : Calls (.session session) true (.done (.dropped session.cleanup))
  | next {stream} :
      Calls (.stream stream) true (turn ValueStream.next stream ofStream fun _ => polled)
  | dropStream {stream} : Calls (.stream stream) true (.done (ofStream stream))
  | cleanup {guard} :
      Calls (.dropped guard) false
        (turn (AsyncCleanupGuard.dropTask guard) () (fun _ => .gone) fun _ _ => .gone)

end SortOwner

/-- A sort in progress. -/
abbrev SortActor (Key Value : Type) := Actor Key Value (SortOwner Key Value)

variable {Keys Values : Nat → Type} [(sort : Nat) → LinearOrder (Keys sort)]
  [(sort : Nat) → Layout (Keys sort) (Values sort)]

/-- Any number of sorts that share one descriptor semaphore. -/
def sorts (codec : (sort : Nat) → Codec (Keys sort) (Values sort)) :
    Clients Unit fun sort => SortActor (Keys sort) (Values sort) where
  starts sort actor := ∃ plan dedup hold,
    actor = .owner (.session (.new plan sort dedup sort hold))
  forks _ _ _ _ _ _ := False
  moves sort := Actor.Moves SortOwner.Calls (Answers (codec sort) fun _ _ _ _ => False)
  awaits _ := Actor.awaits
  resumes _ := Actor.Resumes
  woken _ _ _ := False
  cancels _ := Actor.Cancels

end SortGovernor.Runtime
