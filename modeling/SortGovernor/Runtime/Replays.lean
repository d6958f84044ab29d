import SortGovernor.Runtime.Actor
import SortGovernor.Replay.Writer

/-!
# A replay and its readers as clients of the runtime

The keeper owns the writer, then the sealed replay.  Any number of readers own
cursors that were handed out by the keeper or cloned from another.  Whoever
gives up the last reference is left with the scratch owner and removes the
directory.
-/

namespace SortGovernor.Runtime

open SortGovernor.Engine SortGovernor.Resumption

variable {Value : Type}

/-- What the references of a replay lead to: the publication, its notifications,
the number of references and the scratch owner. -/
structure ReplayShared where
  state : PublicationState
  rows : Nat
  notices : Nat
  handles : Nat
  cleanup : Option AsyncCleanupGuard
  deriving DecidableEq, Repr

namespace ReplayShared

def initial (inner : ReplayInner) : ReplayShared where
  state := .writing
  rows := 0
  notices := 0
  handles := 1
  cleanup := some inner.cleanup

def access : (request : ReplayRequest) → ReplayShared → Option (request.Reply × ReplayShared)
  | .loadState, shared => some (shared.state, shared)
  | .loadRows, shared => some (shared.rows, shared)
  | .storeRows rows, shared => some ((), { shared with rows })
  | .compareExchange next, shared =>
      if shared.state = .writing then some (true, { shared with state := next })
      else some (false, shared)
  | .notifyWaiters, shared => some ((), { shared with notices := shared.notices + 1 })
  | .notified, shared => some (shared.notices, shared)
  | .changed _, _ => none
  | .retain, shared => some ((), { shared with handles := shared.handles + 1 })
  | .release, shared =>
      if shared.handles = 1 then some
        (shared.cleanup, { shared with handles := 0, cleanup := none })
      else some (none, { shared with handles := shared.handles - 1 })
  | .unwrap, shared =>
      if shared.handles = 1 then some
        (shared.cleanup, { shared with handles := 0, cleanup := none })
      else some (none, shared)
  | .exclusive, shared => some (decide (shared.handles = 1), shared)
  | .lockCleanup, shared => shared.cleanup.map fun cleanup => (cleanup, shared)
  | .storeCleanup cleanup, shared => some ((), { shared with cleanup := some cleanup })

end ReplayShared

/-- What the caller of a writer knows: the values it appended, how often it
sealed, whether an append or a seal came to nothing, and the last outcome. -/
structure Account (Value : Type) where
  appended : List Value
  seals : Nat
  broken : Bool
  last : Option (Except Abort Unit)

namespace Account

def new : Account Value := { appended := [], seals := 0, broken := false, last := none }

def appendReturned (account : Account Value) (value : Value) :
    Except Abort Unit → Account Value
  | .ok () => { account with appended := account.appended ++ [value], last := some (.ok ()) }
  | .error abort => { account with broken := true, last := some (.error abort) }

def sealReturned (account : Account Value) : Account Value :=
  { account with seals := account.seals + 1, last := some (.ok ()) }

def sealFailed (account : Account Value) (abort : Abort) : Account Value :=
  { account with broken := true, last := some (.error abort) }

def droppedCall (account : Account Value) : Account Value :=
  { account with broken := true, last := none }

def returned (account : Account Value) (outcome : Except Abort Unit) : Account Value :=
  { account with last := some outcome }

def interrupted (account : Account Value) : Account Value := { account with last := none }

end Account

/-- What the owner of a cursor knows: where it started or was last rewound to,
the items since then, and the last outcome. -/
structure Reading (Value : Type) where
  origin : Nat
  items : List Value
  last : Option (Except Abort (ReplayStep Value))

namespace Reading

def new (origin : Nat) : Reading Value := { origin, items := [], last := none }

def returned (reading : Reading Value) : Except Abort (ReplayStep Value) → Reading Value
  | .ok (.item value) =>
      { reading with items := reading.items ++ [value], last := some (.ok (.item value)) }
  | outcome => { reading with last := some outcome }

def interrupted (reading : Reading Value) : Reading Value := { reading with last := none }

end Reading

inductive ReplayOwner (Value : Type) where
  | writer (writer : ReplayWriter) (account : Account Value)
  | unwinding (writer : ReplayWriter) (account : Account Value)
  | sealed (writer : ReplayWriter) (replay : Replay) (account : Account Value)
  | cursor (cursor : ReplayCursor) (reading : Reading Value)
  | waiting (cursor : ReplayCursor) (reading : Reading Value)
  | left (guard : AsyncCleanupGuard) (account : Option (Account Value))
  | gone (account : Option (Account Value))

inductive ReplayCall (Value : Type) where
  | append (value : Value) (bytes : UInt64)
  | seal
  | abort
  | unwind
  | close
  | nextCommitted
  | next
  | rewind
  | drop
  | cleanup
  deriving DecidableEq, Repr

namespace ReplayOwner

def released (account : Option (Account Value)) : Option AsyncCleanupGuard → ReplayOwner Value
  | some guard => .left guard account
  | none => .gone account

/-- The outcome of one turn of `next`. -/
def turned (reading : Reading Value) :
    Except Abort (Option (Option Value)) → ReplayCursor → ReplayOwner Value
  | .ok none, current => .waiting current reading
  | .ok (some none), current => .cursor current (reading.returned (.ok .exhausted))
  | .ok (some (some value)), current => .cursor current (reading.returned (.ok (.item value)))
  | .error abort, current => .cursor current (reading.returned (.error abort))

def sealReturned (account : Account Value) :
    Except Abort Replay → ReplayWriter → ReplayOwner Value
  | .ok replay, current => .sealed current replay account.sealReturned
  | .error abort, current => .writer current (account.sealFailed abort)

def dropTurn (account : Option (Account Value)) : Turn Unit Value (ReplayOwner Value) :=
  turn (access .release) () (fun _ => .gone account) fun outcome _ =>
    released account (outcome.toOption.getD none)

variable [Layout Unit Value]

/-- The calls of each owner.  Drops and a spawned cleanup cannot be dropped. -/
def call : ReplayOwner Value → ReplayCall Value → Option
    (Bool × Turn Unit Value (ReplayOwner Value))
  | writer current account, .append value bytes =>
      some (true, turn (ReplayWriter.appendWithSize value bytes) current
        (fun current => .unwinding current account.droppedCall)
        fun outcome current => .writer current (account.appendReturned value outcome))
  | writer current account, .seal =>
      some (true, turn ReplayWriter.seal current
        (fun current => .unwinding current account.droppedCall)
        (sealReturned account))
  | writer current account, .abort =>
      some (true, turn ReplayWriter.abort current
        (fun current => .writer current account.interrupted)
        fun outcome current => .writer current (account.returned outcome))
  | writer current account, .drop =>
      some (false, turn ReplayWriter.drop current (fun current => .writer current account)
        fun outcome _ => released (some account) (outcome.toOption.getD none))
  | unwinding current account, .unwind =>
      some (false, turn Publication.fail current (fun current => .unwinding current account)
        fun _ current => .writer current account)
  | sealed current replay account, .append value bytes =>
      some (true, turn (ReplayWriter.appendWithSize value bytes) current
        (fun current => .sealed current replay account)
        fun outcome current => .sealed current replay (account.returned outcome))
  | sealed current replay account, .seal =>
      some (true, turn ReplayWriter.seal current (fun current => .sealed current replay account)
        fun outcome current => .sealed current replay (account.returned (outcome.map fun _ => ())))
  | sealed current replay account, .abort =>
      some (true, turn ReplayWriter.abort current (fun current => .sealed current replay account)
        fun outcome current => .sealed current replay (account.returned outcome))
  | sealed _ _ account, .close =>
      some (true, turn Replay.close none (released (some account.interrupted))
        fun outcome => released (some (account.returned outcome)))
  | sealed _ _ account, .drop => some (false, dropTurn (some account))
  | cursor current reading, .nextCommitted =>
      some (true, turn ReplayCursor.nextCommitted current
        (fun current => .cursor current reading.interrupted)
        fun outcome current => .cursor current (reading.returned outcome))
  | cursor current reading, .next | waiting current reading, .next =>
      some (true, turn ReplayCursor.nextTurn current
        (fun current => .cursor current reading.interrupted)
        (turned reading))
  | cursor current _, .rewind => some (true, .done (.cursor current.rewind (.new 0)))
  | cursor _ _, .drop => some (false, dropTurn none)
  | left guard account, .cleanup =>
      some (false, turn (AsyncCleanupGuard.dropTask guard) () (fun _ => .left guard account)
        fun _ _ => .gone account)
  | _, _ => none

end ReplayOwner

/-- A call in progress, or the last one: its owner and the shared state it began in. -/
structure Begun (Value : Type) where
  owner : ReplayOwner Value
  call : ReplayCall Value
  shared : ReplayShared

/-- What a call has observed, in order. -/
inductive Seen where
  | state (state : PublicationState)
  | rows (rows : Nat)
  | exclusive (alone : Bool)
  | performed (job : FsJob) (succeeded : Bool)
  deriving DecidableEq, Repr

def ReplayRequest.observed : (request : ReplayRequest) → request.Reply → List Seen
  | .loadState, state => [.state state]
  | .loadRows, rows => [.rows rows]
  | .exclusive, alone => [.exclusive alone]
  | .unwrap, taken => [.exclusive taken.isSome]
  | _, _ => []

def observed : (op : Request Unit Value) → op.Reply → List Seen
  | .replay request, reply => ReplayRequest.observed request reply
  | _, _ => []

def Await.observed : (await : Await) → await.Reply → List Seen
  | .job _ _ fsJob, reply => [.performed fsJob reply.toBool]
  | _, _ => []

structure ReplayActor (Value : Type) where
  actor : Actor Unit Value (ReplayOwner Value)
  begun : Option (Begun Value)
  seen : List Seen

inductive Party where
  | keeper
  | reader (number : Nat)
  deriving DecidableEq, Repr

section Clients

variable [Layout Unit Value] (codec : Codec Unit Value)

/-- The replies to the requests of a replay that do not suspend. -/
def replayAnswers : (op : Request Unit Value) → World ReplayShared → op.Reply →
    World ReplayShared → Prop :=
  Answers codec fun request shared reply next => shared.access request = some (reply, next)

/-- A call that runs to its end without a step of anyone else. -/
def atOnce : Semantics (engine Unit Value) (World ReplayShared) where
  reply op world reply next := op.awaits = false ∧ replayAnswers codec op world reply next
  drop _ _ _ := False

namespace ReplayActor

def owned (owner : ReplayOwner Value) : ReplayActor Value :=
  { actor := .owner owner, begun := none, seen := [] }

inductive Moves : ReplayActor Value → World ReplayShared → ReplayActor Value →
    World ReplayShared → Prop where
  | call {owner label cancellable turn begun seen world} :
      owner.call label = some (cancellable, turn) →
      Moves { actor := .owner owner, begun, seen } world
        { actor := .running cancellable turn, begun :=
          some ⟨owner, label, world.shared⟩, seen := [] }
        world
  | answer {cancellable left op resume begun seen world reply next} :
      op.awaits = false → replayAnswers codec op world reply next →
      Moves { actor := .running cancellable (.request left op resume), begun, seen } world
        { actor := .running cancellable (resume reply), begun, seen :=
          seen ++ observed op reply } next
  | return {cancellable owner begun seen world} :
      Moves { actor := .running cancellable (.done owner), begun, seen } world
        { actor := .owner owner, begun, seen } world

/-- Cursors are handed out between two calls: no one else sees the steps between
the new reference and the cursor. -/
inductive Forks : ReplayActor Value → World ReplayShared → ReplayActor Value →
    World ReplayShared → Prop where
  | prefixCursor {writer account begun seen world cursor left next} :
      Runs (atOnce codec) (ReplayWriter.prefixCursor writer) world
        (.returned (.ok cursor, left)) next →
      Forks { actor := .owner (.writer writer account), begun, seen } world
        (owned (.cursor cursor (.new cursor.position))) next
  | cursor {writer replay account begun seen world cursor next} :
      Runs (atOnce codec) (replay.cursor ()) world (.returned (.ok cursor, ())) next →
      Forks { actor := .owner (.sealed writer replay account), begun, seen } world
        (owned (.cursor cursor (.new cursor.position))) next
  | clone {cursor reading begun seen world next} :
      Runs (atOnce codec) (access .retain ()) world (.returned (.ok (), ())) next →
      Forks { actor := .owner (.cursor cursor reading), begun, seen } world
        (owned (.cursor cursor (.new cursor.position))) next

end ReplayActor

/-- One replay with the readers of its rows. -/
def replays (inner : ReplayInner) :
    Clients ReplayShared fun _ : Party => ReplayActor Value where
  starts party actor := party = .keeper ∧ actor = .owned (.writer (.new inner) .new)
  forks _ child actor world childActor next :=
    (∃ number, child = .reader number) ∧ ReplayActor.Forks codec actor world childActor next
  moves _ := ReplayActor.Moves codec
  awaits _ actor := actor.actor.awaits
  resumes _ actor await reply actor' := Actor.Resumes actor.actor await reply actor'.actor ∧
    actor'.begun = actor.begun ∧ actor'.seen = actor.seen ++ Await.observed await reply
  woken _ actor world := ∃ token, actor.actor.awaits = some (.changed token) ∧
    world.shared.notices ≠ token
  cancels _ actor actor' := Actor.Cancels actor.actor actor'.actor ∧
    actor'.begun = actor.begun ∧ actor'.seen = actor.seen

end Clients

end SortGovernor.Runtime
