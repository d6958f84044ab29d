import SortGovernor.Runtime.Execute
import SortGovernor.Runtime.ReplayRun

/-!
# Executing a replay

A replay over a serializer given by functions is executable, its readers
included.  A script that runs to its end is one of the runs of the replay.
-/

namespace SortGovernor.Runtime

open SortGovernor.Engine SortGovernor.Resumption

variable {Value : Type}

section Policy

variable (pure : PureCodec Unit Value)

def replayAnswer (op : Request Unit Value) (world : World ReplayShared) :
    Option (op.Reply × World ReplayShared) :=
  Actor.answer pure (fun request shared => shared.access request) op world

def atOncePolicy (op : Request Unit Value) (world : World ReplayShared) :
    Option (op.Reply × World ReplayShared) :=
  if op.awaits = false then replayAnswer pure op world else none

variable {pure}

theorem replayAnswer_sound {op : Request Unit Value} {world next : World ReplayShared}
    {reply : op.Reply} (answered : replayAnswer pure op world = some (reply, next)) :
    replayAnswers pure.codec op world reply next :=
  Actor.answer_sound (fun _ _ _ _ accessed => accessed) answered

theorem atOncePolicy_sound (op : Request Unit Value) (world : World ReplayShared) (reply : op.Reply)
    (next : World ReplayShared) (answered : atOncePolicy pure op world = some (reply, next)) :
    (atOnce pure.codec).reply op world reply next := by
  obtain ⟨atOnce, answered⟩ := Option.ite_none_right_eq_some.mp answered
  exact ⟨atOnce, replayAnswer_sound answered⟩

end Policy

namespace ReplayActor

section Moves

variable [Layout Unit Value] (pure : PureCodec Unit Value)

def advance (label : ReplayCall Value) :
    ReplayActor Value → World ReplayShared → Option (ReplayActor Value × World ReplayShared)
  | { actor := .owner owner, .. }, world => (owner.call label).map fun (cancellable, turn) =>
      ({ actor := .running cancellable turn, begun :=
        some ⟨owner, label, world.shared⟩, seen := [] },
        world)
  | { actor := .running _ (.done owner), begun, seen }, world =>
      some ({ actor := .owner owner, begun, seen }, world)
  | { actor := .running cancellable (.request _ op resume), begun, seen }, world =>
      if op.awaits = false then
        (replayAnswer pure op world).map fun (reply, next) =>
          ({ actor := .running cancellable (resume reply), begun, seen :=
            seen ++ observed op reply },
            next)
      else none

def lend : ReplayActor Value → World ReplayShared → Option (ReplayActor Value × World ReplayShared)
  | { actor := .owner (.writer writer _), .. }, world =>
      match (ReplayWriter.prefixCursor writer).follow (atOncePolicy pure) world with
      | some ((.ok cursor, _), next) => some (.owned (.cursor cursor (.new cursor.position)), next)
      | _ => none
  | { actor := .owner (.sealed _ replay _), .. }, world =>
      match ((replay.cursor : Async Unit Value Unit ReplayCursor) ()).follow
          (atOncePolicy pure) world with
      | some ((.ok cursor, _), next) => some (.owned (.cursor cursor (.new cursor.position)), next)
      | _ => none
  | { actor := .owner (.cursor cursor _), .. }, world =>
      match ((access .retain : Async Unit Value Unit Unit) ()).follow (atOncePolicy pure) world with
      | some ((.ok _, _), next) => some (.owned (.cursor cursor (.new cursor.position)), next)
      | _ => none
  | _, _ => none

variable {pure}

theorem advance_sound {label : ReplayCall Value} {actor actor' : ReplayActor Value}
    {world next : World ReplayShared}
    (advanced : advance pure label actor world = some (actor', next)) :
    Moves pure.codec actor world actor' next := by
  unfold advance at advanced
  split at advanced
  · obtain ⟨⟨cancellable, turn⟩, called, ⟨⟩⟩ := Option.map_eq_some_iff.mp advanced
    exact .call called
  · cases advanced
    exact .return
  · obtain ⟨atOnce, advanced⟩ := Option.ite_none_right_eq_some.mp advanced
    obtain ⟨⟨reply, next⟩, answered, ⟨⟩⟩ := Option.map_eq_some_iff.mp advanced
    exact .answer atOnce (replayAnswer_sound answered)

omit [Layout Unit Value] in
theorem lend_sound {actor child : ReplayActor Value} {world next : World ReplayShared}
    (lent : lend pure actor world = some (child, next)) :
      Forks pure.codec actor world child next := by
  unfold lend at lent
  split at lent
  · split at lent
    · rename_i followed
      cases lent
      exact .prefixCursor (Program.runs_of_follow atOncePolicy_sound followed)
    · cases lent
  · split at lent
    · rename_i followed
      cases lent
      exact .cursor (Program.runs_of_follow atOncePolicy_sound followed)
    · cases lent
  · split at lent
    · rename_i followed
      cases lent
      exact .clone (Program.runs_of_follow atOncePolicy_sound followed)
    · cases lent
  · cases lent

end Moves

end ReplayActor

section Scripts

variable [Layout Unit Value]

/-- A replay over one serializer, by calls. -/
def replayScripts (pure : PureCodec Unit Value) (inner : ReplayInner) :
    Executable (replays pure.codec inner) (ReplayCall Value) where
  start
    | .keeper, _ => some (.owned (.writer (.new inner) .new))
    | .reader _, _ => none
  fork
    | _, .reader _, actor, world => actor.lend pure world
    | _, .keeper, _, _ => none
  move _ label actor world := actor.advance pure label world
  resume _ actor awaited reply := (actor.actor.resume awaited reply).map fun next =>
    { actor with actor := next, seen := actor.seen ++ awaited.observed reply }
  woken _ actor world :=
    match actor.actor.awaits with
    | some (.changed token) => decide (world.shared.notices ≠ token)
    | _ => false
  cancel _ actor := actor.actor.cancel.map fun next => { actor with actor := next }
  start_sound := by
    intro party label actor started
    cases party with
    | keeper =>
        cases started
        exact ⟨rfl, rfl⟩
    | reader number => cases started
  fork_sound := by
    intro party child actor world childActor next forked
    cases child with
    | keeper => cases forked
    | reader number => exact ⟨⟨number, rfl⟩, ReplayActor.lend_sound forked⟩
  move_sound _ _ _ _ _ _ := ReplayActor.advance_sound
  resume_sound := by
    intro party actor awaited reply actor' resumed
    obtain ⟨next, goes, ⟨⟩⟩ := Option.map_eq_some_iff.mp resumed
    exact ⟨Actor.resume_sound goes, rfl, rfl⟩
  woken_sound := by
    intro party actor world woken
    split at woken
    · rename_i token awaits
      exact ⟨token, awaits, of_decide_eq_true woken⟩
    · cases woken
  cancel_sound := by
    intro party actor actor' cancelled
    obtain ⟨next, drops, ⟨⟩⟩ := Option.map_eq_some_iff.mp cancelled
    exact ⟨Actor.cancel_sound drops, rfl, rfl⟩

end Scripts

instance replayLayout : Layout Unit Nat where
  rowSize := 1
  pairSize := 1
  sourceSize := 1
  heapEntrySize := 1
  sessionSize := 1
  readerSize := 1
  replayWriterSize := 1
  replayInnerSize := 1
  futureSize _ := 1
  pathCapacity _ := 1
  dirCapacity _ := 1
  dirDisplay _ := ""
  rowSize_pos := Nat.one_pos
  rowSize_le := Nat.le_of_ble_eq_true rfl

/-- A number and an ordinal below 256, one byte each; larger ones are refused. -/
def replayRows : PureCodec Unit Nat where
  encode row :=
    if row.value < 256 ∧ row.ordinal < 256 then
      { writes := [[.ofNat row.value, .ofNat row.ordinal]], failure := none }
    else { writes := [], failure := some "out of range" }
  decode
    | [value, ordinal] => .ok ((), value.toNat, ordinal.toNat)
    | _ => .error "length"
  decode_encode := by
    intro row complete
    split at complete
    · rename_i small
      have exact_byte : ∀ n < 256, (UInt8.ofNat n).toNat = n := by simp
      simp [Serialization.bytes, RunRow.record, exact_byte, small]
    · cases complete

def byteInner : ReplayInner := { dir := 0, scope := 0 }

abbrev byteReplay : Clients ReplayShared fun _ : Party => ReplayActor Nat :=
  replays replayRows.codec byteInner

abbrev ReplayScript := List (Executable.Line (ReplayCall Nat) fun _ : Party => ReplayActor Nat)

/-- Nobody has written to the replay, and one permit is free. -/
def byteStart : ReplayState Nat := newReplay byteInner 1 World.empty.fs

/-- The script goes on from a state. -/
def resumeReplay (script : ReplayScript) (state : ReplayState Nat) : Option (ReplayState Nat) :=
  (replayScripts replayRows byteInner).perform (fun _ => true) script state

def runReplay (script : ReplayScript) : Option (ReplayState Nat) := resumeReplay script byteStart

theorem reaches_of_resumeReplay {script : ReplayScript} {state : ReplayState Nat}
    {test : ReplayState Nat → Bool} (tested : (resumeReplay script state).any test = true) :
    ∃ state', Reaches byteReplay anyStep state state' ∧ test state' = true := by
  obtain ⟨state', performed, holds⟩ := (Option.any_eq_true _ _).mp tested
  exact ⟨state', Executable.perform_sound (fun _ _ _ => trivial) .refl performed, holds⟩

theorem reaches_of_runReplay (script : ReplayScript) (test : ReplayState Nat → Bool)
    (tested : (runReplay script).any test = true) :
    ∃ state, Reaches byteReplay anyStep byteStart state ∧ test state = true :=
  reaches_of_resumeReplay tested

def restsTask : Task (ReplayActor Nat) → Bool
  | ⟨⟨.owner _, _, _⟩, _⟩ => true
  | _ => false

def asleep (task : Task (ReplayActor Nat)) : Bool := task.suspended

/-- A party between two calls, and the last one it made. -/
structure Rest where
  owner : ReplayOwner Nat
  begun : Begun Nat
  seen : List Seen

def resting (party : Party) (state : ReplayState Nat) : Option Rest :=
  match state.tasks party with
  | some ⟨⟨.owner owner, some begun, seen⟩, false⟩ => some ⟨owner, begun, seen⟩
  | _ => none

theorem tasks_of_resting {party : Party} {state : ReplayState Nat} {rest : Rest}
    (rests : resting party state = some rest) :
    state.tasks party = some ⟨⟨.owner rest.owner, some rest.begun, rest.seen⟩, false⟩ := by
  unfold resting at rests
  split at rests
  · rename_i found
    cases rests
    exact found
  · cases rests

def pulled : ReplayOwner Nat → Option (ReplayCursor × Reading Nat)
  | .cursor cursor reading => some (cursor, reading)
  | _ => none

/-- A reader that waits for a notification. -/
structure Sleeper where
  cancellable : Bool
  left : ReplayOwner Nat
  token : Nat
  resume : Unit → Turn Unit Nat (ReplayOwner Nat)
  begun : Option (Begun Nat)
  seen : List Seen

def sleeping (number : Nat) (state : ReplayState Nat) : Option Sleeper :=
  match state.tasks (.reader number) with
  | some ⟨⟨.running cancellable (.request left (.replay (.changed token)) resume), begun, seen⟩,
      true⟩ =>
      some ⟨cancellable, left, token, resume, begun, seen⟩
  | _ => none

theorem tasks_of_sleeping {number : Nat} {state : ReplayState Nat} {sleeper : Sleeper}
    (sleeps : sleeping number state = some sleeper) :
    state.tasks (.reader number) = some ⟨⟨.running sleeper.cancellable
      (.request sleeper.left (.replay (.changed sleeper.token) : Request Unit Nat) sleeper.resume),
      sleeper.begun, sleeper.seen⟩, true⟩ := by
  unfold sleeping at sleeps
  split at sleeps
  · rename_i found
    cases sleeps
    exact found
  · cases sleeps

def returns (party : Party) (call : ReplayCall Nat) : ReplayScript :=
  [.choose (.move party call), .drive party call restsTask 200]

def appendOne : ReplayScript :=
  .choose (.start .keeper .seal) :: returns .keeper (.append 7 1)

def appendAndLend : ReplayScript := appendOne ++ [.choose (.fork .keeper (.reader 0))]

/-- One row, and another append that its caller drops while it writes. -/
def appendAndDrop : ReplayScript :=
  appendOne ++ [.choose (.move .keeper (.append 8 1)), .drive .keeper .seal asleep 200,
    .choose (.acquire 0), .choose (.work 0), .choose (.cancel .keeper)] ++ returns .keeper .unwind

def joinAppend : ReplayScript :=
  List.replicate 5 (.choose (.work 0)) ++ List.replicate 3 (.choose (.release 0))

def abortedWell (rest : Rest) : Bool :=
  match rest.owner with
  | .writer _ account =>
      rest.begun.call = .abort ∧ rest.begun.owner.writes = true ∧ account.last = some (.ok ())
  | _ => false

theorem exists_of_abortedWell {rest : Rest} (aborted : abortedWell rest = true) :
    ∃ writer account, rest.owner = .writer writer account ∧ rest.begun.call = .abort ∧
      rest.begun.owner.writes = true ∧ account.last = some (.ok ()) := by
  unfold abortedWell at aborted
  split at aborted
  · exact ⟨_, _, ‹_›, of_decide_eq_true aborted⟩
  · cases aborted

example : (runReplay appendOne).any (fun state => state.world.shared.rows = 1) = true := by
  decide +kernel

end SortGovernor.Runtime
