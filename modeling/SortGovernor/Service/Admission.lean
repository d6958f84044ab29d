import SortGovernor.Engine.Execute
import SortGovernor.Engine.Holds
import SortGovernor.Service.Actor

/-!
# Admission and the leases it hands out

Clients submit sorts through a bounded queue and may drop their reply receiver
at any time.  A lease travels from the actor through the reply channel to its
caller, and on into a session, an output stream or the storage of a replay.
Whoever owns it last drops it, and the drop decrements the governor's counter.
-/

namespace SortGovernor.Service

open SortGovernor.Engine SortGovernor.Plan SortGovernor.Resumption

/-- The engine's calls under any replies at all; a future can be dropped where
it suspends. -/
def anyReply {Key Value : Type} : Semantics (engine Key Value) Unit where
  reply _ _ _ _ := True
  drop op _ _ := op.awaits = true

def commandChannelCapacity : Nat := 256

/-- A queued command; `listening` until its client drops the receiver. -/
inductive SorterCommand where
  | submit (spec : SortSpec) (listening : Bool)
  | stats (listening : Bool)

def SorterCommand.hangUp : SorterCommand → SorterCommand
  | submit spec _ => submit spec false
  | stats _ => stats false

/-- Where a lease is.  A session and a stream own it themselves; the replay
storage lives as long as one of its handles. -/
inductive Place {Rows : Type} (Key Value : Rows → Type) where
  | sending (listening : Bool)
  | reply
  | caller
  | session (row : Rows) (session : SortSession (Key row) (Value row))
  | pushing (row : Rows) (session : SortSession (Key row) (Value row))
  | finishing (row : Rows) (session : SortSession (Key row) (Value row))
  | stream (row : Rows) (stream : ValueStream (Key row) (Value row))
  | polling (row : Rows) (stream : ValueStream (Key row) (Value row))
  | storage (handles : Nat)

variable {Rows : Type} {Key Value : Rows → Type}

namespace Place

/-- The places that keep a lease alive: all but an output stream that ended. -/
def live : Place Key Value → Bool
  | stream _ output | polling _ output => !output.isEnded
  | _ => true

def held (lease : SortLease) : Place Key Value → Option Resource
  | session _ sort | pushing _ sort | finishing _ sort => sort.hold
  | stream _ output | polling _ output => output.held
  | _ => some lease.resource

def droppable : Place Key Value → Bool
  | sending _ | storage _ => false
  | _ => true

end Place

/-- Leaving `place` for `place'`, or for good, drops the lease. -/
def Drops (lease : SortLease) (place : Place Key Value)
    (place' : Option (Place Key Value)) : Prop :=
  place.held lease = some lease.resource ∧
    place'.bind (Place.held lease) ≠ some lease.resource

instance (lease : SortLease) (place : Place Key Value) (place' : Option (Place Key Value)) :
    Decidable (Drops lease place place') :=
  inferInstanceAs (Decidable (_ ∧ _))

section Moves

variable [∀ row, LinearOrder (Key row)] [∀ row, Layout (Key row) (Value row)]
  (locate : String → ScratchDir)

/-- What may happen to one lease.  `locate` is the directory a path names. -/
inductive Move (lease : SortLease) : Place Key Value → Option (Place Key Value) → Prop where
  | hangUp : Move lease (.sending true) (some (.sending false))
  | send : Move lease (.sending true) (some .reply)
  | undelivered : Move lease (.sending false) none
  | deliver : Move lease .reply (some .caller)
  | intoSession (row : Rows) (dedup : Bool) (scope : ScopeId) :
      Move lease .caller (some (.session row
        (.new lease.plan (locate lease.scratchDir) dedup scope (some lease.resource))))
  | intoReplayWriter : Move lease .caller (some (.storage 1))
  | push {row session} : Move lease (.session row session) (some (.pushing row session))
  | pushed {row session result session'} (key : Key row) (value : Value row) (bytes : UInt64) :
      Runs anyReply (SortSession.pushWithSize key value bytes session) ()
        (.returned (result, session')) () →
      Move lease (.pushing row session) (some (.session row session'))
  | pushDropped {row session session'} (key : Key row) (value : Value row) (bytes : UInt64) :
      Runs anyReply (SortSession.pushWithSize key value bytes session) () (.dropped session') () →
      Move lease (.pushing row session) (some (.session row session'))
  | finish {row session} : Move lease (.session row session) (some (.finishing row session))
  | finished {row session stream session'} :
      Runs anyReply (SortSession.finish session) () (.returned (.ok stream, session')) () →
      Move lease (.finishing row session) (some (.stream row stream))
  | finishFailed {row session abort session'} :
      Runs anyReply (SortSession.finish session) () (.returned (.error abort, session')) () →
      Move lease (.finishing row session) none
  | poll {row stream} : Move lease (.stream row stream) (some (.polling row stream))
  | polled {row stream item stream'} :
      Runs anyReply (ValueStream.next stream) () (.returned (.ok item, stream')) () →
      Move lease (.polling row stream) (some (.stream row stream'))
  | share {handles} : 0 < handles →
      Move lease (.storage handles) (some (.storage (handles + 1)))
  | unshare {handles} : 0 < handles →
      Move lease (.storage (handles + 1)) (some (.storage handles))
  | lastHandle : Move lease (.storage 1) none
  | drop {place} : place.droppable = true → Move lease place none

/-- The governor, its queue, the leases around and those issued so far. -/
structure State {Rows : Type} (Key Value : Rows → Type) where
  actor : SorterActor
  queue : List SorterCommand
  holders : List (SortLease × Place Key Value)
  issued : List SortLease

omit [∀ row, LinearOrder (Key row)] [∀ row, Layout (Key row) (Value row)] in
/-- The actor is not in the middle of an admission. -/
def State.Idle (state : State Key Value) : Prop :=
  ∀ holder ∈ state.holders, ∀ listening, holder.2 ≠ .sending listening

inductive Event where
  | quiet
  | admitted (lease : SortLease)
  | refused (error : SorterError)
  | released (lease : SortLease)
  | stats (stats : SorterStats)

inductive Step (state : State Key Value) : Event → State Key Value → Prop where
  | submit (spec : SortSpec) : state.queue.length < commandChannelCapacity →
      Step state .quiet { state with queue := state.queue ++ [.submit spec true] }
  | askStats : state.queue.length < commandChannelCapacity →
      Step state .quiet { state with queue := state.queue ++ [.stats true] }
  | hangUp {before command after} : state.queue = before ++ command :: after →
      Step state .quiet { state with queue := before ++ command.hangUp :: after }
  | admission {spec listening queue lease} (readings : Readings) :
      state.queue = .submit spec listening :: queue → state.Idle →
      (state.actor.admitSort spec readings).2 = .ok lease →
      Step state (.admitted lease)
        { actor := (state.actor.admitSort spec readings).1
          queue
          holders := state.holders ++ [(lease, .sending listening)]
          issued := state.issued ++ [lease] }
  | refuse {spec listening queue error} (readings : Readings) :
      state.queue = .submit spec listening :: queue → state.Idle →
      (state.actor.admitSort spec readings).2 = .error error →
      Step state (.refused error)
        { state with actor := (state.actor.admitSort spec readings).1, queue }
  | stats {listening queue} (readings : Readings) :
      state.queue = .stats listening :: queue → state.Idle →
      Step state (.stats (state.actor.stats readings)) { state with queue }
  | move {before lease place after place'} :
      state.holders = before ++ (lease, place) :: after → Move locate lease place place' →
      Step state (if Drops lease place place' then .released lease else .quiet)
        { state with
          actor := if Drops lease place place' then state.actor.release lease else state.actor
          holders := before ++ (place'.map fun place' => (lease, place')).toList ++ after }

/-- The states of a governor with this namespace. -/
inductive Reaches (namespaceId : Uuid) : State Key Value → Prop where
  | new (config : SorterConfig) (fdBudget : Nat) (scratchRoot : String) :
      Reaches namespaceId
        { actor := .new config fdBudget scratchRoot namespaceId
          queue := []
          holders := []
          issued := [] }
  | step {state event state'} : Reaches namespaceId state → Step locate state event state' →
      Reaches namespaceId state'

end Moves

def counted (holder : SortLease × Place Key Value) : Bool :=
  holder.1.active && holder.2.live

/-- The external leases still alive. -/
def State.alive (state : State Key Value) : Nat :=
  state.holders.countP counted

/-- A place keeps the lease alive exactly when its object holds it. -/
def Place.Keeps (lease : SortLease) (place : Place Key Value) : Prop :=
  place.held lease = if place.live then some lease.resource else none

section Invariant

variable {lease : SortLease} {place : Place Key Value} {place' : Option (Place Key Value)}

theorem Place.Keeps.drops_iff (keeps : place.Keeps lease)
    (keeps' : ∀ next, place' = some next → next.Keeps lease) :
    Drops lease place place' ↔ place.live = true ∧ place'.any Place.live = false := by
  have before : place.held lease = some lease.resource ↔ place.live = true := by
    rw [keeps]
    split <;> simp_all
  have after : place'.bind (Place.held lease) = some lease.resource ↔
      place'.any Place.live = true := by
    cases place' with
    | none => simp
    | some next =>
        have held : next.held lease = if next.live then some lease.resource else none :=
          keeps' next rfl
        rw [Option.bind_some, Option.any_some, held]
        split <;> simp_all
  unfold Drops
  rw [before, Ne, after, Bool.not_eq_true]

variable [∀ row, LinearOrder (Key row)] [∀ row, Layout (Key row) (Value row)]
  {locate : String → ScratchDir}

/-- A lease that moves on is held by the object it moves into. -/
theorem Move.keeps (move : Move locate lease place place') (keeps : place.Keeps lease) :
    ∀ next, place' = some next → next.Keeps lease := by
  rintro next named
  cases move with
  | hangUp | send | deliver | intoSession | intoReplayWriter | share | unshare =>
      cases named
      rfl
  | push | finish | poll =>
      cases named
      exact keeps
  | undelivered | lastHandle | finishFailed | drop => cases named
  | pushed key value bytes run =>
      cases named
      rename_i row session result session'
      have stayed := Method.wp_returned
        (SortSession.stays_pushWithSize_hold key value bytes session () keeps) run
      cases result <;> exact stayed
  | pushDropped key value bytes run =>
      cases named
      rename_i row session session'
      obtain ⟨_, _, stayed, _⟩ := Method.wp_dropped
        (SortSession.stays_pushWithSize_hold key value bytes session () keeps) run
      exact stayed
  | finished run =>
      cases named
      rename_i row session stream session'
      obtain ⟨unended, held⟩ := Method.wp_returned (SortSession.wp_finish_held keeps) run
      unfold Place.Keeps Place.live Place.held
      simp only [unended, held]
      rfl
  | polled run =>
      cases named
      rename_i row stream item stream'
      obtain ⟨unended, left⟩ := Method.wp_returned (ValueStream.wp_next_held rfl) run
      have held : stream.held = some lease.resource := by
        simpa only [Place.Keeps, Place.live, Place.held, unended, Bool.not_false, if_true]
          using keeps
      show stream'.held = if (!stream'.isEnded) = true then some lease.resource else none
      cases item with
      | none => rw [ValueStream.held_of_isEnded left, show stream'.isEnded = true from left]; rfl
      | some item => rw [left.1, left.2, held]; rfl

theorem Move.live (move : Move locate lease place place') (dead : place.live = false) :
    place'.any Place.live = false := by
  cases move with
  | poll => exact dead
  | polled run =>
      obtain ⟨unended, -⟩ := Method.wp_returned (ValueStream.wp_next_held rfl) run
      have ended : (!ValueStream.isEnded _) = false := dead
      rw [unended] at ended
      cases ended
  | undelivered | finishFailed | lastHandle | drop => rfl
  | _ => cases dead

end Invariant

section Counter

variable {actor actor' : SorterActor} {spec : SortSpec} {readings : Readings}

theorem ofNat_succ_sub (count : Nat) : UInt32.ofNat (count + 1) - 1 = UInt32.ofNat count := by
  rw [UInt32.ofNat_add]
  exact UInt32.add_sub_cancel _ _

theorem toNat_ofNat_of_lt {count : Nat} (few : count < 2 ^ 32) :
    (UInt32.ofNat count).toNat = count := by
  rw [UInt32.toNat_ofNat']
  exact Nat.mod_eq_of_lt few

theorem admit_error {error : SorterError}
    (refused : (actor.admitSort spec readings).2 = .error error) :
    (actor.admitSort spec readings).1 = actor ∧ error = .runLimit ∧ u64Max ≤ actor.nextId := by
  simp only [SorterActor.admitSort] at refused ⊢
  cases next : checkedAdd u64Max actor.nextId 1 with
  | none =>
      simp only [next] at refused ⊢
      cases refused
      exact ⟨trivial, rfl, Nat.le_of_lt_succ (checkedAdd_eq_none.mp next)⟩
  | some next' =>
      simp only [next] at refused
      split at refused <;> cases refused

/-- What a successful admission does to the actor. -/
structure Admits (actor : SorterActor) (lease : SortLease) (actor' : SorterActor) : Prop where
  fresh : lease.id = actor.nextId
  room : actor.nextId < u64Max
  dir : lease.scratchDir = actor.scratchDir lease.id
  dirs : actor'.scratchDir = actor.scratchDir
  named : actor'.namespaceId = actor.namespaceId
  next : actor'.nextId = actor.nextId + 1
  counts : actor'.inMemoryCount + actor'.externalCount =
    actor.inMemoryCount + actor.externalCount + 1
  active : actor'.active = actor.active + UInt32.ofNat lease.active.toNat

theorem admit_ok {lease : SortLease} (admitted : (actor.admitSort spec readings).2 = .ok lease) :
    Admits actor lease (actor.admitSort spec readings).1 := by
  unfold SorterActor.admitSort at admitted ⊢
  cases next : checkedAdd u64Max actor.nextId 1 with
  | none =>
      simp only [next] at admitted
      cases admitted
  | some next' =>
      obtain ⟨room, rfl⟩ := checkedAdd_eq_some.mp next
      simp only [next] at admitted ⊢
      split at admitted <;> rename_i planned <;> cases admitted
      · exact ⟨rfl, room, rfl, rfl, rfl, rfl, by dsimp only; omega, by simp⟩
      · exact ⟨rfl, room, rfl, rfl, rfl, rfl, by dsimp only; omega, rfl⟩

end Counter

section Invariant

variable [∀ row, LinearOrder (Key row)] [∀ row, Layout (Key row) (Value row)]
  {locate : String → ScratchDir} {namespaceId : Uuid} {state state' : State Key Value}

/-- What holds of a governor and its leases in every state. -/
structure State.Sound (namespaceId : Uuid) (state : State Key Value) : Prop where
  keeps : ∀ holder ∈ state.holders, holder.2.Keeps holder.1
  active : state.actor.active = UInt32.ofNat state.alive
  counts : state.actor.inMemoryCount + state.actor.externalCount = state.actor.nextId
  word : state.actor.nextId ≤ u64Max
  named : state.actor.namespaceId = namespaceId
  ids : state.issued.map SortLease.id = List.range state.actor.nextId
  dirs : ∀ lease ∈ state.issued, lease.scratchDir = state.actor.scratchDir lease.id

omit [∀ row, LinearOrder (Key row)] [∀ row, Layout (Key row) (Value row)] in
/-- The new lease is counted from its admission on. -/
theorem State.Sound.admitSort {spec : SortSpec} {readings : Readings} {lease : SortLease}
    {queue : List SorterCommand} {listening : Bool} (sound : state.Sound namespaceId)
    (admitted : (state.actor.admitSort spec readings).2 = .ok lease) :
    State.Sound namespaceId
      ({ actor := (state.actor.admitSort spec readings).1
         queue
         holders := state.holders ++ [(lease, .sending listening)]
         issued := state.issued ++ [lease] } : State Key Value) := by
  have admits := admit_ok admitted
  constructor
  · intro holder member
    obtain member | member := List.mem_append.mp member
    · exact sound.keeps holder member
    · cases List.mem_singleton.mp member
      rfl
  · have one : (⟨(state.actor.admitSort spec readings).1, queue,
        state.holders ++ [(lease, .sending listening)], state.issued ++ [lease]⟩ :
          State Key Value).alive = state.alive + lease.active.toNat := by
      unfold State.alive
      rw [List.countP_append]
      cases active : lease.active <;> simp [counted, Place.live, active]
    rw [one, UInt32.ofNat_add, admits.active, sound.active]
  · rw [admits.counts, admits.next, sound.counts]
  · rw [admits.next]
    exact admits.room
  · rw [admits.named, sound.named]
  · rw [admits.next, List.map_append, sound.ids, List.range_succ, List.map_singleton, admits.fresh]
  · intro issued member
    rw [admits.dirs]
    obtain member | member := List.mem_append.mp member
    · exact sound.dirs issued member
    · cases List.mem_singleton.mp member
      exact admits.dir

theorem alive_move (actor : SorterActor) {before after : List (SortLease × Place Key Value)}
    {lease : SortLease} {place : Place Key Value} {place' : Option (Place Key Value)}
    (sound : state.Sound namespaceId) (holders : state.holders = before ++ (lease, place) :: after)
    (move : Move locate lease place place') :
    state.alive =
      State.alive { state with
        actor, holders := before ++ (place'.map fun place' => (lease, place')).toList ++ after } +
        (if Drops lease place place' then lease.active.toNat else 0) := by
  have keeps := sound.keeps (lease, place) (by simp [holders])
  have drops : Drops lease place place' ↔ place.live = true ∧ place'.any Place.live = false :=
    keeps.drops_iff (move.keeps keeps)
  have stays := move.live
  have there : List.countP counted (place'.map fun place' => (lease, place')).toList =
      (if lease.active && place'.any Place.live then 1 else 0) := by
    cases place' with
    | none => simp
    | some next => simp [counted, List.countP_singleton]
  simp only [State.alive, holders, List.countP_append, List.countP_cons, there, drops]
  cases active : lease.active <;> cases live : place.live <;>
    cases live' : place'.any Place.live <;> simp_all [counted] <;> omega

theorem State.Sound.move {before after : List (SortLease × Place Key Value)} {lease : SortLease}
    {place : Place Key Value} {place' : Option (Place Key Value)}
    (sound : state.Sound namespaceId) (holders : state.holders = before ++ (lease, place) :: after)
    (move : Move locate lease place place') :
    State.Sound namespaceId
      { state with
        actor := if Drops lease place place' then state.actor.release lease else state.actor
        holders := before ++ (place'.map fun place' => (lease, place')).toList ++ after } := by
  have keeps := sound.keeps (lease, place) (by simp [holders])
  have alive := alive_move (if Drops lease place place' then state.actor.release lease
    else state.actor) sound holders move
  have same : ∀ (fields : SorterActor → Prop), fields state.actor →
      (∀ active, fields { state.actor with active }) →
      fields (if Drops lease place place' then state.actor.release lease else state.actor) := by
    intro fields kept changed
    unfold SorterActor.release
    split
    · split
      · exact changed _
      · exact kept
    · exact kept
  constructor
  · intro holder member
    obtain member | member := List.mem_append.mp member
    · obtain member | member := List.mem_append.mp member
      · exact sound.keeps holder (by simp [holders, member])
      · obtain ⟨next, named, rfl⟩ : ∃ next, place' = some next ∧ (lease, next) = holder := by
          simpa using member
        exact move.keeps keeps next named
    · exact sound.keeps holder (by simp [holders, member])
  · have counter := sound.active
    rw [alive] at counter
    generalize State.alive _ = alive' at counter ⊢
    show (if Drops lease place place' then state.actor.release lease else state.actor).active = _
    unfold SorterActor.release
    cases active : lease.active <;> by_cases drops : Drops lease place place' <;>
      simp only [active, drops, if_true, if_false, Bool.false_eq_true, Bool.toNat_false,
        Bool.toNat_true, Nat.add_zero] at counter ⊢
    · exact counter
    · exact counter
    · rw [counter, ofNat_succ_sub]
    · exact counter
  · exact same (fun actor => actor.inMemoryCount + actor.externalCount = actor.nextId)
      sound.counts fun _ => sound.counts
  · exact same (fun actor => actor.nextId ≤ u64Max) sound.word fun _ => sound.word
  · exact same (fun actor => actor.namespaceId = namespaceId) sound.named fun _ => sound.named
  · exact same (fun actor => state.issued.map SortLease.id = List.range actor.nextId) sound.ids
      fun _ => sound.ids
  · exact same (fun actor => ∀ lease ∈ state.issued, lease.scratchDir = actor.scratchDir lease.id)
      sound.dirs fun _ => sound.dirs

theorem State.Sound.step {event : Event} (sound : state.Sound namespaceId)
    (step : Step locate state event state') : state'.Sound namespaceId := by
  cases step with
  | submit | askStats | hangUp | stats =>
      exact ⟨sound.keeps, sound.active, sound.counts, sound.word, sound.named,
        sound.ids, sound.dirs⟩
  | admission readings queued idle admitted => exact sound.admitSort admitted
  | refuse readings queued idle refused =>
      obtain ⟨same, -, -⟩ := admit_error refused
      rw [same]
      exact ⟨sound.keeps, sound.active, sound.counts, sound.word, sound.named,
        sound.ids, sound.dirs⟩
  | move holders move => exact sound.move holders move

theorem Reaches.sound (reaches : Reaches locate namespaceId state) : state.Sound namespaceId := by
  induction reaches with
  | new config fdBudget scratchRoot =>
      exact ⟨by simp, rfl, rfl, Nat.zero_le _, rfl, rfl, by simp⟩
  | step _ step sound => exact sound.step step

omit [∀ row, LinearOrder (Key row)] [∀ row, Layout (Key row) (Value row)] in
/-- Two admissions share a directory only if they are one. -/
theorem State.Sound.dir_injective {namespaceId' : Uuid} {left right : SortLease}
    (sound : state.Sound namespaceId) (sound' : state'.Sound namespaceId')
    (member : left ∈ state.issued) (member' : right ∈ state'.issued)
    (same : left.scratchDir = right.scratchDir) : namespaceId = namespaceId' ∧ left.id =
      right.id := by
  have word : left.id ≤ u64Max := by
    have issued := List.mem_map_of_mem (f := SortLease.id) member
    rw [sound.ids, List.mem_range] at issued
    exact issued.le.trans sound.word
  have word' : right.id ≤ u64Max := by
    have issued := List.mem_map_of_mem (f := SortLease.id) member'
    rw [sound'.ids, List.mem_range] at issued
    exact issued.le.trans sound'.word
  rw [sound.dirs left member, sound'.dirs right member', SorterActor.scratchDir,
    SorterActor.scratchDir, sound.named, sound'.named] at same
  exact scratchDir_injective word word' same

omit [∀ row, LinearOrder (Key row)] [∀ row, Layout (Key row) (Value row)] in
theorem State.Sound.dirs_nodup (sound : state.Sound namespaceId) :
    (state.issued.map SortLease.scratchDir).Nodup := by
  have ids : (state.issued.map SortLease.id).Nodup := by
    rw [sound.ids]
    exact List.nodup_range
  refine List.Nodup.map_on ?_ (List.Nodup.of_map _ ids)
  intro left member right member' same
  obtain ⟨-, id⟩ := sound.dir_injective sound member member' same
  exact List.inj_on_of_nodup_map ids member member' id

/-- The counter of active sorts is the number of external leases alive, in every
state with fewer than `2 ^ 32` of them, and every drop of one finds it positive.
The two totals add up to the directories issued, all of them distinct, also from
those of a governor with another namespace.  Only an exhausted counter refuses
an admission, and it changes nothing. -/
theorem admission_invariant (reaches : Reaches locate namespaceId state) :
    (state.alive < 2 ^ 32 → state.actor.active.toNat = state.alive) ∧
    (state.alive = 0 → state.actor.active = 0) ∧
    (∀ lease state', Step locate state (.released lease) state' → lease.active = true →
      state.alive < 2 ^ 32 → state'.actor.active.toNat + 1 = state.actor.active.toNat) ∧
    state.actor.inMemoryCount + state.actor.externalCount = state.issued.length ∧
    (state.issued.map SortLease.scratchDir).Nodup ∧
    (∀ namespaceId' (other : State Key Value), namespaceId ≠ namespaceId' →
      Reaches locate namespaceId' other →
      List.Disjoint (state.issued.map SortLease.scratchDir)
        (other.issued.map SortLease.scratchDir)) ∧
    (∀ stats state', Step locate state (.stats stats) state' →
      (state.alive < 2 ^ 32 → stats.activeExternalSorts.toNat = state.alive) ∧
        stats.inMemorySorts + stats.externalSorts = state.issued.length) ∧
    (∀ error state', Step locate state (.refused error) state' →
      error = .runLimit ∧ state.actor.nextId = u64Max ∧ state'.actor = state.actor ∧
        state'.holders = state.holders ∧ state'.issued = state.issued) ∧
    (∀ lease state', Step locate state (.admitted lease) state' →
      state.actor.nextId < u64Max ∧ state'.issued = state.issued ++ [lease]) := by
  have sound := reaches.sound
  have issued : state.issued.length = state.actor.nextId := by
    rw [← List.length_map SortLease.id, sound.ids, List.length_range]
  have counter : state.alive < 2 ^ 32 → state.actor.active.toNat = state.alive := by
    intro few
    rw [sound.active, toNat_ofNat_of_lt few]
  refine ⟨counter, ?_, ?_, sound.counts.trans issued.symm, sound.dirs_nodup, ?_, ?_, ?_, ?_⟩
  · intro gone
    rw [sound.active, gone]
    rfl
  · intro lease state' step external few
    have sound' := sound.step step
    generalize named : Event.released lease = event at step
    cases step with
    | move holders move =>
        rename_i before lease' place after place'
        split at named <;> rename_i drops <;> cases named
        have alive := alive_move (if Drops lease place place' then state.actor.release lease
          else state.actor) sound holders move
        rw [@if_pos _ _ drops Nat, external, Bool.toNat_true] at alive
        rw [counter few, sound'.active, toNat_ofNat_of_lt (by omega), alive]
    | _ => cases named
  · intro namespaceId' other different reaches' dir member member'
    obtain ⟨lease, issued, rfl⟩ := List.mem_map.mp member
    obtain ⟨lease', issued', same⟩ := List.mem_map.mp member'
    exact different (sound.dir_injective reaches'.sound issued issued' same.symm).1
  · intro stats state' step
    generalize named : Event.stats stats = event at step
    cases step with
    | stats readings queued idle =>
        cases named
        exact ⟨counter, sound.counts.trans issued.symm⟩
    | move holders move => split at named <;> cases named
    | _ => cases named
  · intro error state' step
    generalize named : Event.refused error = event at step
    cases step with
    | refuse readings queued idle refused =>
        cases named
        obtain ⟨same, limit, exhausted⟩ := admit_error refused
        exact ⟨limit, Nat.le_antisymm sound.word exhausted, same, rfl, rfl⟩
    | move holders move => split at named <;> cases named
    | _ => cases named
  · intro lease state' step
    generalize named : Event.admitted lease = event at step
    cases step with
    | admission readings queued idle admitted =>
        cases named
        exact ⟨(admit_ok admitted).room, rfl⟩
    | move holders move => split at named <;> cases named
    | _ => cases named

end Invariant

/-- The counter while the lease of one sort of unknown size is with its caller. -/
theorem admission_invariant_one :
    ∃ state : State (fun _ : Unit => Nat) (fun _ : Unit => Nat),
      Reaches (fun _ => 0) 7 state ∧ state.alive = 1 ∧ state.actor.active.toNat = 1 ∧
        state.actor.inMemoryCount + state.actor.externalCount = 1 := by
  have new := @Reaches.new Unit (fun _ => Nat) (fun _ => Nat) _ _
    (fun _ => 0) 7 .default 64 "/scratch"
  have queued := new.step (.submit ⟨0⟩ (by decide))
  have admitted :=
    queued.step (.admission ⟨2 ^ 30, 0, 64, 0, 0, 2 ^ 28⟩ rfl (by simp [State.Idle]) rfl)
  have sent := admitted.step (.move (show _ = [] ++ (_, .sending true) :: [] from rfl) .send)
  have delivered := sent.step (.move (show _ = [] ++ (_, .reply) :: [] from rfl) .deliver)
  have invariant := admission_invariant delivered
  exact ⟨_, delivered, rfl, invariant.1 (by decide), invariant.2.2.2.1⟩

end SortGovernor.Service
