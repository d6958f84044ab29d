import SortGovernor.Resumption.Abstraction
import SortGovernor.Runtime.Turns

/-!
# What a sort owns of its scratch directory

A sort that has performed nothing owns nothing.  Before its first operation it
arms its guard with the reservation for the removal, and from then on whatever is
left of it holds that guard, until a removal has succeeded.
-/

namespace SortGovernor.Runtime

open SortGovernor.Engine SortGovernor.Resumption

/-- How a sort stands towards its directory: nothing was performed yet, it works
there, its scope was idle, the removal was issued, it succeeded, or the task of a
dropped guard was told that it failed. -/
inductive Tenure where
  | fresh
  | held
  | quiet
  | removing
  | removed
  | reported
  deriving DecidableEq, Repr

variable {Key Value : Type}

namespace Tenure

def stage : Tenure → Stage
  | fresh | held => .working
  | quiet => .quiet
  | removing | removed | reported => .removing

def during : Request Key Value → Tenure → Tenure
  | .perform .., fresh | .direct _, fresh => held
  | .perform .., quiet => removing
  | _, tenure => tenure

def after : (op : Request Key Value) → op.Reply → Tenure → Tenure
  | .idle _, _, _ => quiet
  | .perform _ _ (.removeDirAll _), .ok _, quiet => removed
  | op, _, tenure => tenure.during op

/-- Nothing of the sort is on disk. -/
def Clear (tenure : Tenure) : Prop := tenure = fresh ∨ tenure = removed

theorem stage_during (op : Request Key Value) (tenure : Tenure) :
    (tenure.during op).stage = tenure.stage.during op := by
  cases op <;> cases tenure <;> rfl

end Tenure

/-- Any reply, tracking the tenure alone. -/
def tenures (Key Value : Type) : Semantics (engine Key Value) Tenure where
  reply op tenure reply next := next = tenure.after op reply
  drop _ _ _ := False

theorem simulates_discipline (Key Value : Type) :
    (tenures Key Value).Simulates (discipline Key Value) Tenure.stage := by
  rintro op tenure reply _ rfl
  cases op with
  | idle io => rfl
  | perform io held job =>
      cases job with
      | removeDirAll dir => cases reply <;> cases tenure <;> rfl
      | _ => cases tenure <;> rfl
  | _ => cases tenure <;> rfl

/-- A guard that answers for the directory of the sort. -/
structure ArmedFor (sort : Nat) (guard : AsyncCleanupGuard) : Prop where
  scope : guard.scope = sort
  dir : guard.dir = some sort
  fds : guard.fds = some .shared
  reserved : guard.reservation.isSome

/-- A guard of a sort, armed unless nothing is on disk. -/
def GuardAt (sort : Nat) (tenure : Tenure) (guard : AsyncCleanupGuard) : Prop :=
  ArmedFor sort guard ∨ guard.scope = sort ∧ guard.dir = none ∧ tenure.Clear

/-- A session that has started to spill. -/
structure Spilling (sort : Nat) (session : SortSession Key Value) : Prop where
  ofSort : SessionOf sort session
  armed : ArmedFor sort session.cleanup
  reserved : session.metadataReserved = true
  spilled : session.nextRun ≠ 0

/-- A session that has never started to spill. -/
structure Unspilled (sort : Nat) (session : SortSession Key Value) : Prop where
  ofSort : SessionOf sort session
  unarmed : session.cleanup.dir = none
  reserved : session.metadataReserved = true → session.cleanup.reservation.isSome
  stored : session.buffer ≠ [] → session.metadataReserved = true
  first : session.nextRun = 0

def SessionAt (sort : Nat) (tenure : Tenure) (session : SortSession Key Value) : Prop :=
  tenure.stage = .working ∧
    (Spilling sort session ∨ Unspilled sort session ∧ tenure = .fresh)

def StreamAt (sort : Nat) (tenure : Tenure) : ValueStream Key Value → Prop
  | .inMemory .. | .ended none => tenure = .fresh
  | .merging (some state) hold _ =>
      tenure.stage = .working ∧ MergeOf sort state ∧ ArmedFor sort hold.scratch
  | .merging none hold _ => ArmedFor sort hold.scratch
  | .ended (some scratch) => GuardAt sort tenure scratch

/-- A sort between two calls. -/
def OwnerAt (sort : Nat) (tenure : Tenure) : SortOwner Key Value → Prop
  | .session session => SessionAt sort tenure session
  | .stream stream => StreamAt sort tenure stream
  | .dropped guard => GuardAt sort tenure guard
  | .gone => tenure.Clear ∨ tenure = .reported

/-- A request of a caller, and what it is left with when it drops the call there. -/
def Leaves (sort : Nat) (left : SortOwner Key Value) (op : Request Key Value) (tenure : Tenure) :
    Prop :=
  Allowed sort tenure.stage op ∧ OwnerAt sort (tenure.during op) left

/-- The rest of a call from a tenure on. -/
def TurnAt (sort : Nat) (tenure : Tenure) (turn : Turn Key Value (SortOwner Key Value)) : Prop :=
  turn.wp (tenures Key Value) (Leaves sort) (fun owner tenure => OwnerAt sort tenure owner) tenure

section Owners

variable {sort : Nat} {tenure : Tenure} {session session' : SortSession Key Value}

theorem ArmedFor.guard {guard : AsyncCleanupGuard} (armed : ArmedFor sort guard) :
    GuardAt sort tenure guard := .inl armed

theorem SessionAt.ofSort (owned : SessionAt sort tenure session) : SessionOf sort session :=
  owned.2.elim Spilling.ofSort fun unspilled => unspilled.1.ofSort

theorem SessionAt.guard (owned : SessionAt sort tenure session) :
    GuardAt sort tenure session.cleanup := by
  obtain ⟨-, spilling | ⟨unspilled, rfl⟩⟩ := owned
  · exact .inl spilling.armed
  · exact .inr ⟨unspilled.ofSort.scope, unspilled.unarmed, .inl rfl⟩

theorem SessionAt.charged (owned : SessionAt sort tenure session) (stored : session.buffer ≠ []) :
    session.metadataReserved = true ∧ session.cleanup.reservation.isSome := by
  obtain ⟨-, spilling | ⟨unspilled, -⟩⟩ := owned
  · exact ⟨spilling.reserved, spilling.armed.reserved⟩
  · have reserved := unspilled.stored stored
    exact ⟨reserved, unspilled.reserved reserved⟩

/-- What a session may change without touching what it answers for. -/
theorem SessionAt.congr (owned : SessionAt sort tenure session)
    (dir : session'.dir = session.dir) (cleanup : session'.cleanup = session.cleanup)
    (spills : session'.spills = session.spills) (nextRun : session'.nextRun = session.nextRun)
    (reserved : session'.metadataReserved = session.metadataReserved)
    (stored : session'.buffer ≠ [] → session.buffer ≠ [] ∨ session.metadataReserved = true) :
    SessionAt sort tenure session' := by
  have ofSort : SessionOf sort session' := by
    constructor
    · rw [dir]
      exact owned.ofSort.dir
    · rw [cleanup]
      exact owned.ofSort.scope
    · rw [cleanup]
      exact owned.ofSort.fds
    · rw [cleanup]
      exact owned.ofSort.armed
    · rw [spills]
      exact owned.ofSort.spills
  obtain ⟨working, spilling | ⟨unspilled, fresh⟩⟩ := owned
  · refine ⟨working, .inl ⟨ofSort, ?_, reserved.trans spilling.reserved, ?_⟩⟩
    · rw [cleanup]
      exact spilling.armed
    · rw [nextRun]
      exact spilling.spilled
  · refine ⟨working, .inr ⟨⟨ofSort, ?_, ?_, ?_, nextRun.trans unspilled.first⟩, fresh⟩⟩
    · rw [cleanup]
      exact unspilled.unarmed
    · rw [cleanup, reserved]
      exact unspilled.reserved
    · rw [reserved]
      exact fun some => (stored some).elim unspilled.stored id

end Owners

section Working

variable {State Result : Type} {sort : Nat} {tenure : Tenure} {good : State → Prop}
  {result : Result → Prop} {left : State → SortOwner Key Value}
  {ok : Result → State → Tenure → Prop} {err : Abort → State → Tenure → Prop}

theorem Works.tenured {method : Async Key Value State Result}
    (works : Works sort good result method)
    (left : State → SortOwner Key Value)
    (owned : ∀ state tenure, tenure.stage = .working → good state →
      OwnerAt sort tenure (left state))
    {state : State} (working : tenure.stage = .working) (holds : good state)
    (returned : ∀ value state tenure, tenure.stage = .working → good state → result value →
      ok value state tenure)
    (failed : ∀ abort state tenure, tenure.stage = .working → good state → err abort state tenure) :
    method.wp (tenures Key Value) (fun state op tenure => Leaves sort (left state) op tenure) ok err
      state tenure := by
  have disciplined : method.wp (discipline Key Value)
      (fun state op stage => stage = .working ∧ Allowed sort stage op ∧ good state)
      (fun value state stage => stage = .working ∧ good state ∧ result value)
      (fun _ state stage => stage = .working ∧ good state) state tenure.stage := by
    rw [working]
    exact works state holds
  apply Program.wp_mono (Program.wp_concrete (simulates_discipline Key Value) disciplined)
  · rintro state op tenure ⟨works, allowed, holds⟩
    refine ⟨allowed, owned state _ ?_ holds⟩
    rw [Tenure.stage_during, works, during_working]
  · rintro ⟨_ | value, state⟩ tenure reached
    · exact failed _ state tenure reached.1 reached.2
    · exact returned value state tenure reached.1 reached.2.1 reached.2.2

variable {state : State}

theorem wp_orErrorAt {value : Option Result} {error : SorterError}
    (some : ∀ result, value = some result → ok result state tenure)
    (none : err (.error error) state tenure) :
    (orError value error : Async Key Value State Result).wp (tenures Key Value)
      (fun state op tenure => Leaves sort (left state) op tenure) ok err state tenure := by
  cases value with
  | none => exact none
  | some result => exact some result rfl

theorem wp_reserveAt {bytes : Nat} {ok : MemoryCharge → State → Tenure → Prop}
    (owned : OwnerAt sort tenure (left state)) (charged : ∀ charge, ok charge state tenure)
    (refused : ∀ error, err (.error error) state tenure) :
    (reserve bytes : Async Key Value State MemoryCharge).wp (tenures Key Value)
      (fun state op tenure => Leaves sort (left state) op tenure) ok err state tenure := by
  refine Method.wp_bind.mpr ⟨⟨trivial, owned⟩, ?_⟩
  rintro (error | charge) _ rfl
  · exact refused error
  · exact charged charge

end Working

section Sessions

/-- What a call leaves of a session when it is dropped. -/
def Leaving (sort : Nat) (left : SortSession Key Value → SortOwner Key Value) : Prop :=
  ∀ session tenure, SessionAt sort tenure session → OwnerAt sort tenure (left session)

variable {sort : Nat} {tenure : Tenure} [Layout Key Value] {session : SortSession Key Value}
  {left : SortSession Key Value → SortOwner Key Value}

theorem wp_reserveMetadataAt (leaving : Leaving sort left)
    (owned : SessionAt sort tenure session) :
    SortSession.reserveMetadata.wp (tenures Key Value)
      (fun session op tenure => Leaves sort (left session) op tenure)
      (fun _ session tenure => SessionAt sort tenure session ∧ session.metadataReserved = true)
      (fun _ session tenure => SessionAt sort tenure session) session tenure := by
  refine Method.wp_bind.mpr
    (Method.wp_get.mpr (Method.wp_ite.mpr ⟨fun reserved => ?_, fun first => ?_⟩))
  · exact ⟨owned, reserved⟩
  · refine Method.wp_bind.mpr (wp_orErrorAt (fun pathBytes _ => ?_) owned)
    refine Method.wp_bind.mpr (wp_orErrorAt (fun bytes _ => ?_) owned)
    refine Method.wp_bind.mpr (wp_reserveAt (leaving _ _ owned) (fun charge => ?_) fun _ => owned)
    obtain ⟨working, spilling | ⟨unspilled, fresh⟩⟩ := owned
    · exact absurd spilling.reserved first
    · cases retained : session.cleanup.retain charge with
      | error panic => exact ⟨working, .inr ⟨unspilled, fresh⟩⟩
      | ok cleanup =>
          unfold AsyncCleanupGuard.retain at retained
          split at retained
          · cases retained
          · cases retained
            exact ⟨⟨working, .inr ⟨{ unspilled with
              ofSort := { unspilled.ofSort with }
              reserved := fun _ => rfl
              stored := fun _ => rfl }, fresh⟩⟩, rfl⟩

theorem wp_growBufferAt (leaving : Leaving sort left)
    (owned : SessionAt sort tenure session) (reserved : session.metadataReserved = true) :
    SortSession.growBuffer.wp (tenures Key Value)
      (fun session op tenure => Leaves sort (left session) op tenure)
      (fun _ session tenure => SessionAt sort tenure session ∧ session.metadataReserved = true)
      (fun _ session tenure => SessionAt sort tenure session) session tenure := by
  refine Method.wp_bind.mpr (Method.wp_get.mpr (Method.wp_ite.mpr ⟨fun _ => ?_, fun _ => ?_⟩))
  · exact ⟨owned, reserved⟩
  · refine Method.wp_bind.mpr (wp_orErrorAt (fun capacity _ => ?_) owned)
    refine Method.wp_bind.mpr (wp_orErrorAt (fun bytes _ => ?_) owned)
    refine Method.wp_bind.mpr (wp_reserveAt (leaving _ _ owned) (fun charge => ?_) fun _ => owned)
    exact ⟨owned.congr rfl rfl rfl rfl rfl .inl, reserved⟩

omit [Layout Key Value] in
theorem wp_bufferLimitAt {ok : Nat → SortSession Key Value → Tenure → Prop}
    {err : Abort → SortSession Key Value → Tenure → Prop} (leaving : Leaving sort left)
    (owned : SessionAt sort tenure session)
    (limited : ∀ limit, ok limit session tenure) :
    SortSession.bufferLimit.wp (tenures Key Value)
      (fun session op tenure => Leaves sort (left session) op tenure) ok err session tenure := by
  refine Method.wp_bind.mpr ⟨⟨trivial, leaving _ _ owned⟩, ?_⟩
  rintro limit _ rfl
  refine Method.wp_bind.mpr (Method.wp_get.mpr ?_)
  cases session.plan with
  | inMemory => exact limited _
  | external runBufferBytes maxFanIn => exact limited _

omit [Layout Key Value] in
theorem wp_overflowsBufferAt {bytes : Nat} {ok : Bool → SortSession Key Value → Tenure → Prop}
    {err : Abort → SortSession Key Value → Tenure → Prop} (leaving : Leaving sort left)
    (owned : SessionAt sort tenure session)
    (known : ∀ overflows, ok overflows session tenure) :
    (SortSession.overflowsBuffer bytes).wp (tenures Key Value)
      (fun session op tenure => Leaves sort (left session) op tenure) ok err session tenure := by
  refine Method.wp_bind.mpr (Method.wp_get.mpr (Method.wp_ite.mpr ⟨fun _ => known _, fun _ => ?_⟩))
  cases checkedAdd usizeMax session.bufferBytes bytes with
  | none => exact known _
  | some sum => exact Method.wp_bind.mpr (wp_bufferLimitAt leaving owned fun _ => known _)

omit [Layout Key Value] in
theorem wp_storeRowAt (key : Key) (value : Value) (bytes : Nat) (charge : MemoryCharge)
    (owned : SessionAt sort tenure session) (reserved : session.metadataReserved = true) :
    (SortSession.storeRow key value bytes charge).wp (tenures Key Value)
      (fun session op tenure => Leaves sort (left session) op tenure)
      (fun _ session tenure => SessionAt sort tenure session)
      (fun _ session tenure => SessionAt sort tenure session) session tenure := by
  refine Method.wp_bind.mpr (Method.wp_get.mpr ?_)
  refine Method.wp_bind.mpr (wp_orErrorAt (fun nextRow _ => ?_) owned)
  refine Method.wp_bind.mpr (Method.wp_modify.mpr ?_)
  refine Method.wp_bind.mpr (Method.wp_modify.mpr ?_)
  refine Method.wp_bind.mpr (Method.wp_get.mpr ?_)
  refine Method.wp_bind.mpr (wp_orErrorAt (fun bufferBytes _ => ?_) ?_)
  · exact owned.congr rfl rfl rfl rfl rfl fun _ => .inr reserved
  · exact owned.congr rfl rfl rfl rfl rfl fun _ => .inr reserved

theorem works_writeRowsArmed (rows : List (RunRow Key Value)) {writer : RunWriter}
    (owned : WriterOf sort writer) :
    Works sort (Spilling sort) (WriterOf sort)
      (SortSession.writeRows rows writer : Async Key Value (SortSession Key Value) RunWriter) := by
  induction rows generalizing writer with
  | nil => exact works_pure owned
  | cons row rows inductionHypothesis =>
      refine works_bind (works_writeRow owned) fun writer owned => ?_
      exact inductionHypothesis owned

variable [LinearOrder Key]

theorem works_carryArmed (ordinal level : Nat) {before slots : List (Option ScratchPath)}
    (inside : ∀ path, some path ∈ before ++ slots → path.dir = sort) {run : ScratchPath}
    (into : run.dir = sort) :
    Works sort (Spilling sort) (fun _ => True)
      (SortSession.carry ordinal level before slots run :
        Async Key Value (SortSession Key Value) Unit) := by
  induction slots generalizing level before run with
  | nil => exact works_throw
  | cons slot after inductionHypothesis =>
      have others : ∀ path, some path ∈ before ++ none :: after → path.dir = sort := by
        intro path member
        apply inside
        simp only [List.mem_append, List.mem_cons, reduceCtorEq, false_or] at member ⊢
        exact member.imp_right .inr
      cases slot with
      | none =>
          refine works_bind (works_modify fun session spilling => ?_) fun _ _ => ?_
          · refine { spilling with ofSort := { spilling.ofSort with spills := ?_ } }
            intro path member
            simp only [List.mem_append, List.mem_cons, Option.some.injEq] at member
            obtain earlier | rfl | later := member
            · exact others path (List.mem_append_left _ earlier)
            · exact into
            · exact others path (List.mem_append_right _ (List.mem_cons_of_mem _ later))
          · exact works_modify fun session spilling =>
              { spilling with ofSort := { spilling.ofSort with } }
      | some older =>
          refine works_bind (works_modify fun session spilling => ?_) fun _ _ => ?_
          · exact { spilling with ofSort := { spilling.ofSort with spills := others } }
          · refine works_bind works_get fun session spilling => ?_
            have inputs : ∀ path ∈ [older, run], path.dir = sort := by
              simp only [List.mem_cons, List.not_mem_nil, or_false, forall_eq_or_imp, forall_eq]
              exact ⟨inside older (by simp), into⟩
            rw [spilling.ofSort.scope]
            refine works_bind (works_mergeGroupToFile inputs spilling.ofSort.dir) fun run into => ?_
            exact inductionHypothesis (level + 1) (by simpa using others) into

/-- A spill arms the guard before it performs anything. -/
theorem wp_spillAt (leaving : Leaving sort left) (owned : SessionAt sort tenure session) :
    SortSession.spill.wp (tenures Key Value)
      (fun session op tenure => Leaves sort (left session) op tenure)
      (fun _ session' tenure => SessionAt sort tenure session' ∧
        (Spilling sort session' ∨ session' = session))
      (fun _ session tenure => SessionAt sort tenure session) session tenure := by
  refine Method.wp_bind.mpr
    (Method.wp_get.mpr (Method.wp_ite.mpr ⟨fun _ => ⟨owned, .inr rfl⟩, fun stored => ?_⟩))
  obtain ⟨reserved, charged⟩ := owned.charged (by simpa using stored)
  refine Method.wp_bind.mpr (Method.wp_modify.mpr ?_)
  refine Method.wp_bind.mpr (Method.wp_get.mpr ?_)
  refine Method.wp_bind.mpr (wp_orErrorAt (fun nextRun counted => ?_) ?_)
  · refine Method.wp_bind.mpr (Method.wp_modify.mpr ?_)
    refine Method.wp_bind.mpr (Method.wp_modify.mpr ?_)
    refine Method.wp_bind.mpr (Method.wp_modify.mpr ?_)
    refine Method.wp_bind.mpr (Method.wp_get.mpr ?_)
    have known := owned.ofSort
    have armed : ArmedFor sort (session.cleanup.arm session.dir) := by
      refine ⟨known.scope, ?_, known.fds, charged⟩
      rcases known.armed with none | armed
      · simp [AsyncCleanupGuard.arm, none, known.dir]
      · simp [AsyncCleanupGuard.arm, armed]
    have later : nextRun ≠ 0 := by
      obtain ⟨-, rfl⟩ := checkedAdd_eq_some.mp counted
      exact Nat.succ_ne_zero _
    have spilling : Spilling sort { session with
        failed := true
        nextRun
        buffer := SortSession.sortBuffer session.buffer
        cleanup := session.cleanup.arm session.dir } :=
      ⟨⟨known.dir, armed.scope, armed.fds, .inr armed.dir, known.spills⟩, armed, reserved, later⟩
    refine (?_ : Works sort (Spilling sort) (fun _ => True) _).tenured left
      (fun session _ working spilling => leaving session _ ⟨working, .inl spilling⟩)
        owned.1 spilling
      (fun _ session _ working spilling _ => ⟨⟨working, .inl spilling⟩, .inl spilling⟩)
      (fun _ session _ working spilling => ⟨working, .inl spilling⟩)
    rw [armed.scope]
    refine works_bind (works_perform (.ensureDir _) rfl known.dir id) fun _ _ => ?_
    refine works_bind (works_create known.dir) fun writer created => ?_
    refine works_bind (works_writeRowsArmed _ created) fun writer written => ?_
    refine works_bind (works_finish written) fun run into => ?_
    refine works_bind (works_modify fun session spilling => ?_) fun _ _ => ?_
    · exact { spilling with ofSort := { spilling.ofSort with } }
    refine works_bind works_get fun session spilling => ?_
    exact works_carryArmed _ 0 (by simpa using spilling.ofSort.spills) into
  · exact owned.congr rfl rfl rfl rfl rfl .inl

theorem wp_pushWithSizeAt (leaving : Leaving sort left) (key : Key) (value : Value) (bytes : UInt64)
    (owned : SessionAt sort tenure session) :
    (SortSession.pushWithSize key value bytes).wp (tenures Key Value)
      (fun session op tenure => Leaves sort (left session) op tenure)
      (fun _ session tenure => SessionAt sort tenure session)
      (fun _ session tenure => SessionAt sort tenure session) session tenure := by
  refine Method.wp_bind.mpr (Method.wp_bind.mpr (Method.wp_get.mpr ?_))
  refine Method.wp_ite.mpr ⟨fun _ => owned, fun _ => ?_⟩
  refine Method.wp_bind.mpr (Method.wp_post (wp_reserveMetadataAt leaving owned) ?_ fun _ _ _ => id)
  rintro _ session tenure ⟨owned, reserved⟩
  refine Method.wp_bind.mpr (wp_reserveAt (leaving _ _ owned) (fun charge => ?_) fun _ => owned)
  refine Method.wp_bind.mpr (wp_overflowsBufferAt leaving owned fun overflows => ?_)
  have stores : ∀ session tenure, SessionAt sort tenure session → session.metadataReserved = true →
      (do
        SortSession.growBuffer
        SortSession.storeRow key value (max bytes.toNat (Layout.rowSize Key Value)) charge
        (if (← get).bufferBytes ≥ (← SortSession.bufferLimit) then SortSession.spill else pure ()) :
          Async Key Value (SortSession Key Value) Unit).wp (tenures Key Value)
        (fun session op tenure => Leaves sort (left session) op tenure)
        (fun _ session tenure => SessionAt sort tenure session)
        (fun _ session tenure => SessionAt sort tenure session) session tenure := by
    intro session tenure owned reserved
    refine Method.wp_bind.mpr (Method.wp_post (wp_growBufferAt leaving owned reserved) ?_
      fun _ _ _ => id)
    rintro _ session tenure ⟨owned, reserved⟩
    refine Method.wp_bind.mpr (Method.wp_post (wp_storeRowAt key value _ charge owned reserved) ?_
      fun _ _ _ => id)
    intro _ session tenure owned
    refine Method.wp_bind.mpr (Method.wp_get.mpr ?_)
    refine Method.wp_bind.mpr (wp_bufferLimitAt leaving owned fun limit => ?_)
    refine Method.wp_ite.mpr ⟨fun _ => ?_, fun _ => owned⟩
    exact Method.wp_post (wp_spillAt leaving owned) (fun _ _ _ => And.left) fun _ _ _ => id
  refine Method.wp_bind.mpr
    (Method.wp_ite.mpr ⟨fun _ => ?_, fun _ => stores session tenure owned reserved⟩)
  apply Method.wp_post (wp_spillAt leaving owned)
  · rintro _ session' tenure' ⟨owned', spilling | same⟩
    · exact stores session' tenure' owned' spilling.reserved
    · rw [← same] at reserved
      exact stores session' tenure' owned' reserved
  · exact fun _ _ _ => id

end Sessions

section Streams

variable {sort : Nat} {tenure : Tenure} [LinearOrder Key] [Layout Key Value]
  {session : SortSession Key Value}

omit [LinearOrder Key] [Layout Key Value] in
theorem turnAt_turn {State Result : Type} {method : Async Key Value State Result} {state : State}
    {dropped : State → SortOwner Key Value}
    {returned : Except Abort Result → State → SortOwner Key Value}
    (holds : method.wp (tenures Key Value)
      (fun state op tenure => Leaves sort (dropped state) op tenure)
      (fun value state tenure => OwnerAt sort tenure (returned (.ok value) state))
      (fun abort state tenure => OwnerAt sort tenure (returned (.error abort) state))
        state tenure) :
    TurnAt sort tenure (turn method state dropped returned) := by
  unfold TurnAt turn
  rw [Program.wp_map, Program.wp_rebase]
  apply Program.wp_mono holds
  · exact fun _ _ _ issued => issued
  · rintro ⟨_ | _, state⟩ tenure reached <;> exact reached

theorem wp_cascadeAndStreamAt {guard : AsyncCleanupGuard} (armed : ArmedFor sort guard)
    (working : tenure.stage = .working) {runs : List ScratchPath}
    (inside : ∀ path ∈ runs, path.dir = sort) {fanIn : Nat} {dedup : Bool}
    {hold : Option Resource} :
    (cascadeAndStream runs fanIn sort dedup hold :
        Async Key Value AsyncCleanupGuard (ValueStream Key Value)).wp (tenures Key Value)
      (fun guard op tenure => Leaves sort (.dropped guard : SortOwner Key Value) op tenure)
      (fun stream _ tenure => StreamAt sort tenure stream)
      (fun _ guard tenure => GuardAt sort tenure guard) guard tenure := by
  refine Method.wp_bind.mpr (Method.wp_get.mpr ?_)
  rw [armed.scope]
  refine Method.wp_bind.mpr ?_
  apply (works_cascade _ inside).tenured .dropped (fun _ _ _ => .inl) working armed
  · intro runs guard tenure working armed inside
    refine Method.wp_bind.mpr ?_
    apply (works_open inside).tenured .dropped (fun _ _ _ => .inl) working armed
    · exact fun state guard tenure working armed merges => ⟨working, merges, armed⟩
    · exact fun _ _ _ _ => .inl
  · exact fun _ _ _ _ => .inl

omit [LinearOrder Key] [Layout Key Value] in
theorem leaving_session : Leaving sort (.session : SortSession Key Value → SortOwner Key Value) :=
  fun _ _ owned => owned

omit [LinearOrder Key] [Layout Key Value] in
theorem leaving_dropped :
    Leaving sort fun session : SortSession Key Value => .dropped session.cleanup :=
  fun _ _ owned => owned.guard

theorem wp_mergeStreamAt (owned : SessionAt sort tenure session) (spilled : session.nextRun ≠ 0)
    (fanIn : Nat) :
    (SortSession.mergeStream fanIn).wp (tenures Key Value)
      (fun session op tenure => Leaves sort
        (.dropped session.cleanup : SortOwner Key Value) op tenure)
      (fun stream _ tenure => StreamAt sort tenure stream)
      (fun _ session tenure => GuardAt sort tenure session.cleanup) session tenure := by
  refine Method.wp_bind.mpr (Method.wp_get.mpr (Method.wp_bind.mpr ?_))
  have merges : ∀ session tenure, tenure.stage = .working → Spilling sort session →
      (do
        let hold := (← get).hold
        modify fun session => { session with hold := none }
        let spills := (← get).spills.reverse.filterMap id
        modify fun session => { session with spills := session.spills.map fun _ => none }
        let session ← get
        Method.within session.cleanup (fun cleanup session => { session with cleanup })
          (cascadeAndStream spills (max fanIn 2) session.dir session.dedup hold) :
          Async Key Value (SortSession Key Value) (ValueStream Key Value)).wp (tenures Key Value)
        (fun session op tenure => Leaves sort
          (.dropped session.cleanup : SortOwner Key Value) op tenure)
        (fun stream _ tenure => StreamAt sort tenure stream)
        (fun _ session tenure => GuardAt sort tenure session.cleanup) session tenure := by
    intro session tenure working spilling
    simp only [Method.wp_bind, Method.wp_get, Method.wp_modify, Method.wp_within]
    rw [spilling.ofSort.dir]
    apply wp_cascadeAndStreamAt spilling.armed working
    intro path member
    simp only [List.mem_filterMap, List.mem_reverse, id_eq, exists_eq_right] at member
    exact spilling.ofSort.spills path member
  have spilling : Spilling sort session := by
    obtain ⟨-, spilling | ⟨unspilled, -⟩⟩ := owned
    · exact spilling
    · exact absurd unspilled.first spilled
  refine Method.wp_ite.mpr ⟨fun _ => merges session tenure owned.1 spilling, fun _ => ?_⟩
  apply Method.wp_post (wp_spillAt leaving_dropped owned)
  · rintro _ session' tenure' ⟨owned', spilling' | same⟩
    · exact merges session' tenure' owned'.1 spilling'
    · rw [← same] at spilling
      exact merges session' tenure' owned'.1 spilling
  · exact fun _ _ _ owned => owned.guard

theorem turnAt_finish (owned : SessionAt sort tenure session) :
    TurnAt sort tenure (turn SortSession.finish session
      (fun session => .dropped session.cleanup) SortOwner.finished) := by
  apply turnAt_turn
  refine Method.wp_bind.mpr (Method.wp_bind.mpr (Method.wp_get.mpr ?_))
  refine Method.wp_ite.mpr ⟨fun _ => owned.guard, fun _ => ?_⟩
  have sorted : SessionAt sort tenure
      { session with buffer := SortSession.sortBuffer session.buffer } := by
    refine owned.congr rfl rfl rfl rfl rfl fun stored => .inl fun none => stored ?_
    simp [none, SortSession.sortBuffer]
  refine Method.wp_bind.mpr (Method.wp_modify.mpr (Method.wp_bind.mpr (Method.wp_get.mpr ?_)))
  have inMemory : session.nextRun = 0 → SortSession.inMemoryStream.wp (tenures Key Value)
      (fun session op tenure => Leaves sort
        (.dropped session.cleanup : SortOwner Key Value) op tenure)
      (fun stream _ tenure => StreamAt sort tenure stream)
      (fun _ session tenure => GuardAt sort tenure session.cleanup)
      { session with buffer := SortSession.sortBuffer session.buffer } tenure := by
    intro first
    obtain ⟨-, spilling | ⟨-, fresh⟩⟩ := owned
    · exact absurd first spilling.spilled
    · exact fresh
  split
  · exact Method.wp_ite.mpr ⟨inMemory, fun spilled => wp_mergeStreamAt sorted spilled 2⟩
  · exact Method.wp_ite.mpr ⟨inMemory, fun spilled => wp_mergeStreamAt sorted spilled _⟩

omit [LinearOrder Key] [Layout Key Value] in
theorem wp_cleanupAt {guard : AsyncCleanupGuard} (armed : ArmedFor sort guard) :
    AsyncCleanupGuard.cleanup.wp (tenures Key Value)
      (fun _ op tenure => Allowed sort tenure.stage op)
        (fun _ guard tenure => GuardAt sort tenure guard)
      (fun abort guard _ => (∃ error, abort = .error error) ∧ ArmedFor sort guard)
        guard tenure := by
  refine Method.wp_bind.mpr (Method.wp_get.mpr ?_)
  rw [armed.dir, armed.fds]
  refine Method.wp_bind.mpr ⟨armed.scope, ?_⟩
  rintro _ _ rfl
  refine Method.wp_bind.mpr (Method.wp_bind.mpr ⟨⟨armed.scope, rfl, .inr ⟨rfl, trivial⟩⟩, ?_⟩)
  rintro (error | value) _ rfl
  · exact ⟨⟨error, rfl⟩, armed⟩
  · exact .inr ⟨armed.scope, rfl, .inr rfl⟩

omit [LinearOrder Key] [Layout Key Value] in
theorem wp_finishCleanupAt {hold : StreamHold} (armed : ArmedFor sort hold.scratch)
    {state : Option (MergeState Key Value)} {reported : Bool} :
    (ValueStream.finishCleanup hold).wp (tenures Key Value)
      (fun stream op tenure => Leaves sort (SortOwner.ofStream stream) op tenure)
      (fun _ stream tenure => OwnerAt sort tenure (SortOwner.polled stream))
      (fun _ stream tenure => OwnerAt sort tenure (SortOwner.polled stream))
      (.merging state hold reported) tenure := by
  refine Method.wp_bind.mpr (Method.wp_attempt.mpr ?_)
  apply Method.wp_mono (wp_cleanupAt armed)
  · exact fun _ op tenure allowed => ⟨allowed, armed.guard⟩
  · exact fun _ guard tenure owned => owned
  · rintro _ guard tenure ⟨⟨error, rfl⟩, armed⟩
    exact armed

theorem turnAt_next {stream : ValueStream Key Value} (owned : StreamAt sort tenure stream) :
    TurnAt sort tenure
      (turn ValueStream.next stream SortOwner.ofStream fun _ => SortOwner.polled) := by
  apply turnAt_turn
  refine Method.wp_bind.mpr (Method.wp_get.mpr ?_)
  match stream, owned with
  | .ended none, fresh => exact .inl (.inl fresh)
  | .ended (some scratch), owned => exact owned
  | .inMemory dedup rows last hold allocation metadata, fresh =>
      simp only
      split
      · exact fresh
      · exact .inl (.inl fresh)
  | .merging none hold reported, armed =>
      simp only
      exact Method.wp_ite.mpr ⟨fun _ => armed.guard, fun _ => wp_finishCleanupAt armed⟩
  | .merging (some state) hold reported, ⟨working, merges, armed⟩ =>
      refine Method.wp_bind.mpr (Method.wp_attempt.mpr ?_)
      apply works_mergeRow.tenured (fun _ => .dropped hold.scratch) (fun _ _ _ _ => armed.guard)
        working merges
      · intro row state tenure working merges _
        cases row with
        | none => exact wp_finishCleanupAt armed
        | some row => exact ⟨working, merges, armed⟩
      · intro abort state tenure working _
        cases abort with
        | error error => exact armed
        | panic text => exact ⟨working, merges, armed⟩
        | diverged => exact ⟨working, merges, armed⟩

theorem turnAt_calls {owner : SortOwner Key Value} (owned : OwnerAt sort tenure owner)
    {turn : Turn Key Value (SortOwner Key Value)} (calls : SortOwner.Calls owner true turn) :
    TurnAt sort tenure turn := by
  cases calls with
  | push key value bytes =>
      apply turnAt_turn
      exact wp_pushWithSizeAt leaving_session key value bytes owned
  | finish => exact turnAt_finish owned
  | dropSession => exact owned.guard
  | next => exact turnAt_next owned
  | @dropStream stream =>
      match stream, owned with
      | .ended none, fresh => exact .inl (.inl fresh)
      | .ended (some scratch), owned => exact owned
      | .inMemory .., fresh => exact .inl (.inl fresh)
      | .merging none hold reported, armed => exact armed.guard
      | .merging (some state) hold reported, ⟨_, _, armed⟩ => exact armed.guard

end Streams

section Spawned

variable {sort : Nat} {guard : AsyncCleanupGuard}

/-- The task that a dropped guard spawns. -/
def cleanupTurn (guard : AsyncCleanupGuard) : Turn Key Value (SortOwner Key Value) :=
  turn (AsyncCleanupGuard.dropTask guard) () (fun _ => .gone) fun _ _ => .gone

def removalTurn (sort : Nat) (guard : AsyncCleanupGuard) : Turn Key Value (SortOwner Key Value) :=
  .request .gone (.perform sort guard.reservation.toList (.removeDirAll sort)) fun _ => .done .gone

theorem cleanupTurn_armed (armed : ArmedFor sort guard) :
    (cleanupTurn guard : Turn Key Value (SortOwner Key Value)) =
      .request .gone (.idle sort) fun _ => removalTurn sort guard := by
  unfold cleanupTurn AsyncCleanupGuard.dropTask
  rw [armed.dir, armed.fds, armed.scope]
  rfl

theorem cleanupTurn_unarmed (none : guard.dir = none) :
    (cleanupTurn guard : Turn Key Value (SortOwner Key Value)) = .done .gone := by
  unfold cleanupTurn AsyncCleanupGuard.dropTask
  rw [none]
  rfl

end Spawned

end SortGovernor.Runtime
