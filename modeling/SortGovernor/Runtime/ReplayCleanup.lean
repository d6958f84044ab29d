import SortGovernor.Runtime.ReplayGuarantees

/-!
# The end of a replay

The directory goes when nobody refers to the replay any more and nothing is under
way, and someone answers for it until then.  An abort or a close that returns well
leaves nothing behind, and the next abort finds nothing to do.
-/

namespace SortGovernor.Runtime

open SortGovernor.Engine SortGovernor.Resumption

variable {Value : Type}

section Endings

variable {codec : Codec Unit Value} {inner : ReplayInner} {first : Fs} {books : Books Value}
  {state : ReplayState Value} {permits : Nat}

/-- Nothing is under way, every permit is back, and the directory is not there. -/
structure Cleaned (inner : ReplayInner) (permits : Nat) (state : ReplayState Value) : Prop where
  waiting : state.waiting = []
  operations : ∀ operation ∈ state.operations, operation.Spent
  permits : state.permits = permits
  absent : state.world.fs.dirs inner.dir = false

/-- A directory that is gone, or never was, for good. -/
def Books.Settled (books : Books Value) : Prop :=
  books.scratch.progress = .removed ∨
    books.scratch.progress = .unarmed ∧ books.published.state ≠ .writing

theorem Books.Settled.of_finished
    (finished : books.published.state ≠ .writing ∧ books.scratch.progress.isArmed = false) :
    books.Settled := by
  obtain ⟨ended, armed⟩ := finished
  cases progress : books.scratch.progress with
  | removed => exact .inl progress
  | unarmed => exact .inr ⟨progress, ended⟩
  | _ =>
      rw [progress] at armed
      cases armed

theorem Later.settled {books' : Books Value} (later : Later books books')
    (settled : books.Settled) :
    books'.Settled := by
  obtain removed | ⟨unarmed, ended⟩ := settled
  · exact .inl (later.onward.removed removed)
  · refine .inr ⟨later.onward.unarmed unarmed ended, ?_⟩
    rw [later.onward.grows.state ended]
    exact ended

theorem Coupled.cleaned (coupled : Coupled codec inner first books state)
    (conserved : state.Conserved permits) (absent : first.dirs inner.dir = false)
    (settled : books.Settled) : Cleaned inner permits state := by
  have flights := coupled.agree.flights
  have stands := flights.stands
  have spent : ∀ flight ∈ state.flights, flight.Spent := by
    obtain removed | ⟨unarmed, -⟩ := settled
    · apply flights.allSpent (flights.settled (by rw [removed]; rfl))
      rw [removed]
      rfl
    · rw [flights.unarmed unarmed]
      exact fun flight member => absurd member List.not_mem_nil
  have operations : ∀ operation ∈ state.operations, operation.Spent :=
    fun operation member => spent operation (List.mem_append_right _ member)
  refine ⟨?_, operations, ?_, ?_⟩
  · rw [List.eq_nil_iff_forall_not_mem]
    intro call member
    have flies := spent (.spawn call) (List.mem_append_left _ (List.mem_map_of_mem member))
    cases flies.1
  · have none : state.permitHolders = 0 := by
      apply List.countP_eq_zero.mpr
      intro operation member holds
      have owned := (operations operation member).2.2
      exact Operation.not_holdsPermit owned (of_decide_eq_true holds)
    have counted := conserved.permits
    omega
  · obtain removed | ⟨unarmed, -⟩ := settled
    · rw [removed] at stands
      exact stands.1
    · rw [unarmed] at stands
      rw [show state.world.fs = first from stands]
      exact absent

/-- An abort or a close that returned well has found nothing armed. -/
theorem OwnerOk.finished {page : Page Value} {begun : Begun Value} {owner : ReplayOwner Value}
    {account : Account Value} (ok : OwnerOk inner .keeper (some begun) owner page)
    (known : owner.account? = some account)
    (ends : begun.call = .abort ∧ begun.owner.writes = true ∨ begun.call = .close)
    (well : account.last = some (.ok ())) :
    page.published.state ≠ .writing ∧ page.scratch.progress.isArmed = false := by
  have told : ∀ {account' : Account Value}, account' = account →
      (∀ call ∈ some begun, Accounts inner call account' page) →
      (begun.call = .abort → page.published.state ≠ .writing ∧
        page.scratch.progress.isArmed = false) ∧
      (begun.call = .close → page.custody = .taken ∧ page.scratch.progress.isArmed = false) := by
    rintro _ rfl told
    constructor
    · intro call
      obtain ⟨-, writes⟩ | close := ends
      · obtain ⟨-, state, armed, -⟩ := (told begun rfl).aborted call writes well
        exact ⟨state, armed⟩
      · cases call.symm.trans close
    · intro call
      obtain ⟨taken, armed, -⟩ := (told begun rfl).closed call well
      exact ⟨taken, armed⟩
  cases owner with
  | writer writer account' =>
      cases known
      obtain ⟨aborted, closed⟩ := told rfl ok.2.2.2
      obtain ⟨abort, -⟩ | close := ends
      · exact aborted abort
      · cases ok.1.custody.symm.trans (closed close).1
  | unwinding writer account' =>
      cases known
      cases ok.2.2.symm.trans well
  | «sealed» writer replay account' =>
      cases known
      obtain ⟨aborted, closed⟩ := told rfl ok.2.2
      obtain ⟨abort, -⟩ | close := ends
      · exact aborted abort
      · cases ok.1.custody.symm.trans (closed close).1
  | left guard account' =>
      cases known
      obtain ⟨aborted, closed⟩ := told rfl ok.2.2.2.2
      obtain ⟨abort, -⟩ | close := ends
      · exact aborted abort
      · exact ⟨ok.1.state, (closed close).2⟩
  | gone account' =>
      cases known
      obtain ⟨aborted, closed⟩ := told rfl ok.2.2.2
      obtain ⟨abort, -⟩ | close := ends
      · exact aborted abort
      · exact ⟨ok.1.state, (closed close).2⟩
  | cursor | waiting => cases known

variable [Layout Unit Value] {fs : Fs} {allowed : ReplayState Value → Event Party → Prop}

/-- Once an abort on the writer or a close of the sealed replay has returned well,
every operation of the replay is over, the directory is gone, and it stays so. -/
theorem awaited_cleanup_complete
    (reaches : Reaches (replays codec inner) allowed (newReplay inner permits fs) state)
    (absent : fs.dirs inner.dir = false) {begun : Begun Value} {owner : ReplayOwner Value}
    {seen : List Seen} {account : Account Value}
    (rests : state.tasks .keeper = some ⟨⟨.owner owner, some begun, seen⟩, false⟩)
    (known : owner.account? = some account)
    (ends : begun.call = .abort ∧ begun.owner.writes = true ∨ begun.call = .close)
    (well : account.last = some (.ok ())) {state' : ReplayState Value}
    (later : Reaches (replays codec inner) allowed state state') :
      Cleaned inner permits state' := by
  obtain ⟨books, coupled, attended, conserved⟩ := reaches.coupled
  obtain ⟨books', coupled', kept⟩ := coupled.reaches attended conserved later
  apply coupled'.cleaned (later.conserved conserved) absent
  apply kept.settled
  have meets := coupled.meets .keeper
  rw [rests] at meets
  cases meets with
  | owner ok => exact .of_finished (ok.finished known ends well)

/-- An abort that waited for a dropped append. -/
theorem awaited_cleanup_complete_dropped :
    ∃ state, Reaches byteReplay anyStep byteStart state ∧ state.world.shared.rows = 1 ∧
      Cleaned byteInner 1 state := by
  obtain ⟨state, reached, tested⟩ := reaches_of_runReplay
    (appendAndDrop ++ joinAppend ++ returns .keeper .abort)
    (fun state => state.world.shared.rows = 1 ∧ (resting .keeper state).any abortedWell)
    (by decide +kernel)
  obtain ⟨rows, tested⟩ := of_decide_eq_true tested
  obtain ⟨⟨owner, begun, seen⟩, rests, aborted⟩ := (Option.any_eq_true _ _).mp tested
  obtain ⟨writer, account, rfl, call, writes, well⟩ := exists_of_abortedWell aborted
  exact ⟨state, reached, rows, awaited_cleanup_complete reached rfl (tasks_of_resting rests) rfl
    (.inl ⟨call, writes⟩) well .refl⟩

/-- While the directory is being removed nothing else is under way, and no one but
the writer that removes it refers to the replay. -/
theorem removal_alone
    (reaches : Reaches (replays codec inner) allowed (newReplay inner permits fs) state)
    {operation : Operation Party} {dir : ScratchDir} (member : operation ∈ state.flights)
    (removes : operation.job = .removeDirAll dir) (executing : operation.Executing) :
    dir = inner.dir ∧ state.flights.countP (fun flight => ¬flight.Spent) = 1 ∧
      state.world.shared.handles ≤ 1 ∧
      (0 < state.world.shared.handles → operation.attached = true → operation.caller = .keeper) ∧
      ∀ number task, state.tasks (.reader number) = some task → Refers task = false := by
  obtain ⟨books, coupled, attended, -⟩ := reaches.coupled
  have flights := coupled.agree.flights
  have balanced := coupled.agree.balanced
  have flies := flights.each operation member
  have mutates : operation.job.Mutates = true := by rw [removes]; rfl
  have runs := (flies.writes mutates executing).1
  have within := flies.within
  rw [removes] at runs within
  have spent : books.scratch.progress.isSpent = true := by
    cases progress : books.scratch.progress <;> rw [progress] at runs <;> first | rfl | cases runs
  have unspent : ¬operation.Spent := fun spent => spent.2.1 executing
  obtain ⟨holders, known, count⟩ := coupled.agree.shares.handles
  have keepers : holders ⊆ {.keeper} := by
    intro party holds
    cases party with
    | keeper => exact Finset.mem_singleton_self _
    | reader number =>
        obtain shared | sole := (known _).mp holds
        · exact absurd shared (balanced.live spent number)
        · exact absurd sole (balanced.readers number)
  refine ⟨within, ?_, ?_, ?_, ?_⟩
  · apply le_antisymm
    · exact (flights.spent spent).trans (Bool.toNat_le _)
    · exact List.countP_pos_iff.mpr ⟨operation, member, decide_eq_true unspent⟩
  · rw [count]
    exact Finset.card_le_card keepers
  · intro held attached
    have suspended := attended.flight member attached
    obtain ⟨actor, task, awaits⟩ := suspended
    have meets := coupled.meets operation.caller
    rw [task] at meets
    obtain ⟨_, _, op, _, -, issued, waits⟩ := meets.asks awaits
    rw [flies.scope] at issued
    obtain rfl := await_eq_perform issued
    have alone := waits.2
    rw [removes] at alone
    cases caller : operation.caller with
    | keeper => rfl
    | reader number =>
        rw [caller] at alone
        have taken : books.custody (.reader number) = .taken := by
          obtain sole | taken := alone
          · exact absurd sole (balanced.readers number)
          · exact taken
        have away := balanced.alone _ (.inr taken) .keeper (by simp)
        have nobody : holders = ∅ := by
          rw [Finset.subset_singleton_iff] at keepers
          obtain nobody | keeper := keepers
          · exact nobody
          · have holds := (known .keeper).mp (by simp [keeper])
            rw [away] at holds
            exact absurd holds (by simp [Custody.Holds])
        rw [count, nobody] at held
        cases held
  · intro number task found
    cases refers : Refers task with
    | false => rfl
    | true => exact absurd (coupled.refers found refers) (balanced.live spent number)

/-- The removal of an abort. -/
theorem removal_alone_abort :
    ∃ state, Reaches byteReplay anyStep byteStart state ∧ state.world.shared.handles = 1 ∧
      state.flights.countP (fun flight => ¬flight.Spent) = 1 := by
  obtain ⟨state, reached, tested⟩ := reaches_of_runReplay
    (appendOne ++ [.choose (.move .keeper .abort), .drive .keeper .abort asleep 200,
      .choose (.resume .keeper), .drive .keeper .abort asleep 200, .choose (.acquire 0)])
    (fun state => state.world.shared.handles = 1 ∧ state.flights.any fun flight =>
      flight.job = .removeDirAll 0 ∧ flight.Executing)
    (by decide +kernel)
  obtain ⟨handles, tested⟩ := of_decide_eq_true tested
  obtain ⟨flight, member, tested⟩ := List.any_eq_true.mp tested
  obtain ⟨removes, executing⟩ := of_decide_eq_true tested
  exact ⟨state, reached, handles, (removal_alone reached member removes executing).2.1⟩

end Endings

section Aborts

variable {codec : Codec Unit Value} {inner : ReplayInner} {first : Fs} {books : Books Value}
  {state : ReplayState Value} {begun : Begun Value} {seen : List Seen} {account : Account Value}

theorem OwnerOk.accounts {page : Page Value} {begun : Option (Begun Value)}
    {owner : ReplayOwner Value} (ok : OwnerOk inner .keeper begun owner page)
    (known : owner.account? = some account) (wound : ∀ writer, owner ≠ .unwinding writer account) :
    ∀ call ∈ begun, Accounts inner call account page := by
  cases owner with
  | writer writer account =>
      cases known
      exact ok.2.2.2
  | unwinding writer account =>
      cases known
      exact absurd rfl (wound writer)
  | «sealed» writer replay account =>
      cases known
      exact ok.2.2
  | left guard account =>
      cases known
      exact ok.2.2.2.2
  | gone account =>
      cases known
      exact ok.2.2.2
  | cursor | waiting => cases known

/-- A writer that is the only one left, with nothing armed. -/
structure Books.Bare (books : Books Value) : Prop where
  settled : books.Settled
  failed : books.published.state = .failed
  lonely : ∀ number, books.custody (.reader number) = .away

theorem Later.bare {books' : Books Value} (later : Later books books') (bare : books.Bare) :
    books'.Bare where
  settled := later.settled bare.settled
  failed := by
    rw [later.onward.grows.state (by simp [bare.failed]), bare.failed]
  lonely := later.lonely bare.failed bare.lonely

/-- The call of a writer begins alone, and with nothing armed. -/
def Begun.Bare (begun : Begun Value) : Prop :=
  begun.owner.writes = true →
    begun.shared.handles = 1 ∧ begun.shared.cleanup.bind AsyncCleanupGuard.dir = none

theorem Coupled.calls_bare (coupled : Coupled codec inner first books state) (bare : books.Bare)
    {owner : ReplayOwner Value} {label : ReplayCall Value} {before : Option (Begun Value)}
    (rests : state.tasks .keeper = some ⟨⟨.owner owner, before, seen⟩, false⟩) :
    Begun.Bare ⟨owner, label, state.world.shared⟩ := by
  intro writes
  have meets := coupled.meets .keeper
  rw [rests] at meets
  cases meets with
  | owner ok =>
      cases owner with
      | writer writer account =>
          obtain ⟨guard, known, fits⟩ := ok.1.cleanup
          constructor
          · obtain ⟨holders, holds, count⟩ := coupled.agree.shares.handles
            have only : holders = {.keeper} := by
              ext party
              rw [holds, Finset.mem_singleton]
              constructor
              · intro held
                cases party with
                | keeper => rfl
                | reader number => exact absurd (bare.lonely number) held.present
              · rintro rfl
                exact .inl ok.1.custody
            rw [count, only, Finset.card_singleton]
          · have unarmed : books.scratch.progress.isArmed = false := by
              obtain removed | ⟨unarmed, -⟩ := bare.settled
              · rw [removed]
                rfl
              · rw [unarmed]
                rfl
            have same : books.scratch.cleanup = some guard := known
            have dir : guard.dir = if books.scratch.progress.isArmed then some
                inner.dir else none :=
              fits.dir
            rw [coupled.agree.shares.cleanup, same, Option.bind_some, dir, unarmed]
            rfl
      | _ => cases writes

variable [Layout Unit Value] {permits : Nat} {fs : Fs}
  {allowed : ReplayState Value → Event Party → Prop}

/-- Every call a resting keeper begins from now on begins bare. -/
theorem Coupled.stays_bare (coupled : Coupled codec inner first books state) (bare : books.Bare)
    (attended : Attended (replays codec inner) state) (conserved : state.Conserved permits)
    {owner : ReplayOwner Value} {before : Option (Begun Value)}
    (rests : state.tasks .keeper = some ⟨⟨.owner owner, before, seen⟩, false⟩)
    {state' : ReplayState Value} (later : Reaches (replays codec inner) allowed state state') :
    state'.tasks .keeper = state.tasks .keeper ∨ ∀ call ∈ state'.begun .keeper, call.Bare := by
  induction later with
  | refl => exact .inl rfl
  | @step between event next onward step allowed inductionHypothesis =>
      obtain ⟨books', coupled', kept⟩ := coupled.reaches attended conserved onward
      cases step.follows .keeper with
      | rests same =>
          obtain unmoved | bares := inductionHypothesis
          · exact .inl (same.trans unmoved)
          · refine .inr ?_
            rw [State.begun, same]
            exact bares
      | born none =>
          refine .inr ?_
          rw [none]
          rintro _ ⟨⟩
      | goesOn running same =>
          obtain unmoved | bares := inductionHypothesis
          · rw [running, rests] at unmoved
            cases unmoved
          · refine .inr ?_
            rw [same]
            rw [State.begun, running] at bares
            exact bares
      | calls resting same =>
          refine .inr ?_
          rw [same]
          rintro _ ⟨⟩
          exact coupled'.calls_bare (kept.bare bare) resting

/-- After an abort that returned well and left no cursors, every further abort
returns well. -/
theorem abort_again
    (reaches : Reaches (replays codec inner) allowed (newReplay inner permits fs) state)
    {writer : ReplayWriter}
    (rests : state.tasks .keeper =
      some ⟨⟨.owner (.writer writer account), some begun, seen⟩, false⟩)
    (aborted : begun.call = .abort) (writes : begun.owner.writes = true)
    (well : account.last = some (.ok ())) (alone : state.world.shared.handles = 1)
    {state' : ReplayState Value} (later : Reaches (replays codec inner) allowed state state')
    {writer' : ReplayWriter} {begun' : Begun Value} {seen' : List Seen} {account' : Account Value}
    (rests' : state'.tasks .keeper =
      some ⟨⟨.owner (.writer writer' account'), some begun', seen'⟩, false⟩)
    (again : begun'.call = .abort) (writes' : begun'.owner.writes = true) :
    account'.last = some (.ok ()) := by
  obtain ⟨books, coupled, attended, conserved⟩ := reaches.coupled
  have meets := coupled.meets .keeper
  rw [rests] at meets
  cases meets with
  | owner ok =>
      have finished : books.published.state ≠ .writing ∧ books.scratch.progress.isArmed = false :=
        ok.finished rfl (.inl ⟨aborted, writes⟩) well
      have unsealed : books.published.state ≠ .sealed := ok.1.unsealed
      have bare : books.Bare := by
        refine ⟨.of_finished finished, ?_, ?_⟩
        · cases state : books.published.state with
          | failed => rfl
          | writing => exact absurd state finished.1
          | «sealed» => exact absurd state unsealed
        · exact fun number => coupled.agree.sole alone (.inl ok.1.custody) _ (by simp)
      obtain unmoved | bares := coupled.stays_bare bare attended conserved rests later
      · rw [rests, rests'] at unmoved
        cases unmoved
        exact well
      · obtain ⟨books', coupled', -⟩ := coupled.reaches attended conserved later
        have meets' := coupled'.meets .keeper
        rw [rests'] at meets'
        obtain ⟨one, free⟩ := bares begun' (by rw [State.begun, rests']; rfl) writes'
        cases meets' with
        | owner ok' => exact (ok'.2.2.2 begun' rfl).again again writes' one free

/-- Two aborts. -/
theorem abort_again_twice :
    ∃ (state state' : ReplayState Nat) (account : Account Nat),
      Reaches byteReplay anyStep byteStart state ∧ Reaches byteReplay anyStep state state' ∧
        account.last = some (.ok ()) := by
  obtain ⟨state, reached, tested⟩ := reaches_of_runReplay (appendOne ++ returns .keeper .abort)
    (fun state => (resting .keeper state).any fun rest => abortedWell rest ∧
      state.world.shared.handles = 1 ∧
        (resumeReplay (returns .keeper .abort) state).any fun state' =>
        (resting .keeper state').any abortedWell)
    (by decide +kernel)
  obtain ⟨⟨owner, begun, seen⟩, rests, tested⟩ := (Option.any_eq_true _ _).mp tested
  obtain ⟨aborted, alone, tested⟩ := of_decide_eq_true tested
  obtain ⟨state', later, tested⟩ := reaches_of_resumeReplay tested
  obtain ⟨⟨owner', begun', seen'⟩, rests', again⟩ := (Option.any_eq_true _ _).mp tested
  obtain ⟨writer, account, known, call, writes, well⟩ := exists_of_abortedWell aborted
  obtain ⟨writer', account', known', call', writes', -⟩ := exists_of_abortedWell again
  cases known
  cases known'
  exact ⟨state, state', account', reached, later, abort_again reached (tasks_of_resting rests) call
    writes well alone later (tasks_of_resting rests') call' writes'⟩

/-- What an abort or a close tells its caller, against what it has observed. -/
structure Ended (inner : ReplayInner) (account : Account Value) (seen : List Seen) : Prop where
  inUse : .exclusive false ∈ seen → account.last = some (.error (.error .replayInUse))
  stopped : ∀ abort, account.last = some (.error abort) →
    .exclusive false ∈ seen ∨ .performed (.removeDirAll inner.dir) false ∈ seen

/-- An abort or a close fails because it found another reference, which it reports,
or because the removal failed. -/
theorem ends_accounted
    (reaches : Reaches (replays codec inner) allowed (newReplay inner permits fs) state)
    {owner : ReplayOwner Value}
    (rests : state.tasks .keeper = some ⟨⟨.owner owner, some begun, seen⟩, false⟩)
    (known : owner.account? = some account) (wound : ∀ writer, owner ≠ .unwinding writer account)
    (ends : begun.call.Ends) : Ended inner account seen := by
  obtain ⟨books, coupled, -⟩ := reaches.coupled
  have meets := coupled.meets .keeper
  rw [rests] at meets
  cases meets with
  | owner ok =>
      have accounts := ok.accounts known wound begun rfl
      exact ⟨accounts.inUse ends, accounts.stopped ends⟩

/-- An abort while a cursor is around. -/
theorem ends_accounted_shared :
    ∃ (state : ReplayState Nat) (account : Account Nat),
      Reaches byteReplay anyStep byteStart state ∧ state.world.shared.handles = 2 ∧
        account.last = some (.error (.error .replayInUse)) := by
  obtain ⟨state, reached, tested⟩ := reaches_of_runReplay (appendAndLend ++ returns .keeper .abort)
    (fun state => state.world.shared.handles = 2 ∧ (resting .keeper state).any fun rest =>
      rest.begun.call = .abort ∧ .exclusive false ∈ rest.seen ∧ rest.owner.writes = true ∧
        rest.owner.account?.isSome = true)
    (by decide +kernel)
  obtain ⟨handles, tested⟩ := of_decide_eq_true tested
  obtain ⟨⟨owner, begun, seen⟩, rests, tested⟩ := (Option.any_eq_true _ _).mp tested
  obtain ⟨call, shared, writes, told⟩ := of_decide_eq_true tested
  obtain ⟨account, known⟩ := Option.isSome_iff_exists.mp told
  refine ⟨state, account, reached, handles,
    (ends_accounted reached (tasks_of_resting rests) known ?_ ?_).inUse shared⟩
  · rintro writer rfl
    cases writes
  · rw [show begun.call = .abort from call]
    trivial

end Aborts

section Answering

variable {codec : Codec Unit Value} {inner : ReplayInner} {first : Fs} {books : Books Value}
  {state : ReplayState Value}

def leftOf (task : Task (ReplayActor Value)) : ReplayOwner Value :=
  match task.actor.actor with
  | .owner owner | .running _ (.done owner) => owner
  | .running _ (.request left _ _) => left

/-- A party with an armed scratch owner in hand, or one whose removal of the
directory was reported to have failed. -/
def AnswersFor (inner : ReplayInner) (task : Task (ReplayActor Value)) : Prop :=
  (∃ guard account, leftOf task = .left guard account ∧ Arms inner guard) ∨
    ∃ account, leftOf task = .gone account ∧
      .performed (.removeDirAll inner.dir) false ∈ task.actor.seen

theorem OwnerOk.answers {party : Party} {page : Page Value} {begun : Option (Begun Value)}
    {owner : ReplayOwner Value} (ok : OwnerOk inner party begun owner page)
    (taken : page.custody = .taken) (armed : page.scratch.progress.isArmed = true) :
    (∃ guard account, owner = .left guard account ∧ Arms inner guard) ∨
      ∃ account, owner = .gone account ∧ .performed (.removeDirAll inner.dir) false ∈
        page.seen := by
  have reported : Gone inner page → .performed (.removeDirAll inner.dir) false ∈ page.seen := by
    intro gone
    obtain unarmed | reported := gone.reported taken
    · cases unarmed.symm.trans armed
    · exact reported
  cases party with
  | keeper =>
      cases owner with
      | writer writer account => cases ok.1.custody.symm.trans taken
      | unwinding writer account => cases ok.1.custody.symm.trans taken
      | «sealed» writer replay account => cases ok.1.custody.symm.trans taken
      | left guard account =>
          cases account with
          | none => cases ok
          | some account => exact .inl ⟨guard, _, rfl, ok.2.2.1.arms armed⟩
      | gone account =>
          cases account with
          | none => cases ok
          | some account => exact .inr ⟨_, rfl, reported ok.2.1⟩
      | cursor | waiting => cases ok
  | reader number =>
      cases owner with
      | cursor cursor reading => cases ok.1.custody.symm.trans taken
      | waiting cursor reading => cases ok.1.custody.symm.trans taken
      | left guard account =>
          cases account with
          | none => exact .inl ⟨guard, _, rfl, ok.2.arms armed⟩
          | some account => cases ok
      | gone account =>
          cases account with
          | none => exact .inr ⟨_, rfl, reported ok⟩
          | some account => cases ok
      | writer | unwinding | «sealed» => cases ok

theorem Coupled.answers (coupled : Coupled codec inner first books state) {party : Party}
    (taken : books.custody party = .taken) (armed : books.scratch.progress.isArmed = true) :
    ∃ task, state.tasks party = some task ∧ AnswersFor inner task := by
  have meets := coupled.meets party
  generalize known : state.tasks party = found at meets
  cases meets with
  | unborn ok => cases ok.1.custody.symm.trans taken
  | absent away => cases away.symm.trans taken
  | owner ok => exact ⟨_, rfl, ok.answers taken armed⟩
  | @running _ begun cancellable turn seen ok =>
      refine ⟨_, rfl, ?_⟩
      cases turn with
      | done owner =>
          have ended : OwnerOk inner party (some begun) owner (books.page party seen).relaxed := ok
          rw [Page.relaxed_taken taken] at ended
          exact ended.answers taken armed
      | request left op resume =>
          obtain ⟨guard, account, same, fits⟩ := ok.1.2.2.2.2.2 taken
          exact .inl ⟨guard, account, same, fits.arms armed⟩
  | suspended suspends =>
      obtain ⟨guard, account, same, fits⟩ := suspends.carries taken
      exact ⟨_, rfl, .inl ⟨guard, account, same, fits.arms armed⟩⟩

variable [Layout Unit Value] {permits : Nat} {fs : Fs}
  {allowed : ReplayState Value → Event Party → Prop}

end Answering

def ReplayOwner.refers : ReplayOwner Value → Bool
  | .left .. | .gone _ => false
  | _ => true

section References

variable {codec : Codec Unit Value} {inner : ReplayInner} {state : ReplayState Value}

variable [Layout Unit Value] {permits : Nat} {fs : Fs}
  {allowed : ReplayState Value → Event Party → Prop}

/-- At most one operation that writes is under way, dropped ones included, and
every one is on the replay's own directory and scope. -/
theorem writes_exclusive
    (reaches : Reaches (replays codec inner) allowed (newReplay inner permits fs) state) :
    state.flights.countP (fun flight => flight.Writes) ≤ 1 ∧
      ∀ flight ∈ state.flights, flight.scope = some inner.scope ∧
        FsJob.Within inner flight.job := by
  obtain ⟨books, coupled, -⟩ := reaches.coupled
  have flights := coupled.agree.flights
  refine ⟨flights.writes.trans (Bool.toNat_le _), ?_⟩
  intro flight member
  have flies := flights.each flight member
  exact ⟨flies.scope, flies.within⟩

/-- A dropped append still writes. -/
theorem writes_exclusive_dropped :
    ∃ state, Reaches byteReplay anyStep byteStart state ∧
      state.flights.countP (fun flight => flight.Writes ∧ flight.attached = false) = 1 ∧
      state.flights.countP (fun flight => flight.Writes) ≤ 1 := by
  obtain ⟨state, reached, tested⟩ := reaches_of_runReplay appendAndDrop
    (fun state => state.flights.countP (fun flight => flight.Writes ∧ flight.attached = false) = 1)
    (by decide +kernel)
  exact ⟨state, reached, of_decide_eq_true tested, (writes_exclusive reached).1⟩

end References

end SortGovernor.Runtime
