import SortGovernor.Runtime.ReplayScripts

/-!
# What a replay guarantees

Whatever its writer and its readers do, and wherever their calls fail or are
dropped: no reader sleeps through an announcement, every cursor stands in the
sequence the writer appended, a publication ends once and for all, and the
directory goes when nobody refers to it any more and nothing is under way.
-/

namespace SortGovernor.Runtime

open SortGovernor.Engine SortGovernor.Resumption

variable {Value : Type}

section Announcements

variable {codec : Codec Unit Value} {inner : ReplayInner} {first : Fs} {books : Books Value}
  {state : ReplayState Value}

/-- The keeper is about to wake the readers up. -/
def AboutToNotify (state : ReplayState Value) : Prop :=
  ∃ cancellable left resume begun seen, state.tasks .keeper =
    some ⟨⟨.running cancellable (.request left (.replay .notifyWaiters) resume),
      begun, seen⟩, false⟩

theorem OwnerOk.settled {begun : Option (Begun Value)} {owner : ReplayOwner Value}
    {page : Page Value}
    (ok : OwnerOk inner .keeper begun owner page) : page.published.owed = false := by
  cases owner with
  | writer writer account => exact ok.1.owed
  | unwinding writer account => exact ok.1.owed
  | «sealed» writer replay account => exact ok.1.owed
  | left guard account =>
      cases account with
      | none => cases ok
      | some account => exact ok.1.owed
  | gone account =>
      cases account with
      | none => cases ok
      | some account => exact ok.1.owed
  | cursor | waiting => cases ok

theorem Coupled.announces (coupled : Coupled codec inner first books state)
    (owed : books.published.owed = true) : AboutToNotify state := by
  have meets := coupled.meets .keeper
  generalize known : state.tasks .keeper = task at meets
  cases meets with
  | unborn ok => exact absurd owed (by simp [show books.published.owed = false from ok.settled])
  | owner ok => exact absurd owed (by simp [show books.published.owed = false from ok.settled])
  | suspended suspends =>
      exact absurd owed (by simp [show books.published.owed = false from suspends.owed rfl])
  | @running _ begun cancellable turn seen ok =>
      cases turn with
      | done owner =>
          exact absurd owed (by simp [show books.published.owed = false from OwnerOk.settled ok])
      | request left op resume =>
          obtain rfl := ok.1.2.1 owed rfl
          exact ⟨_, _, _, _, _, known⟩

variable [Layout Unit Value] {permits : Nat} {fs : Fs}
  {allowed : ReplayState Value → Event Party → Prop}

/-- A reader that sleeps and has not been notified has seen all there is, unless
the keeper is about to notify it. -/
theorem no_lost_wakeup
    (reaches : Reaches (replays codec inner) allowed (newReplay inner permits fs) state)
    {number : Nat} {cancellable : Bool} {left : ReplayOwner Value} {token : Nat}
    {resume : Unit → Turn Unit Value (ReplayOwner Value)} {begun : Option (Begun Value)}
    {seen : List Seen}
    (asleep : state.tasks (.reader number) = some ⟨⟨.running cancellable
      (.request left (.replay (.changed token) : Request Unit Value) resume), begun, seen⟩, true⟩)
    (unnotified : state.world.shared.notices = token) :
    (state.world.shared.state = .writing ∧
        ∃ cursor, left.cursor? = some cursor ∧ state.world.shared.rows ≤ cursor.position) ∨
      AboutToNotify state := by
  obtain ⟨books, coupled, -⟩ := reaches.coupled
  have meets := coupled.meets (.reader number)
  rw [asleep] at meets
  cases meets with
  | suspended suspends =>
      obtain ⟨-, cursor, holds, known⟩ := suspends.sleeps token rfl
      rw [coupled.agree.shares.notices] at unnotified
      obtain owed | ⟨writing, passed⟩ := known unnotified
      · exact .inr (coupled.announces owed)
      · refine .inl ⟨coupled.agree.shares.state.trans writing, cursor, holds, ?_⟩
        rw [coupled.agree.shares.rows]
        exact passed

/-- A reader that has read the only row sleeps. -/
theorem no_lost_wakeup_read :
    ∃ (state : ReplayState Nat) (left : ReplayOwner Nat),
      Reaches byteReplay anyStep byteStart state ∧
        ((state.world.shared.state = .writing ∧
            ∃ cursor, left.cursor? = some cursor ∧ state.world.shared.rows ≤ cursor.position) ∨
          AboutToNotify state) := by
  obtain ⟨state, reached, asleep⟩ := reaches_of_runReplay
    (appendAndLend ++ returns (.reader 0) .next ++
      [.choose (.move (.reader 0) .next), .drive (.reader 0) .next asleep 200])
    (fun state => (sleeping 0 state).any fun sleeper =>
      state.world.shared.notices = sleeper.token)
    (by decide +kernel)
  obtain ⟨sleeper, sleeps, unnotified⟩ := (Option.any_eq_true _ _).mp asleep
  exact ⟨state, sleeper.left, reached,
    no_lost_wakeup reached (tasks_of_sleeping sleeps) (of_decide_eq_true unnotified)⟩

end Announcements

def ReplayOwner.account? : ReplayOwner Value → Option (Account Value)
  | .writer _ account | .unwinding _ account | .sealed _ _ account => some account
  | .left _ account | .gone account => account
  | .cursor .. | .waiting .. => none

def Knows (state : ReplayState Value) (account : Account Value) : Prop :=
  ∃ begun owner seen, state.tasks .keeper = some ⟨⟨.owner owner, begun, seen⟩, false⟩ ∧
    owner.account? = some account

def ReplayOwner.reader? : ReplayOwner Value → Option (ReplayCursor × Reading Value)
  | .cursor current reading | .waiting current reading => some (current, reading)
  | _ => none

/-- The cursor of a reader between two calls, or the one a suspended read leaves
when it is dropped. -/
def readerOf : Task (ReplayActor Value) → Option (ReplayCursor × Reading Value)
  | ⟨⟨.owner owner, _, _⟩, false⟩ => owner.reader?
  | ⟨⟨.running true (.request left _ _), _, _⟩, true⟩ => left.reader?
  | _ => none

/-- A reader that has a cursor, or whose call has not given it up yet. -/
def Refers : Task (ReplayActor Value) → Bool
  | ⟨⟨.owner owner, _, _⟩, _⟩ | ⟨⟨.running _ (.done owner), _, _⟩, _⟩ => owner.cursor?.isSome
  | ⟨⟨.running _ (.request ..), begun, _⟩, _⟩ => begun.any (·.owner.cursor?.isSome)

/-- A cursor stands at the frame of its position and has passed what lies before it. -/
structure Marks (inner : ReplayInner) (rows : List (Committed Value)) (cursor : ReplayCursor)
    (reading : Reading Value) : Prop where
  storage : cursor.inner = inner
  position : cursor.position ≤ rows.length
  offset : cursor.offset =
    8 + ((rows.take cursor.position).map fun row => 12 + row.body.length).sum
  origin : reading.origin ≤ cursor.position
  items : reading.items = ((rows.map Committed.value).take cursor.position).drop reading.origin

/-- The rows a replay has committed so far, as everybody sees them. -/
structure Journal (codec : Codec Unit Value) (inner : ReplayInner) (state : ReplayState Value)
    (rows : List (Committed Value)) : Prop where
  published : state.world.shared.rows = rows.length
  encoded : ∀ row ∈ rows, codec.Encodes row.record row.body ∧ row.body.length ≤ u32Max
  appended : ∀ account, Knows state account → account.appended = rows.map Committed.value
  readers : ∀ number task cursor reading, state.tasks (.reader number) = some task →
    readerOf task = some (cursor, reading) → Marks inner rows cursor reading
  file : rows ≠ [] →
    (∃ number task, state.tasks (.reader number) = some task ∧ Refers task = true) →
    ∃ header tail, header.length = 8 ∧
      state.world.fs.files inner.path = some (header ++ (framesOf rows ++ tail))

section Journal

variable {codec : Codec Unit Value} {inner : ReplayInner} {first : Fs} {books : Books Value}
  {state state' : ReplayState Value} {page : Page Value}

theorem OwnerOk.appended {begun : Option (Begun Value)} {owner : ReplayOwner Value}
    {account : Account Value} (ok : OwnerOk inner .keeper begun owner page)
    (known : owner.account? = some account) : account.appended = page.published.values := by
  cases owner with
  | writer writer account =>
      cases known
      exact ok.1.appended
  | unwinding writer account =>
      cases known
      exact ok.1.appended
  | «sealed» writer replay account =>
      cases known
      exact ok.1.appended
  | left guard account =>
      cases known
      exact ok.1.appended
  | gone account =>
      cases known
      exact ok.1.appended
  | cursor | waiting => cases known

theorem OwnerOk.reads {begun : Option (Begun Value)} {owner : ReplayOwner Value} {number : Nat}
    {cursor : ReplayCursor} {reading : Reading Value}
    (ok : OwnerOk inner (.reader number) begun owner page)
    (known : owner.reader? = some (cursor, reading)) : Reads inner cursor reading page := by
  cases owner with
  | cursor cursor reading =>
      cases known
      exact ok.1
  | waiting cursor reading =>
      cases known
      exact ok.1
  | writer | unwinding | «sealed» | left | gone => cases known

theorem Coupled.knows (coupled : Coupled codec inner first books state) {account : Account Value}
    (known : Knows state account) : account.appended = books.published.values := by
  obtain ⟨begun, owner, seen, task, known⟩ := known
  have meets := coupled.meets .keeper
  rw [task] at meets
  cases meets with
  | owner ok => exact ok.appended known

theorem OwnerOk.refers {begun : Option (Begun Value)} {owner : ReplayOwner Value} {number : Nat}
    (ok : OwnerOk inner (.reader number) begun owner page) (some : owner.cursor?.isSome = true) :
    page.custody = .shared := by
  cases owner with
  | cursor cursor reading => exact ok.1.custody
  | waiting cursor reading => exact ok.1.custody
  | writer | unwinding | «sealed» | left | gone => cases some

theorem Coupled.refers (coupled : Coupled codec inner first books state) {number : Nat}
    {task : Task (ReplayActor Value)} (found : state.tasks (.reader number) = some task)
    (refers : Refers task = true) : books.custody (.reader number) = .shared := by
  have meets := coupled.meets (.reader number)
  have notSole := coupled.agree.balanced.readers number
  have relaxed : (books.custody (.reader number)).relaxed = .shared →
      books.custody (.reader number) = .shared := by
    intro shared
    cases held : books.custody (.reader number) <;> simp_all [Custody.relaxed]
  rw [found] at meets
  cases meets with
  | owner ok => exact ok.refers refers
  | @running _ begun cancellable turn seen ok =>
      cases turn with
      | done owner =>
          have ended : OwnerOk inner (.reader number) (some begun) owner
            (books.page (.reader number) seen).relaxed := ok
          exact relaxed (ended.refers refers)
      | request left op resume =>
          apply ok.1.2.2.2.2.1
          · simp
          · exact Option.isSome_iff_ne_none.mp refers
  | @suspended _ begun cancellable left op resume seen suspends =>
      apply suspends.refers
      · simp
      · exact Option.isSome_iff_ne_none.mp refers

theorem Coupled.reads (coupled : Coupled codec inner first books state) {number : Nat}
    {task : Task (ReplayActor Value)} {cursor : ReplayCursor} {reading : Reading Value}
    (found : state.tasks (.reader number) = some task)
    (known : readerOf task = some (cursor, reading)) :
    Marks inner books.published.rows cursor reading := by
  have meets := coupled.meets (.reader number)
  rw [found] at meets
  have reads : ∃ page : Page Value, page.published = books.published ∧
      Reads inner cursor reading page := by
    cases meets with
    | owner ok => exact ⟨_, rfl, ok.reads known⟩
    | @running _ begun cancellable turn seen ok =>
        have nothing : readerOf ⟨⟨.running cancellable turn, some begun, seen⟩, false⟩ = none := by
          cases cancellable <;> cases turn <;> rfl
        cases nothing.symm.trans known
    | @suspended _ begun cancellable left op resume seen suspends =>
        cases cancellable with
        | false => cases known
        | true => exact ⟨_, rfl, (suspends.dropped rfl).reads known⟩
  obtain ⟨page, same, reads⟩ := reads
  refine ⟨reads.storage, ?_, ?_, reads.origin, ?_⟩
  · rw [← same]
    exact reads.position
  · rw [← same]
    exact reads.offset
  · rw [← same]
    exact reads.items

theorem Coupled.journal (coupled : Coupled codec inner first books state) :
    Journal codec inner state books.published.rows where
  published := coupled.agree.shares.rows
  encoded row member := by
    have valid := coupled.agree.balanced.valid row member
    exact ⟨valid.encodes, valid.fits⟩
  appended account known := coupled.knows known
  readers number task cursor reading found known := coupled.reads found known
  file some := by
    rintro ⟨number, task, found, refers⟩
    have shared := coupled.refers found refers
    have readable : books.scratch.progress.isReadable = true := by
      obtain readable | spent := coupled.agree.balanced.rows some
      · exact readable
      · exact absurd shared (coupled.agree.balanced.live spent number)
    obtain ⟨tail, header, eight, content⟩ := coupled.agree.flights.stands.readable readable
    exact ⟨header, tail, eight, content⟩

variable [Layout Unit Value] {permits : Nat} {fs : Fs}
  {allowed : ReplayState Value → Event Party → Prop}

/-- There is one sequence of committed rows: the values the writer's caller has
appended, the frames in the file, what every cursor stands in and has passed.  It
only grows, and not at all once the publication has ended. -/
theorem replay_journal
    (reaches : Reaches (replays codec inner) allowed (newReplay inner permits fs) state) :
    ∃ rows, Journal codec inner state rows ∧
      ∀ state', Reaches (replays codec inner) allowed state state' →
        ∃ more, Journal codec inner state' (rows ++ more) ∧
          (state.world.shared.state ≠ .writing → more = []) := by
  obtain ⟨books, coupled, attended, conserved⟩ := reaches.coupled
  refine ⟨books.published.rows, coupled.journal, ?_⟩
  intro state' later
  obtain ⟨books', coupled', kept⟩ := coupled.reaches attended conserved later
  obtain ⟨more, same⟩ := kept.onward.grows.rows
  refine ⟨more, ?_, ?_⟩
  · rw [same]
    exact coupled'.journal
  · intro ended
    rw [coupled.agree.shares.state] at ended
    have still := kept.onward.grows.final ended
    rw [still] at same
    exact List.append_right_eq_self.mp same

/-- The journal of a row and a reader that has read it. -/
theorem replay_journal_read :
    ∃ state rows, Reaches byteReplay anyStep byteStart state ∧ state.world.shared.rows = 1 ∧
      Journal replayRows.codec byteInner state rows := by
  obtain ⟨state, reached, published⟩ := reaches_of_runReplay
    (appendAndLend ++ returns (.reader 0) .nextCommitted)
    (fun state => state.world.shared.rows = 1) (by decide +kernel)
  obtain ⟨rows, journal, -⟩ := replay_journal reached
  exact ⟨state, rows, reached, of_decide_eq_true published, journal⟩

end Journal

/-- What a read that has returned, or was dropped, tells its caller.  An item was
published when the read began and its source had not failed afterwards. -/
structure Tells (state : ReplayState Value) (begun : Begun Value) (cursor : ReplayCursor)
    (reading : Reading Value) (seen : List Seen) : Prop where
  item : ∀ value, reading.last = some (.ok (.item value)) → ∃ start,
    begun.owner.cursor? = some start ∧ cursor.position = start.position + 1 ∧
      FoundRow start.position seen
  unmoved : (∀ value, reading.last ≠ some (.ok (.item value))) → begun.call.Pulls →
    begun.owner.cursor? = some cursor
  exhausted : reading.last = some (.ok .exhausted) →
    state.world.shared.state = .sealed ∧ cursor.position = state.world.shared.rows
  awaiting : reading.last = some (.ok .awaitingAppend) →
    ∃ rows, seen = [.state .writing, .rows rows] ∧ rows ≤ cursor.position
  failed : begun.call.Pulls → begun.shared.state = .failed →
    reading.last = some (.error (.error .replaySourceFailed))

section Outcomes

variable [Layout Unit Value] {codec : Codec Unit Value} {inner : ReplayInner} {permits : Nat}
  {fs : Fs} {state : ReplayState Value} {allowed : ReplayState Value → Event Party → Prop}

/-- The end is never claimed early, a failure never looks like an end, and an item
is the row the writer's caller appended at its position. -/
theorem read_outcomes
    (reaches : Reaches (replays codec inner) allowed (newReplay inner permits fs) state)
    {number : Nat} {cursor : ReplayCursor} {reading : Reading Value} {begun : Begun Value}
    {seen : List Seen}
    (rests : state.tasks (.reader number) =
      some ⟨⟨.owner (.cursor cursor reading), some begun, seen⟩, false⟩) :
    Tells state begun cursor reading seen ∧
      ∀ state' account, Reaches (replays codec inner) allowed state state' → Knows state' account →
        cursor.position ≤ account.appended.length ∧
          (∀ value, reading.last = some (.ok (.item value)) →
            account.appended[cursor.position - 1]? = some value) ∧
          (reading.last = some (.ok .exhausted) → account.appended.length = cursor.position) := by
  obtain ⟨books, coupled, attended, conserved⟩ := reaches.coupled
  have meets := coupled.meets (.reader number)
  rw [rests] at meets
  cases meets with
  | owner ok =>
      obtain ⟨reads, reports⟩ := ok
      replace reports := reports begun rfl
      have shares := coupled.agree.shares
      constructor
      · constructor
        · intro value last
          obtain ⟨start, began, next, -, found⟩ := reports.item value last
          exact ⟨start, began, next, found⟩
        · exact reports.stays
        · intro last
          obtain ⟨ended, position⟩ := reports.exhausted last
          exact ⟨shares.state.trans ended, position.trans shares.rows.symm⟩
        · exact reports.awaiting
        · exact reports.failed
      · intro state' account later known
        obtain ⟨books', coupled', kept⟩ := coupled.reaches attended conserved later
        have appended : account.appended = books'.published.values := coupled'.knows known
        have grows := kept.onward.grows
        have position : cursor.position ≤ books.published.rows.length := reads.position
        rw [appended]
        refine ⟨?_, ?_, ?_⟩
        · rw [Published.values, List.length_map]
          exact position.trans grows.length
        · intro value last
          obtain ⟨start, -, next, found, -⟩ := reports.item value last
          have found : books.published.values[start.position]? = some value := found
          obtain ⟨more, same⟩ := grows.values
          rw [next, Nat.add_sub_cancel, ← same,
            List.getElem?_append_left (List.getElem?_eq_some_iff.mp found).1, found]
        · intro last
          obtain ⟨ended, position⟩ := reports.exhausted last
          have ended : books.published.state = .sealed := ended
          rw [Published.values, List.length_map, grows.final (by simp [ended])]
          exact position.symm

/-- The only row of a sealed replay, and then its end. -/
theorem read_outcomes_exhausted :
    ∃ state begun cursor reading seen, Reaches byteReplay anyStep byteStart state ∧
      reading.last = some (.ok .exhausted) ∧ cursor.position = 1 ∧
      Tells state begun cursor reading seen := by
  obtain ⟨state, reached, rests⟩ := reaches_of_runReplay
    (appendAndLend ++ returns .keeper .seal ++ returns (.reader 0) .next ++
      returns (.reader 0) .nextCommitted)
    (fun state => (resting (.reader 0) state).any fun rest =>
      (pulled rest.owner).any fun reader =>
        reader.2.last = some (.ok .exhausted) ∧ reader.1.position = 1)
    (by decide +kernel)
  obtain ⟨⟨owner, begun, seen⟩, rests, tested⟩ := (Option.any_eq_true _ _).mp rests
  obtain ⟨⟨cursor, reading⟩, known, tested⟩ := (Option.any_eq_true _ _).mp tested
  obtain ⟨last, position⟩ := of_decide_eq_true tested
  cases owner with
  | cursor =>
      cases known
      exact ⟨state, begun, cursor, reading, seen, reached, last, position,
        (read_outcomes reached (tasks_of_resting rests)).1⟩
  | _ => cases known

end Outcomes

/-- What the caller of a keeper knows, against the publication. -/
structure Accounted (state : ReplayState Value) (begun : Option (Begun Value))
    (owner : ReplayOwner Value) (account : Account Value) : Prop where
  rows : account.appended.length = state.world.shared.rows
  seals : account.seals = if state.world.shared.state = .sealed then 1 else 0
  unbroken : ∀ writer, owner = .writer writer account → state.world.shared.state = .writing →
    account.broken = false
  broken : account.broken = true → state.world.shared.state = .failed
  sound : ∀ abort, account.last = some (.error abort) → ∃ error, abort = .error error
  refused : ∀ call ∈ begun, call.call.Appends → call.shared.state ≠ .writing →
    account.last = some (.error (.error .sessionFailed))

section Writer

variable [Layout Unit Value] {codec : Codec Unit Value} {inner : ReplayInner} {permits : Nat}
  {fs : Fs} {state : ReplayState Value} {allowed : ReplayState Value → Event Party → Prop}

/-- Between two calls the keeper has counted what is published.  It is sealed just
when one seal succeeded, failed once an append or a seal did not return well, and
no call has met a state it asserts never to meet. -/
theorem writer_accounted
    (reaches : Reaches (replays codec inner) allowed (newReplay inner permits fs) state)
    {begun : Option (Begun Value)} {owner : ReplayOwner Value} {seen : List Seen}
    {account : Account Value}
    (rests : state.tasks .keeper = some ⟨⟨.owner owner, begun, seen⟩, false⟩)
    (known : owner.account? = some account) (wound : ∀ writer, owner ≠ .unwinding writer account) :
    Accounted state begun owner account := by
  obtain ⟨books, coupled, -⟩ := reaches.coupled
  have shares := coupled.agree.shares
  have appended := coupled.knows ⟨begun, owner, seen, rests, known⟩
  have rows : account.appended.length = state.world.shared.rows := by
    rw [appended, shares.rows, Published.values, List.length_map]
  have meets := coupled.meets .keeper
  rw [rests] at meets
  cases meets with
  | owner ok =>
      cases owner with
      | writer writer account =>
          cases known
          obtain ⟨keeps, sound, may, told⟩ := ok
          have unsealed : state.world.shared.state ≠ .sealed := shares.state ▸ keeps.unsealed
          refine ⟨rows, ?_, ?_, ?_, sound, fun call began => (told call began).refused⟩
          · rw [if_neg unsealed]
            exact keeps.seals
          · exact fun _ _ writing => (may (shares.state.symm.trans writing)).1
          · intro broken
            cases ended : state.world.shared.state with
            | failed => rfl
            | «sealed» => exact absurd ended unsealed
            | writing =>
                have fine := (may (shares.state.symm.trans ended)).1
                rw [broken] at fine
                cases fine
      | unwinding writer account =>
          cases known
          exact absurd rfl (wound writer)
      | «sealed» writer replay account =>
          cases known
          obtain ⟨ok, sound, told⟩ := ok
          refine ⟨rows, ?_, fun _ other => (by cases other), ?_, sound,
            fun call began => (told call began).refused⟩
          · rw [if_pos (shares.state.trans ok.state)]
            exact ok.seals
          · intro broken
            rw [ok.whole] at broken
            cases broken
      | left guard account =>
          cases known
          obtain ⟨closed, -, -, sound, told⟩ := ok
          refine ⟨rows, ?_, fun _ other => (by cases other), ?_, sound,
            fun call began => (told call began).refused⟩
          · rw [shares.state]
            exact closed.seals
          · rw [shares.state]
            exact closed.broken
      | gone account =>
          cases known
          obtain ⟨closed, -, sound, told⟩ := ok
          refine ⟨rows, ?_, fun _ other => (by cases other), ?_, sound,
            fun call began => (told call began).refused⟩
          · rw [shares.state]
            exact closed.seals
          · rw [shares.state]
            exact closed.broken
      | cursor | waiting => cases known

/-- A writer whose append was dropped, and the row it had appended before. -/
theorem writer_accounted_dropped :
    ∃ state begun owner account, Reaches byteReplay anyStep byteStart state ∧
      account.broken = true ∧ Accounted state begun owner account := by
  obtain ⟨state, reached, rests⟩ := reaches_of_runReplay
    appendAndDrop (fun state => (resting .keeper state).any fun rest => rest.owner.writes = true ∧
      rest.owner.account?.any fun account => account.broken = true)
    (by decide +kernel)
  obtain ⟨⟨owner, begun, seen⟩, rests, tested⟩ := (Option.any_eq_true _ _).mp rests
  obtain ⟨writes, tested⟩ := of_decide_eq_true tested
  obtain ⟨account, known, broken⟩ := (Option.any_eq_true _ _).mp tested
  refine ⟨state, _, owner, account, reached, of_decide_eq_true broken,
    writer_accounted reached (tasks_of_resting rests) known ?_⟩
  rintro writer rfl
  cases writes

/-- A publication that was sealed or has failed stays so, with the rows it has; a
failed one hands out no more cursors. -/
theorem publication_ends
    (reaches : Reaches (replays codec inner) allowed (newReplay inner permits fs) state)
    (ended : state.world.shared.state ≠ .writing) {state' : ReplayState Value}
    (later : Reaches (replays codec inner) allowed state state') :
    state'.world.shared.state = state.world.shared.state ∧
      state'.world.shared.rows = state.world.shared.rows ∧
      (state.world.shared.state = .failed → ∀ actor child world,
        state'.tasks .keeper = some ⟨actor, false⟩ →
          ¬ReplayActor.Forks codec actor state'.world child world) := by
  obtain ⟨books, coupled, attended, conserved⟩ := reaches.coupled
  obtain ⟨books', coupled', kept⟩ := coupled.reaches attended conserved later
  have shares := coupled.agree.shares
  have shares' := coupled'.agree.shares
  rw [shares.state] at ended
  have still := kept.onward.grows.state ended
  refine ⟨?_, ?_, ?_⟩
  · rw [shares.state, shares'.state, still]
  · rw [shares.rows, shares'.rows, kept.onward.grows.final ended]
  · intro failed actor child world task forks
    have meets := coupled'.meets .keeper
    rw [task] at meets
    obtain ⟨cursor, lends, -⟩ := meets.lends coupled'.agree forks
    obtain ⟨number, other⟩ := lends.lonely (still.trans (shares.state.symm.trans failed))
    cases other

/-- A publication that failed when its writer was dropped in the middle of an append. -/
theorem publication_ends_dropped :
    ∃ state, Reaches byteReplay anyStep byteStart state ∧ state.world.shared.state = .failed ∧
      state.world.shared.rows = 1 ∧
      ∀ actor child world, state.tasks .keeper = some ⟨actor, false⟩ →
        ¬ReplayActor.Forks replayRows.codec actor state.world child world := by
  obtain ⟨state, reached, tested⟩ := reaches_of_runReplay
    appendAndDrop (fun state => state.world.shared.state = .failed ∧ state.world.shared.rows = 1)
    (by decide +kernel)
  obtain ⟨failed, rows⟩ := of_decide_eq_true tested
  obtain ⟨-, -, refuses⟩ := publication_ends reached (by simp [failed]) .refl
  exact ⟨state, reached, failed, rows, refuses failed⟩

end Writer

end SortGovernor.Runtime
