import SortGovernor.Runtime.Ledger

/-!
# What the owners of a replay know

Between two calls an owner and its page agree: a cursor stands at the frame of
its position, a writer has counted what it published, and whatever holds no
reference but a scratch owner is responsible for the directory.  A call may make
a request only where the books permit it.
-/

namespace SortGovernor.Runtime

open SortGovernor.Engine SortGovernor.Resumption

variable {Value : Type}

def Published.values (published : Published Value) : List Value :=
  published.rows.map Committed.value

/-- A cursor and the rows it has passed. -/
structure Reads (inner : ReplayInner) (cursor : ReplayCursor) (reading : Reading Value)
    (page : Page Value) : Prop where
  storage : cursor.inner = inner
  custody : page.custody = .shared
  position : cursor.position ≤ page.published.rows.length
  offset : cursor.offset = offsetOf page.published.rows cursor.position
  origin : reading.origin ≤ cursor.position
  items : reading.items = (page.published.values.take cursor.position).drop reading.origin

def ReplayOwner.cursor? : ReplayOwner Value → Option ReplayCursor
  | .cursor current _ | .waiting current _ => some current
  | _ => none

def ReplayCall.Pulls : ReplayCall Value → Prop
  | .nextCommitted | .next => True
  | _ => False

/-- A read found its row published, and its source not failed afterwards. -/
def FoundRow (position : Nat) (seen : List Seen) : Prop :=
  ∃ state rows job state' rows', seen =
    [.state state, .rows rows, .performed job true, .state state', .rows rows'] ∧
    position < rows ∧ state ≠ .failed ∧ state' ≠ .failed

/-- What the last outcome of a read says about the source. -/
structure Reports (begun : Begun Value) (cursor : ReplayCursor) (reading : Reading Value)
    (page : Page Value) : Prop where
  item : ∀ value, reading.last = some (.ok (.item value)) →
    ∃ start, begun.owner.cursor? = some start ∧ cursor.position = start.position + 1 ∧
      page.published.values[start.position]? = some value ∧ FoundRow start.position page.seen
  stays : (∀ value, reading.last ≠ some (.ok (.item value))) → begun.call.Pulls →
    begun.owner.cursor? = some cursor
  exhausted : reading.last = some (.ok .exhausted) →
    page.published.state = .sealed ∧ cursor.position = page.published.rows.length
  awaiting : reading.last = some (.ok .awaitingAppend) →
    ∃ rows, page.seen = [.state .writing, .rows rows] ∧ rows ≤ cursor.position
  failed : begun.call.Pulls → begun.shared.state = .failed →
    reading.last = some (.error (.error .replaySourceFailed))

/-- A writer between two calls, or one whose call was just dropped. -/
structure Keeps (inner : ReplayInner) (writer : ReplayWriter) (account : Account Value)
    (page : Page Value) : Prop where
  storage : writer.inner = some inner
  custody : page.custody = .shared
  unsealed : page.published.state ≠ .sealed
  seals : account.seals = 0
  appended : account.appended = page.published.values
  owed : page.published.owed = false
  cleanup : ∃ guard, page.scratch.cleanup = some guard ∧ Fits inner page.scratch.progress guard

/-- A writer that may go on. -/
structure Prepared (inner : ReplayInner) (writer : ReplayWriter) (page : Page Value) : Prop where
  rows : writer.rows = page.published.rows.length
  busy : page.scratch.busy = false
  file : writer.writer = none ∧ page.scratch.progress = .unarmed ∧ page.published.rows = [] ∨
    (∃ run, writer.writer = some run ∧ run.path = inner.path ∧ run.io = inner.scope) ∧
      page.scratch.progress = .ready

/-- A sealed replay, and the writer it came from. -/
structure Sealed (inner : ReplayInner) (writer : ReplayWriter) (replay : Replay)
    (account : Account Value) (page : Page Value) : Prop where
  writer : writer.inner = none
  storage : replay.inner = inner
  custody : page.custody = .shared
  state : page.published.state = .sealed
  seals : account.seals = 1
  whole : account.broken = false
  appended : account.appended = page.published.values
  owed : page.published.owed = false
  progress : page.scratch.progress = .sealing
  cleanup : ∃ guard, page.scratch.cleanup = some guard ∧ Fits inner page.scratch.progress guard

/-- A keeper that gave up its reference. -/
structure Closed (account : Account Value) (page : Page Value) : Prop where
  state : page.published.state ≠ .writing
  seals : account.seals = if page.published.state = .sealed then 1 else 0
  broken : account.broken = true → page.published.state = .failed
  appended : account.appended = page.published.values
  owed : page.published.owed = false

/-- Whether the keeper still has a writer that refers to the replay. -/
def ReplayOwner.writes : ReplayOwner Value → Bool
  | .writer .. => true
  | _ => false

def ReplayCall.Appends : ReplayCall Value → Prop
  | .append .. | .seal => True
  | _ => False

def ReplayCall.Ends : ReplayCall Value → Prop
  | .abort | .close => True
  | _ => False

def Account.Sound (account : Account Value) : Prop :=
  ∀ abort, account.last = some (.error abort) → ∃ error, abort = .error error

/-- What the last outcome of the keeper says about the replay. -/
structure Accounts (inner : ReplayInner) (begun : Begun Value) (account : Account Value)
    (page : Page Value) : Prop where
  refused : begun.call.Appends → begun.shared.state ≠ .writing →
    account.last = some (.error (.error .sessionFailed))
  inUse : begun.call.Ends → .exclusive false ∈ page.seen →
    account.last = some (.error (.error .replayInUse))
  aborted : begun.call = .abort → begun.owner.writes = true → account.last = some (.ok ()) →
    page.custody ≠ .away ∧ page.published.state ≠ .writing ∧
      page.scratch.progress.isArmed = false ∧ .exclusive true ∈ page.seen
  closed : begun.call = .close → account.last = some (.ok ()) →
    page.custody = .taken ∧ page.scratch.progress.isArmed = false ∧ .exclusive true ∈ page.seen
  again : begun.call = .abort → begun.owner.writes = true → begun.shared.handles = 1 →
    begun.shared.cleanup.bind AsyncCleanupGuard.dir = none → account.last = some (.ok ())
  stopped : begun.call.Ends → ∀ abort, account.last = some (.error abort) →
    .exclusive false ∈ page.seen ∨ .performed (.removeDirAll inner.dir) false ∈ page.seen

/-- A party that is through with a replay.  A directory it was left with is gone, or
its removal was reported to have failed. -/
structure Gone (inner : ReplayInner) (page : Page Value) : Prop where
  unheld : ¬page.custody.Holds
  reported : page.custody = .taken → page.scratch.progress.isArmed = false ∨
    .performed (.removeDirAll inner.dir) false ∈ page.seen

/-- The condition of an owner, in the hands of its party, after a call. -/
def OwnerOk (inner : ReplayInner) : Party → Option (Begun Value) → ReplayOwner Value →
    Page Value → Prop
  | .keeper, begun, .writer writer account, page => Keeps inner writer account page ∧
      account.Sound ∧
      (page.published.state = .writing → account.broken = false ∧ Prepared inner writer page) ∧
      ∀ call ∈ begun, Accounts inner call account page
  | .keeper, _, .unwinding writer account, page =>
      Keeps inner writer account page ∧ account.broken = true ∧ account.last = none
  | .keeper, begun, .sealed writer replay account, page =>
      Sealed inner writer replay account page ∧ account.Sound ∧
        ∀ call ∈ begun, Accounts inner call account page
  | .keeper, begun, .left guard (some account), page => Closed account page ∧
      page.custody = .taken ∧ Fits inner page.scratch.progress guard ∧ account.Sound ∧
      ∀ call ∈ begun, Accounts inner call account page
  | .keeper, begun, .gone (some account), page => Closed account page ∧
      Gone inner page ∧ account.Sound ∧ ∀ call ∈ begun, Accounts inner call account page
  | .reader _, begun, .cursor cursor reading, page =>
      Reads inner cursor reading page ∧ ∀ call ∈ begun, Reports call cursor reading page
  | .reader _, begun, .waiting cursor reading, page => Reads inner cursor reading page ∧
      ∀ call ∈ begun, call.owner.cursor? = some cursor
  | .reader _, _, .left guard none, page =>
      page.custody = .taken ∧ Fits inner page.scratch.progress guard
  | .reader _, _, .gone none, page => Gone inner page
  | _, _, _, _ => False

/-- The state of the scratch directory in which a job may be handed to a worker. -/
def Allows (codec : Codec Unit Value) (inner : ReplayInner) (party : Party) (page : Page Value) :
    FsJob → Prop
  | .ensureDir dir => party = .keeper ∧ dir = inner.dir ∧ page.scratch.progress = .armed ∧
      page.scratch.busy = false
  | .create path => party = .keeper ∧ path = inner.path ∧ page.scratch.progress = .made ∧
      page.scratch.busy = false
  | .append path len _ bytes => party = .keeper ∧ path = inner.path ∧
      page.scratch.progress = .ready ∧ page.scratch.busy = false ∧ len = bytes.length ∧
      len ≤ u32Max ∧ ∃ row pass, page.encoded = some (row, pass) ∧ codec.serializes row pass ∧
        pass.failure = none ∧ pass.bytes = bytes
  | .patch path _ => party = .keeper ∧ path = inner.path ∧ page.scratch.progress = .ready ∧
      page.scratch.busy = false
  | .readFrame path offset _ => party ≠ .keeper ∧ page.custody = .shared ∧ path = inner.path ∧
      ∃ position row, page.published.rows[position]? = some row ∧
        offset = offsetOf page.published.rows position
  | .removeDirAll dir => dir = inner.dir ∧ page.scratch.progress = .cleared ∧
      (page.custody = .sole ∨ page.custody = .taken)
  | .readCount _ | .removeIfExists _ => False

/-- The books permit a request. -/
def Permits (codec : Codec Unit Value) (inner : ReplayInner) (party : Party) (page : Page Value) :
    Request Unit Value → Prop
  | .perform io _ job => io = inner.scope ∧ page.custody ≠ .away ∧ Allows codec inner party page job
  | .direct _ => False
  | .idle io => io = inner.scope ∧ (page.custody = .sole ∨ page.custody = .taken) ∧
      page.scratch.progress.isArmed = true
  | .replay (.storeRows rows) => party = .keeper ∧ page.custody ≠ .away ∧
      rows = page.published.rows.length + 1 ∧ page.published.state = .writing ∧
      ∃ row, page.scratch.progress = .appended row
  | .replay (.compareExchange state) => party = .keeper ∧ page.custody ≠ .away ∧ state ≠ .writing
  | .replay .notifyWaiters => party = .keeper
  | .replay .retain => False
  | .replay .release | .replay .unwrap => page.custody = .shared
  | .replay .exclusive => party = .keeper ∧ (page.custody = .shared ∨ page.custody = .sole)
  | .replay (.storeCleanup guard) => party = .keeper ∧
      (page.custody = .sole ∧ Fits inner page.scratch.progress guard ∨ page.custody = .shared ∧
        page.scratch.progress = .unarmed ∧
        page.published.state = .writing ∧ Fits inner (.armed : Progress Value) guard)
  | _ => True

/-- A reader may sleep: whatever it has not seen is going to be announced. -/
def Sleeps (token : Nat) (left : ReplayOwner Value) (page : Page Value) : Prop :=
  token ≤ page.published.notices ∧ ∃ cursor, left.cursor? = some cursor ∧
    (page.published.notices = token → page.published.owed = true ∨
      page.published.state = .writing ∧ page.published.rows.length ≤ cursor.position)

/-- Whoever was left with the scratch owner has it in hand. -/
def Carries (inner : ReplayInner) (left : ReplayOwner Value) (page : Page Value) : Prop :=
  page.custody = .taken → ∃ guard account, left = .left guard account ∧
    Fits inner page.scratch.progress guard

/-- The condition of a request: the books permit it, an owed notice comes first,
a reader may sleep there, the future may be dropped there, and the call keeps the
reference of a cursor or the scratch owner it has. -/
def Issues (codec : Codec Unit Value) (inner : ReplayInner) (party : Party) (cancellable : Bool)
    (begun : Begun Value) (left : ReplayOwner Value) (op : Request Unit Value) (page : Page Value) :
    Prop :=
  Permits codec inner party page op ∧
    (page.published.owed = true → party = .keeper → op = .replay .notifyWaiters) ∧
    (∀ token, op = .replay (.changed token) → Sleeps token left page) ∧
    (cancellable = true → op.awaits = true →
      OwnerOk inner party (some begun) left (page.issued op).relaxed) ∧
    (party ≠ .keeper → begun.owner.cursor? ≠ none → page.custody = .shared) ∧
    Carries inner left page

/-- A call keeps to the books and ends with an owner that agrees with them. -/
def TurnOk (codec : Codec Unit Value) (inner : ReplayInner) (party : Party) (cancellable : Bool)
    (begun : Begun Value) (turn : Turn Unit Value (ReplayOwner Value)) (page : Page Value) : Prop :=
  turn.wp (books codec inner party) (Issues codec inner party cancellable begun)
    (fun owner page => OwnerOk inner party (some begun) owner page.relaxed) page

section Rely

variable {codec : Codec Unit Value} {inner : ReplayInner} {party : Party}
  {page page' : Page Value} {before after : Published Value}

theorem Published.Grows.values (grows : before.Grows after) : before.values <+: after.values :=
  grows.rows.map _

theorem Published.Grows.length (grows : before.Grows after) :
    before.rows.length ≤ after.rows.length := grows.rows.length_le

theorem Published.Grows.offset (grows : before.Grows after) {position : Nat}
    (within : position ≤ before.rows.length) :
    offsetOf after.rows position = offsetOf before.rows position := by
  obtain ⟨more, same⟩ := grows.rows
  rw [← same, offsetOf_append within]

theorem Published.Grows.row (grows : before.Grows after) {position : Nat} {row : Committed Value}
    (found : before.rows[position]? = some row) : after.rows[position]? = some row := by
  obtain ⟨more, same⟩ := grows.rows
  rw [← same, List.getElem?_append_left (List.getElem?_eq_some_iff.mp found).1, found]

theorem Reads.rely {cursor : ReplayCursor} {reading : Reading Value}
    (reads : Reads inner cursor reading page) (rely : page.Rely party page') :
    Reads inner cursor reading page' where
  storage := reads.storage
  custody := rely.custody.trans reads.custody
  position := reads.position.trans rely.grows.length
  offset := reads.offset.trans (rely.grows.offset reads.position).symm
  origin := reads.origin
  items := by
    obtain ⟨more, same⟩ := rely.grows.values
    have within : cursor.position ≤ page.published.values.length := by
      rw [Published.values, List.length_map]
      exact reads.position
    rw [reads.items, ← same, List.take_append_of_le_length within]

theorem Reports.rely {begun : Begun Value} {cursor : ReplayCursor} {reading : Reading Value}
    (reports : Reports begun cursor reading page) (rely : page.Rely party page') :
    Reports begun cursor reading page' where
  item value last := by
    obtain ⟨start, began, next, found, seen⟩ := reports.item value last
    obtain ⟨more, same⟩ := rely.grows.values
    have inside := (List.getElem?_eq_some_iff.mp found).1
    refine ⟨start, began, next, ?_, rely.seen ▸ seen⟩
    rw [← same, List.getElem?_append_left inside, found]
  stays := reports.stays
  exhausted last := by
    obtain ⟨state, position⟩ := reports.exhausted last
    have ended : page.published.state ≠ .writing := by simp [state]
    exact ⟨(rely.grows.state ended).trans state, by rw [position, rely.grows.final ended]⟩
  awaiting last := rely.seen ▸ reports.awaiting last
  failed := reports.failed

theorem Page.Rely.keeps {writer : ReplayWriter} {account : Account Value}
    (rely : page.Rely .keeper page') (keeps : Keeps inner writer account page) : page' = page := by
  apply rely.eq
  simp [keeps.custody]

theorem Page.Rely.sealed {writer : ReplayWriter} {replay : Replay} {account : Account Value}
    (rely : page.Rely .keeper page') (ok : Sealed inner writer replay account page) :
    page' = page := by
  apply rely.eq
  simp [ok.custody]

theorem Closed.of_published {account : Account Value} (closed : Closed account page)
    (same : page'.published = page.published) : Closed account page' :=
  ⟨same ▸ closed.state, same ▸ closed.seals, same ▸ closed.broken, same ▸ closed.appended,
    same ▸ closed.owed⟩

theorem Closed.rely {account : Account Value} (closed : Closed account page)
    (rely : page.Rely .keeper page') : Closed account page' :=
  closed.of_published (rely.published rfl)

theorem Accounts.rely {begun : Begun Value} {account : Account Value}
    (accounts : Accounts inner begun account page) (rely : page.Rely .keeper page') :
    Accounts inner begun account page' where
  refused := accounts.refused
  inUse ends seen := accounts.inUse ends (rely.seen ▸ seen)
  aborted call writes last := by
    obtain ⟨held, state, armed, seen⟩ := accounts.aborted call writes last
    rw [rely.eq held]
    exact ⟨held, state, armed, seen⟩
  closed call last := by
    obtain ⟨taken, armed, seen⟩ := accounts.closed call last
    rw [rely.eq (by simp [taken])]
    exact ⟨taken, armed, seen⟩
  again := accounts.again
  stopped ends abort last := rely.seen ▸ accounts.stopped ends abort last

theorem Gone.rely (gone : Gone inner page) (rely : page.Rely party page') : Gone inner page' where
  unheld := rely.custody ▸ gone.unheld
  reported taken := by
    have before : page.custody = .taken := rely.custody.symm.trans taken
    rw [rely.scratch (.inr (.inr before)), rely.seen]
    exact gone.reported before

theorem Carries.rely {left : ReplayOwner Value} (carries : Carries inner left page)
    (rely : page.Rely party page') : Carries inner left page' := by
  intro taken
  have before : page.custody = .taken := rely.custody.symm.trans taken
  rw [rely.scratch (.inr (.inr before))]
  exact carries before

/-- An owner's condition survives whatever the others do. -/
theorem OwnerOk.rely {begun : Option (Begun Value)} {owner : ReplayOwner Value}
    (ok : OwnerOk inner party begun owner page) (rely : page.Rely party page') :
    OwnerOk inner party begun owner page' := by
  cases party with
  | keeper =>
      cases owner with
      | writer writer account =>
          obtain ⟨keeps, rest⟩ := ok
          rw [rely.keeps keeps]
          exact ⟨keeps, rest⟩
      | unwinding writer account =>
          obtain ⟨keeps, rest⟩ := ok
          rw [rely.keeps keeps]
          exact ⟨keeps, rest⟩
      | «sealed» writer replay account =>
          obtain ⟨ok, rest⟩ := ok
          rw [rely.sealed ok]
          exact ⟨ok, rest⟩
      | left guard account =>
          cases account with
          | none => cases ok
          | some account =>
              obtain ⟨closed, taken, rest⟩ := ok
              rw [rely.eq (by simp [taken])]
              exact ⟨closed, taken, rest⟩
      | gone account =>
          cases account with
          | none => cases ok
          | some account =>
              obtain ⟨closed, gone, sound, accounts⟩ := ok
              exact ⟨closed.rely rely, gone.rely rely, sound,
                fun call known => (accounts call known).rely rely⟩
      | cursor | waiting => cases ok
  | reader number =>
      cases owner with
      | cursor cursor reading =>
          obtain ⟨reads, reports⟩ := ok
          exact ⟨reads.rely rely, fun call known => (reports call known).rely rely⟩
      | waiting cursor reading =>
          obtain ⟨reads, began⟩ := ok
          exact ⟨reads.rely rely, began⟩
      | left guard account =>
          cases account with
          | none =>
              obtain ⟨taken, fits⟩ := ok
              refine ⟨rely.custody.trans taken, ?_⟩
              rw [rely.scratch (.inr (.inr taken))]
              exact fits
          | some account => cases ok
      | gone account =>
          cases account with
          | none => exact Gone.rely ok rely
          | some account => cases ok
      | writer | unwinding | «sealed» => cases ok

theorem Page.Rely.issued (rely : page.Rely party page') (op : Request Unit Value) :
    (page.issued op).Rely party (page'.issued op) := by
  cases op with
  | perform io held job =>
      cases job with
      | ensureDir | create | patch | removeDirAll =>
          exact ⟨rely.custody, rely.encoded, rely.seen, rely.published, rely.grows,
            fun rules => by simp only [Page.issued]; rw [rely.scratch rules]⟩
      | append path len weight bytes =>
          have same := rely.encoded
          cases known : page.encoded with
          | none =>
              rw [known] at same
              simp only [Page.issued, known, same]
              exact rely
          | some encoded =>
              rw [known] at same
              simp only [Page.issued, known, same]
              exact ⟨rely.custody, rfl, rely.seen, rely.published, rely.grows,
                fun rules => by rw [rely.scratch rules]⟩
      | _ => exact rely
  | _ => exact rely

theorem books_absorbs : (books codec inner party).Absorbs (Page.Rely party) := by
  rintro op page page' reply next rely ⟨middle, last, moved, acts, same⟩
  exact ⟨middle, last, (rely.issued op).trans moved, acts, same⟩

theorem Allows.rely {job : FsJob} (allows : Allows codec inner party page job)
    (rely : page.Rely party page') (held : page.custody ≠ .away) :
    Allows codec inner party page' job := by
  cases job with
  | ensureDir | create | append | patch =>
      obtain ⟨rfl, rest⟩ := allows
      rw [rely.eq held]
      exact ⟨rfl, rest⟩
  | readFrame path offset rowInline =>
      obtain ⟨reader, shared, path, position, row, found, offset⟩ := allows
      have within := (List.getElem?_eq_some_iff.mp found).1.le
      exact ⟨reader, rely.custody.trans shared, path, position, row, rely.grows.row found,
        offset.trans (rely.grows.offset within).symm⟩
  | removeDirAll dir =>
      obtain ⟨dir, cleared, alone⟩ := allows
      refine ⟨dir, ?_, rely.custody ▸ alone⟩
      rw [rely.scratch (.inr alone)]
      exact cleared
  | readCount | removeIfExists => cases allows

theorem Sleeps.rely {token : Nat} {left : ReplayOwner Value} (sleeps : Sleeps token left page)
    (rely : page.Rely party page') : Sleeps token left page' := by
  obtain ⟨order, cursor, holds, known⟩ := sleeps
  refine ⟨order.trans rely.grows.notices, cursor, holds, ?_⟩
  intro same
  have between := rely.grows.notices
  obtain owed | unchanged := rely.grows.owed (by omega)
  · exact .inl owed
  · rw [unchanged]
    exact known (by omega)

/-- What the books permit, they go on to permit. -/
theorem Permits.rely {op : Request Unit Value} (permits : Permits codec inner party page op)
    (rely : page.Rely party page') : Permits codec inner party page' op := by
  cases op with
  | perform io held job =>
      obtain ⟨scope, held, allows⟩ := permits
      exact ⟨scope, rely.custody ▸ held, allows.rely rely held⟩
  | idle io =>
      obtain ⟨scope, alone, armed⟩ := permits
      refine ⟨scope, rely.custody ▸ alone, ?_⟩
      rw [rely.scratch (.inr alone)]
      exact armed
  | replay request =>
      cases request with
      | storeRows rows =>
          obtain ⟨rfl, held, rest⟩ := permits
          rw [rely.eq held]
          exact ⟨rfl, held, rest⟩
      | compareExchange state =>
          obtain ⟨rfl, held, rest⟩ := permits
          rw [rely.eq held]
          exact ⟨rfl, held, rest⟩
      | «exclusive» =>
          obtain ⟨rfl, held⟩ := permits
          exact ⟨rfl, rely.custody ▸ held⟩
      | storeCleanup guard =>
          obtain ⟨rfl, rest⟩ := permits
          rw [rely.eq (by rcases rest with ⟨held, -⟩ | ⟨held, -⟩ <;> simp [held])]
          exact ⟨rfl, rest⟩
      | release | unwrap => exact rely.custody.trans permits
      | _ => exact permits
  | direct => cases permits
  | _ => trivial

/-- A call in progress survives whatever the others do. -/
theorem TurnOk.rely {cancellable : Bool} {begun : Begun Value}
    {turn : Turn Unit Value (ReplayOwner Value)}
    (ok : TurnOk codec inner party cancellable begun turn page) (rely : page.Rely party page') :
    TurnOk codec inner party cancellable begun turn page' := by
  apply Program.wp_stable ok rely books_absorbs
  · rintro left op page page' rely ⟨permits, owed, sleeps, drops, refers, carries⟩
    refine ⟨permits.rely rely, ?_, fun token same => (sleeps token same).rely rely,
      fun may awaits => (drops may awaits).rely (rely.issued op).relaxed,
      fun reader some => rely.custody.trans (refers reader some), carries.rely rely⟩
    intro isOwed keeper
    exact owed (by rwa [← rely.published keeper]) keeper
  · exact fun owner page page' rely ok => ok.rely rely.relaxed

end Rely

end SortGovernor.Runtime
