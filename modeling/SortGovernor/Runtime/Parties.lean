import SortGovernor.Runtime.Coupling
import SortGovernor.Runtime.Exclusion

/-!
# The parties of a replay and their pages

Every party is where its page permits: between two calls, within one, or
suspended at a request it may be dropped at.  Whatever it does next turns its own
page, and the others stay where they are.
-/

namespace SortGovernor.Runtime

open SortGovernor.Engine SortGovernor.Resumption

variable {Value : Type}

abbrev ReplayState (Value : Type) := State ReplayShared fun _ : Party => ReplayActor Value

def Waits (inner : ReplayInner) (party : Party) (page : Page Value) : Request Unit Value → Prop
  | .perform io _ job => io = inner.scope ∧ Awaits party page job
  | .idle io => io = inner.scope ∧ (page.custody = .sole ∨ page.custody = .taken) ∧
      page.scratch.progress.isArmed = true
  | .replay (.changed _) => True
  | _ => False

/-- A call suspended at a request: it may be dropped there, and it goes on with
whatever the others leave. -/
structure Suspends (codec : Codec Unit Value) (inner : ReplayInner) (party : Party)
    (cancellable : Bool) (begun : Begun Value) (left : ReplayOwner Value) (op : Request Unit Value)
    (resume : op.Reply → Turn Unit Value (ReplayOwner Value)) (page : Page Value) : Prop where
  waits : Waits inner party page op
  owed : party = .keeper → page.published.owed = false
  sleeps : ∀ token, op = .replay (.changed token) → Sleeps token left page
  dropped : cancellable = true → OwnerOk inner party (some begun) left page.relaxed
  refers : party ≠ .keeper → begun.owner.cursor? ≠ none → page.custody = .shared
  carries : Carries inner left page
  resumes : ∀ reply middle last, page.Rely party middle → Acts codec inner op middle reply last →
    TurnOk codec inner party cancellable begun (resume reply)
      { last with seen := last.seen ++ noted op reply }

/-- A party is where its page permits. -/
inductive Meets (codec : Codec Unit Value) (inner : ReplayInner) (books : Books Value) :
    Party → Option (Task (ReplayActor Value)) → Prop where
  | unborn : OwnerOk inner .keeper none (.writer (.new inner) .new) (books.page .keeper []) →
      Meets codec inner books .keeper none
  | absent {number} : books.custody (.reader number) = .away →
      Meets codec inner books (.reader number) none
  | owner {party begun owner seen} : OwnerOk inner party begun owner (books.page party seen) →
      Meets codec inner books party (some ⟨⟨.owner owner, begun, seen⟩, false⟩)
  | running {party begun cancellable turn seen} :
      TurnOk codec inner party cancellable begun turn (books.page party seen) →
      Meets codec inner books party (some ⟨⟨.running cancellable turn, some begun, seen⟩, false⟩)
  | suspended {party begun cancellable left op resume seen} :
      Suspends codec inner party cancellable begun left op resume (books.page party seen) →
      Meets codec inner books party
        (some ⟨⟨.running cancellable (.request left op resume), some begun, seen⟩, true⟩)

/-- The runtime and the books agree. -/
structure Coupled (codec : Codec Unit Value) (inner : ReplayInner) (first : Fs)
    (books : Books Value) (state : ReplayState Value) : Prop where
  agree : Agree codec inner first books state.world state.flights
  meets : ∀ party, Meets codec inner books party (state.tasks party)

/-- What a run never takes back: nor does a failed replay without readers get any. -/
structure Later (before after : Books Value) : Prop where
  onward : Onward before after
  lonely : before.published.state = .failed →
    (∀ number, before.custody (.reader number) = .away) →
    ∀ number, after.custody (.reader number) = .away

section Later

variable {first second third : Books Value}

theorem Onward.trans (left : Onward first second) (right : Onward second third) :
    Onward first third where
  grows := left.grows.trans right.grows
  removed removed := right.removed (left.removed removed)
  unarmed unarmed ended := right.unarmed (left.unarmed unarmed ended)
    (left.grows.state ended ▸ ended)

theorem Later.refl (books : Books Value) : Later books books where
  onward := .of_eq rfl rfl
  lonely _ away := away

theorem Later.trans (left : Later first second) (right : Later second third) :
    Later first third where
  onward := left.onward.trans right.onward
  lonely failed away := by
    apply right.lonely _ (left.lonely failed away)
    rw [left.onward.grows.state (by simp [failed]), failed]

end Later

section Rely

variable {codec : Codec Unit Value} {inner : ReplayInner} {first : Fs} {books books' : Books Value}
  {party : Party} {page page' : Page Value} {seen : List Seen}

theorem Waits.rely {op : Request Unit Value} (waits : Waits inner party page op)
    (rely : page.Rely party page') : Waits inner party page' op := by
  cases op with
  | perform io held job =>
      obtain ⟨scope, awaits⟩ := waits
      refine ⟨scope, ?_⟩
      cases job <;> simp only [Awaits, rely.custody] at awaits ⊢ <;> exact awaits
  | idle io =>
      obtain ⟨scope, alone, armed⟩ := waits
      refine ⟨scope, rely.custody ▸ alone, ?_⟩
      rw [rely.scratch (.inr alone)]
      exact armed
  | replay request =>
      cases request with
      | changed token => trivial
      | _ => cases waits
  | _ => cases waits

theorem Suspends.rely {cancellable : Bool} {begun : Begun Value} {left : ReplayOwner Value}
    {op : Request Unit Value} {resume : op.Reply → Turn Unit Value (ReplayOwner Value)}
    (suspends : Suspends codec inner party cancellable begun left op resume page)
    (rely : page.Rely party page') :
    Suspends codec inner party cancellable begun left op resume page' where
  waits := suspends.waits.rely rely
  owed keeper := by
    rw [rely.published keeper]
    exact suspends.owed keeper
  sleeps token same := (suspends.sleeps token same).rely rely
  dropped may := (suspends.dropped may).rely rely.relaxed
  refers reader some := rely.custody.trans (suspends.refers reader some)
  carries := suspends.carries.rely rely
  resumes reply middle last moved := suspends.resumes reply middle last (rely.trans moved)

/-- A party stays where it is whatever the others do. -/
theorem Meets.rely {task : Option (Task (ReplayActor Value))}
    (meets : Meets codec inner books party task)
    (rely : ∀ seen, (books.page party seen).Rely party (books'.page party seen)) :
    Meets codec inner books' party task := by
  cases meets with
  | unborn ok => exact .unborn (ok.rely (rely []))
  | absent away => exact .absent ((rely []).custody.trans away)
  | owner ok => exact .owner (ok.rely (rely _))
  | running ok => exact .running (ok.rely (rely _))
  | suspended suspends => exact .suspended (suspends.rely (rely _))

end Rely

/-- A party turns its page and comes to a task that its new page permits. -/
def Leads (codec : Codec Unit Value) (inner : ReplayInner) (first : Fs) (books : Books Value)
    (party : Party) (task : Task (ReplayActor Value)) (world : World ReplayShared)
    (flights : List (Operation Party)) : Prop :=
  ∃ page, Turns codec inner first books party page world flights ∧
    Meets codec inner (books.set party page) party (some task)

/-- The runtime goes on, and so do the books. -/
def Proceeds (codec : Codec Unit Value) (inner : ReplayInner) (first : Fs) (books : Books Value)
    (state : ReplayState Value) : Prop :=
  ∃ books', Coupled codec inner first books' state ∧ Later books books'

section Turns

variable {codec : Codec Unit Value} {inner : ReplayInner} {first : Fs} {books : Books Value}
  {state state' : ReplayState Value} {world : World ReplayShared}
  {flights : List (Operation Party)} {party : Party} {page : Page Value} {seen : List Seen}

theorem Turns.later (turns : Turns codec inner first books party page world flights) :
    Later books (books.set party page) where
  onward := turns.onward
  lonely _ away number := by
    by_cases same : Party.reader number = party
    · subst same
      rw [Books.custody_set]
      exact turns.away (away number)
    · rw [Books.custody_set_ne same]
      exact away number

theorem Leads.proceeds {task : Task (ReplayActor Value)}
    (leads : Leads codec inner first books party task world flights)
    (coupled : Coupled codec inner first books state) (same : state'.world = world)
    (perm : state'.flights.Perm flights) (found : state'.tasks party = some task)
    (others : ∀ other, other ≠ party → state'.tasks other = state.tasks other) :
    Proceeds codec inner first books state' := by
  obtain ⟨page, turns, meets⟩ := leads
  refine ⟨_, ⟨?_, ?_⟩, turns.later⟩
  · rw [same]
    exact ⟨turns.agree.shares, turns.agree.balanced, turns.agree.flights.perm perm⟩
  · intro other
    by_cases different : other = party
    · rw [different, found]
      exact meets
    · rw [others other different]
      exact (coupled.meets other).rely (turns.rely other different)

theorem Coupled.workers (coupled : Coupled codec inner first books state)
    (tasks : state'.tasks = state.tasks) (shared : state'.world.shared = state.world.shared)
    (flights : Flights codec inner first books.scratch books.published.rows state'.world.fs
      state'.flights) :
    Proceeds codec inner first books state' := by
  refine ⟨books, ⟨⟨?_, coupled.agree.balanced, flights⟩, ?_⟩, .refl books⟩
  · rw [shared]
    exact coupled.agree.shares
  · rw [tasks]
    exact coupled.meets

/-- A call that is over, or dropped, no longer knows that it is alone. -/
theorem Agree.relaxes (agree : Agree codec inner first books world flights)
    {begun : Option (Begun Value)} {owner : ReplayOwner Value}
    (ok : OwnerOk inner party begun owner (books.page party seen).relaxed) :
    Turns codec inner first books party (books.page party seen).relaxed world flights := by
  by_cases sole : books.custody party = .sole
  · have relaxed : (books.page party seen).relaxed =
        { books.page party seen with custody := .shared } := by
      simp [Page.relaxed, Books.page, sole, Custody.relaxed]
    rw [relaxed] at ok ⊢
    cases party with
    | reader number => exact absurd sole (agree.balanced.readers number)
    | keeper =>
        apply agree.relearns (.inr sole) (.inl rfl)
        · exact fun same => by cases same
        · refine fun _ => ⟨?_, fun _ => rfl⟩
          cases owner with
          | writer writer account => exact ok.1.cleanup
          | unwinding writer account => exact ok.1.cleanup
          | «sealed» writer replay account => exact ok.1.cleanup
          | left guard account =>
              cases account with
              | none => cases ok
              | some account => cases ok.2.1
          | gone account =>
              cases account with
              | none => cases ok
              | some account => exact absurd (.inl rfl) ok.2.1.unheld
          | cursor | waiting => cases ok
  · apply agree.looks rfl rfl
    cases held : books.custody party <;>
      simp_all [Page.relaxed, Books.page, Custody.relaxed]

theorem Agree.calls (agree : Agree codec inner first books world flights)
    {begun : Option (Begun Value)} {owner : ReplayOwner Value} {label : ReplayCall Value}
    (ok : OwnerOk inner .keeper begun owner (books.page .keeper seen)) :
    Turns codec inner first books .keeper ((books.page .keeper seen).calls owner label world.shared)
      world flights := by
  have looks : Turns codec inner first books .keeper (books.page .keeper []) world flights :=
    agree.looks rfl rfl rfl
  cases owner with
  | writer writer account =>
      cases label with
      | abort =>
          have shared : books.custody .keeper = .shared := ok.1.custody
          by_cases one : world.shared.handles = 1
          · simp only [Page.calls, if_pos one]
            change Turns codec inner first books .keeper
              { books.page .keeper [] with custody := .sole } world flights
            apply agree.relearns (.inl shared) (.inr rfl)
            · exact fun _ => ⟨rfl, agree.sole one (.inl shared)⟩
            · exact fun same => by cases same
          · simp only [Page.calls, if_neg one]
            exact looks
      | _ => exact looks
  | _ => exact looks

end Turns

section Forks

variable {codec : Codec Unit Value} {inner : ReplayInner} {first : Fs}
  {books : Books Value} {state : ReplayState Value} {world next : World ReplayShared}
  {flights : List (Operation Party)} {party child : Party} {number : Nat} {cursor : ReplayCursor}

def World.retained (world : World ReplayShared) : World ReplayShared :=
  { world with shared := { world.shared with handles := world.shared.handles + 1 } }

def Books.retained (books : Books Value) (child : Party) : Books Value :=
  { books with custody := Function.update books.custody child .shared }

theorem wp_accessAtOnce {State : Type} {left : State} (request : ReplayRequest)
    {ok : request.Reply → State → World ReplayShared → Prop}
    {err : Abort → State → World ReplayShared → Prop}
    (done : ∀ reply shared, world.shared.access request = some (reply, shared) →
      ok reply left { world with shared }) :
    (access request).wp (atOnce codec) (fun _ _ _ => True) ok err left world := by
  refine ⟨trivial, ?_⟩
  rintro reply next ⟨-, same, accessed⟩
  rw [World.ext_shared same]
  exact done reply next.shared accessed

theorem runs_retain {State : Type} {left left' : State}
    (run : Runs (atOnce codec) ((access .retain : Async Unit Value State Unit) left)
      world (.returned (.ok (), left')) next) : next = world.retained := by
  suffices holds : (access .retain : Async Unit Value State Unit).wp (atOnce codec)
      (fun _ _ _ => True) (fun _ _ next => next = world.retained)
        (fun _ _ _ => True) left world from
    Method.wp_returned holds run
  apply wp_accessAtOnce
  intro reply shared accessed
  cases accessed
  rfl

theorem runs_cursor {replay : Replay} {cursor : ReplayCursor}
    (run : Runs (atOnce codec) ((replay.cursor : Async Unit Value Unit ReplayCursor) ())
      world (.returned (.ok cursor, ())) next) :
    next = world.retained ∧ cursor = .new replay.inner := by
  suffices holds : (replay.cursor : Async Unit Value Unit ReplayCursor).wp (atOnce codec)
      (fun _ _ _ => True) (fun cursor _ next => next = world.retained ∧ cursor = .new replay.inner)
      (fun _ _ _ => True) () world from
    Method.wp_returned holds run
  refine Method.wp_bind.mpr (wp_accessAtOnce .retain ?_)
  intro reply shared accessed
  cases accessed
  exact Method.wp_pure.mpr ⟨rfl, rfl⟩

/-- A cursor of an unfinished replay is handed out unless the writer failed. -/
theorem runs_prefixCursor {writer left : ReplayWriter} {cursor : ReplayCursor}
    (storage : writer.inner = some inner)
    (run : Runs (atOnce codec)
      ((ReplayWriter.prefixCursor : Async Unit Value ReplayWriter ReplayCursor) writer)
      world (.returned (.ok cursor, left)) next) :
    next = world.retained ∧ cursor = .new inner ∧ world.shared.state ≠ .failed := by
  suffices holds : (ReplayWriter.prefixCursor : Async Unit Value ReplayWriter ReplayCursor).wp
      (atOnce codec) (fun _ _ _ => True) (fun cursor _ next =>
        next = world.retained ∧ cursor = .new inner ∧ world.shared.state ≠ .failed)
      (fun _ _ _ => True) writer world from
    Method.wp_returned holds run
  unfold ReplayWriter.prefixCursor ReplayWriter.active orError
  simp only [bind_assoc]
  refine Method.wp_bind.mpr (Method.wp_get.mpr (Method.wp_bind.mpr (Method.wp_okOr.mpr ?_)))
  simp only [storage]
  refine Method.wp_bind.mpr (wp_accessAtOnce .retain ?_)
  intro _ shared accessed
  cases accessed
  refine Method.wp_tryCatch.mpr (Method.wp_bind.mpr (Method.wp_bind.mpr ?_))
  have refused : ∀ abort (later : World ReplayShared), (do
      let _ ← access .release
      throw abort : Async Unit Value ReplayWriter ReplayCursor).wp (atOnce codec)
        (fun _ _ _ => True) (fun cursor _ next =>
          next = world.retained ∧ cursor = .new inner ∧ world.shared.state ≠ .failed)
        (fun _ _ _ => True) writer later := by
    intro abort later
    refine Method.wp_bind.mpr (wp_accessAtOnce .release ?_)
    intro _ _ _
    exact Method.wp_throw.mpr trivial
  refine wp_accessAtOnce .loadState ?_
  intro loaded shared accessed
  cases accessed
  refine Method.wp_ite.mpr ⟨?_, ?_⟩
  · intro _
    exact Method.wp_throw.mpr (refused _ _)
  · intro alive
    refine Method.wp_bind.mpr (wp_accessAtOnce .loadRows ?_)
    intro rows shared accessed
    cases accessed
    exact Method.wp_pure.mpr (Method.wp_pure.mpr ⟨rfl, rfl, alive⟩)

/-- A reader more, by the hand of a party with a reference. -/
theorem Agree.forks (agree : Agree codec inner first books world flights)
    (held : books.custody party = .shared) (away : books.custody (.reader number) = .away)
    (unspent : books.scratch.progress.isSpent = false) :
    Agree codec inner first (books.retained (.reader number)) world.retained flights := by
  obtain ⟨shares, balanced, operations⟩ := agree
  obtain ⟨holders, known, count⟩ := shares.handles
  have others : ∀ other, (books.retained (.reader number)).custody other =
      if other = .reader number then .shared else books.custody other := by
    intro other
    simp only [Books.retained, Function.update_apply]
  have fresh : .reader number ∉ holders := by
    rw [known, away]
    simp [Custody.Holds]
  have nobody : ∀ other, ¬(books.custody other = .sole ∨ books.custody other = .taken) := by
    intro other alone
    by_cases same : party = other
    · rw [← same, held] at alone
      simp at alone
    · cases held.symm.trans (balanced.alone other alone party same)
  constructor
  · refine ⟨shares.state, shares.rows, shares.notices, shares.cleanup,
      insert (.reader number) holders, ?_, ?_⟩
    · intro other
      rw [others, Finset.mem_insert, known]
      by_cases same : other = .reader number
      · simp [same, Custody.Holds]
      · simp [same]
    · rw [Finset.card_insert_of_notMem fresh, ← count]
      rfl
  · constructor
    · intro other alone
      rw [others] at alone
      by_cases same : other = .reader number
      · simp [same] at alone
      · rw [if_neg same] at alone
        exact absurd alone (nobody other)
    · intro other
      rw [others]
      split
      · simp
      · exact balanced.readers other
    · exact fun _ _ => balanced.cleanup party held
    · intro other sole
      rw [others] at sole
      by_cases same : other = .reader number
      · simp [same] at sole
      · rw [if_neg same] at sole
        exact absurd (.inl sole) (nobody other)
    · exact fun spent => absurd (unspent.symm.trans spent) (by simp)
    · intro none
      refine absurd ?_ (none (.reader number))
      rw [others, if_pos rfl]
      exact .inl rfl
    · exact balanced.rows
    · exact balanced.valid
    · exact balanced.next
  · exact operations

/-- A party that hands out cursors holds a reference, the directory stays, and
the new cursor stands at its row. -/
structure Lends (inner : ReplayInner) (books : Books Value) (party : Party)
    (cursor : ReplayCursor) : Prop where
  custody : books.custody party = .shared
  unspent : books.scratch.progress.isSpent = false
  storage : cursor.inner = inner
  position : cursor.position ≤ books.published.rows.length
  offset : cursor.offset = offsetOf books.published.rows cursor.position
  lonely : books.published.state = .failed → ∃ number, party = .reader number

theorem Lends.reads (lends : Lends inner books party cursor) :
    OwnerOk inner (.reader number) none (.cursor cursor (.new cursor.position))
      ((books.retained (.reader number)).page (.reader number) []) := by
  constructor
  · constructor
    · exact lends.storage
    · exact Function.update_self ..
    · exact lends.position
    · exact lends.offset
    · exact Nat.le_refl _
    · simp [Reading.new]
  · exact fun call member => absurd member (Option.not_mem_none call)

theorem lends_new (custody : books.custody party = .shared)
    (unspent : books.scratch.progress.isSpent = false)
    (lonely : books.published.state = .failed → ∃ number, party = .reader number) :
    Lends inner books party (.new inner) where
  custody := custody
  unspent := unspent
  storage := rfl
  position := Nat.zero_le _
  offset := rfl
  lonely := lonely

theorem Prepared.unspent {writer : ReplayWriter} {page : Page Value}
    (prepared : Prepared inner writer page) : page.scratch.progress.isSpent = false := by
  obtain ⟨-, unarmed, -⟩ | ⟨-, ready⟩ := prepared.file
  · rw [unarmed]
    rfl
  · rw [ready]
    rfl

theorem Meets.lends (agree : Agree codec inner first books world flights)
    {actor childActor : ReplayActor Value}
    (meets : Meets codec inner books party (some ⟨actor, false⟩))
    (forks : ReplayActor.Forks codec actor world childActor next) :
    ∃ cursor, Lends inner books party cursor ∧ next = world.retained ∧
      childActor = .owned (.cursor cursor (.new cursor.position)) := by
  cases forks with
  | @prefixCursor writer account begun seen world cursor left next run =>
      cases meets with
      | owner ok =>
          cases party with
          | reader number => cases ok
          | keeper =>
              obtain ⟨keeps, -, may, -⟩ := ok
              obtain ⟨rfl, rfl, alive⟩ := runs_prefixCursor keeps.storage run
              refine ⟨_, ?_, rfl, rfl⟩
              rw [agree.shares.state] at alive
              apply lends_new keeps.custody _ fun failed => absurd failed alive
              have writing : books.published.state = .writing := by
                have unsealed : books.published.state ≠ .sealed := keeps.unsealed
                cases known : books.published.state <;> simp_all
              exact (may writing).2.unspent
  | @cursor writer replay account begun seen world cursor next run =>
      cases meets with
      | owner ok =>
          cases party with
          | reader number => cases ok
          | keeper =>
              obtain ⟨ok, -⟩ := ok
              obtain ⟨rfl, rfl⟩ := runs_cursor run
              refine ⟨_, ?_, rfl, rfl⟩
              rw [ok.storage]
              apply lends_new ok.custody
              · rw [show books.scratch.progress = .sealing from ok.progress]
                rfl
              · intro failed
                cases failed.symm.trans ok.state
  | @clone cursor reading begun seen world next run =>
      cases meets with
      | owner ok =>
          cases party with
          | keeper => cases ok
          | reader number =>
              obtain ⟨reads, -⟩ := ok
              obtain rfl := runs_retain run
              refine ⟨cursor, ⟨reads.custody, ?_, reads.storage, reads.position, reads.offset,
                fun _ => ⟨number, rfl⟩⟩, rfl, rfl⟩
              cases spent : books.scratch.progress.isSpent with
              | false => rfl
              | true => exact absurd reads.custody (agree.balanced.live spent number)

end Forks

section Steps

variable {codec : Codec Unit Value} {inner : ReplayInner} {first : Fs}
  {books : Books Value} {state state' : ReplayState Value} {world next : World ReplayShared}
  {flights : List (Operation Party)} {party : Party} {actor actor' : ReplayActor Value}

theorem Meets.starts (agree : Agree codec inner first books world flights)
    (meets : Meets codec inner books .keeper none) :
    Leads codec inner first books .keeper ⟨.owned (.writer (.new inner) .new), false⟩ world
      flights := by
  cases meets with
  | unborn ok =>
      refine ⟨books.page .keeper [], agree.looks rfl rfl rfl, ?_⟩
      rw [Books.set_page]
      exact .owner ok

theorem Coupled.fork (coupled : Coupled codec inner first books state) {cursor : ReplayCursor}
    {number : Nat} (lends : Lends inner books party cursor)
    (absent : state.tasks (.reader number) = none) (same : state'.world = state.world.retained)
    (operations : state'.flights = state.flights)
    (found : state'.tasks (.reader number) =
      some ⟨.owned (.cursor cursor (.new cursor.position)), false⟩)
    (others : ∀ other, other ≠ .reader number → state'.tasks other = state.tasks other) :
    Proceeds codec inner first books state' := by
  have away : books.custody (.reader number) = .away := by
    have unborn := coupled.meets (.reader number)
    rw [absent] at unborn
    cases unborn with
    | absent away => exact away
  have custody : ∀ other, other ≠ .reader number →
      (books.retained (.reader number)).custody other = books.custody other :=
    fun other different => Function.update_of_ne different ..
  refine ⟨books.retained (.reader number), ⟨?_, ?_⟩, .of_eq rfl rfl, ?_⟩
  · rw [same, operations]
    exact coupled.agree.forks lends.custody away lends.unspent
  · intro other
    by_cases equal : other = .reader number
    · rw [equal, found]
      exact .owner lends.reads
    · rw [others other equal]
      refine (coupled.meets other).rely fun seen => ?_
      exact ⟨custody other equal, rfl, rfl, fun _ => rfl, .refl _, fun _ => rfl⟩
  · intro failed alone
    obtain ⟨reader, rfl⟩ := lends.lonely failed
    cases (alone reader).symm.trans lends.custody

theorem OwnerOk.fresh [Layout Unit Value] {begun : Option (Begun Value)} {owner : ReplayOwner Value}
    {number : Nat} {page : Page Value} {label : ReplayCall Value} {cancellable : Bool}
    {turn : Turn Unit Value (ReplayOwner Value)}
    (ok : OwnerOk inner (.reader number) begun owner page)
    (called : owner.call label = some (cancellable, turn)) :
    OwnerOk inner (.reader number) none owner { page with seen := [] } := by
  have unbegun : ∀ {condition : Begun Value → Prop}, ∀ call ∈ (none : Option (Begun Value)),
      condition call := fun call member => absurd member (Option.not_mem_none call)
  cases owner with
  | cursor cursor reading =>
      obtain ⟨reads, -⟩ := ok
      exact ⟨⟨reads.storage, reads.custody, reads.position, reads.offset,
        reads.origin, reads.items⟩,
        unbegun⟩
  | waiting cursor reading =>
      obtain ⟨reads, -⟩ := ok
      exact ⟨⟨reads.storage, reads.custody, reads.position, reads.offset,
        reads.origin, reads.items⟩,
        unbegun⟩
  | left guard account =>
      cases account with
      | none => exact ok
      | some account => cases ok
  | gone account => cases label <;> cases called
  | writer | unwinding | «sealed» => cases ok

theorem Meets.calls [Layout Unit Value] (agree : Agree codec inner first books world flights)
    {begun : Option (Begun Value)} {owner : ReplayOwner Value} {seen : List Seen}
    {label : ReplayCall Value} {cancellable : Bool} {turn : Turn Unit Value (ReplayOwner Value)}
    (meets : Meets codec inner books party (some ⟨⟨.owner owner, begun, seen⟩, false⟩))
    (called : owner.call label = some (cancellable, turn)) :
    Leads codec inner first books party
      ⟨⟨.running cancellable turn, some ⟨owner, label, world.shared⟩, []⟩, false⟩
        world flights := by
  cases meets with
  | owner ok =>
      cases party with
      | keeper =>
          refine ⟨(books.page .keeper seen).calls owner label world.shared, agree.calls ok,
            .running ?_⟩
          have fresh :
            { (books.page .keeper seen).calls owner label world.shared with seen := [] } =
              (books.page .keeper seen).calls owner label world.shared := by
            unfold Page.calls
            split <;> rfl
          rw [Books.page_set, fresh]
          exact turnOk_keeper ok called agree.shares.state agree.shares.cleanup
      | reader number =>
          refine ⟨books.page (.reader number) [], agree.looks rfl rfl rfl, .running ?_⟩
          rw [Books.page_set]
          exact turnOk_reader (ok.fresh called) called rfl agree.shares.state

theorem Meets.answers (agree : Agree codec inner first books world flights)
    {begun : Option (Begun Value)} {seen : List Seen} {cancellable : Bool}
    {left : ReplayOwner Value} {op : Request Unit Value}
    {resume : op.Reply → Turn Unit Value (ReplayOwner Value)} {reply : op.Reply}
    (meets : Meets codec inner books party
      (some ⟨⟨.running cancellable (.request left op resume), begun, seen⟩, false⟩))
    (atOnce : op.awaits = false) (answers : replayAnswers codec op world reply next) :
    Leads codec inner first books party
      ⟨⟨.running cancellable (resume reply), begun, seen ++ observed op reply⟩, false⟩ next
      flights := by
  cases meets with
  | running ok =>
      obtain ⟨issues, resumes⟩ := ok
      obtain ⟨page, acts, same, turns⟩ := agree.answers issues.1 atOnce answers
      refine ⟨page, turns, .running ?_⟩
      rw [Books.page_set]
      have noted : noted op reply = observed op reply := by
        cases op with
        | perform => cases atOnce
        | _ => rfl
      have issued : (books.page party seen).issued op = books.page party seen := by
        cases op with
        | perform => cases atOnce
        | _ => rfl
      apply resumes
      refine ⟨books.page party seen, page, ?_, acts, ?_⟩
      · rw [issued]
        exact .refl _ _
      · rw [same, noted]

theorem Meets.returns (agree : Agree codec inner first books world flights)
    {begun : Option (Begun Value)} {seen : List Seen} {cancellable : Bool}
    {owner : ReplayOwner Value}
    (meets : Meets codec inner books party
      (some ⟨⟨.running cancellable (.done owner), begun, seen⟩, false⟩)) :
    Leads codec inner first books party ⟨⟨.owner owner, begun, seen⟩, false⟩ world flights := by
  cases meets with
  | running ok =>
      refine ⟨_, agree.relaxes ok, .owner ?_⟩
      rw [Books.page_set]
      exact ok

theorem Meets.cancels (agree : Agree codec inner first books world flights)
    (meets : Meets codec inner books party (some ⟨actor, true⟩))
    (cancels : Actor.Cancels actor.actor actor'.actor) (begun : actor'.begun = actor.begun)
    (seen : actor'.seen = actor.seen) :
    Leads codec inner first books party ⟨actor', false⟩ world flights := by
  obtain ⟨now, begun', seen'⟩ := actor'
  cases meets with
  | suspended suspends =>
      cases begun
      cases seen
      cases cancels with
      | drop awaits =>
          have ok := suspends.dropped rfl
          refine ⟨_, agree.relaxes ok, .owner ?_⟩
          rw [Books.page_set]
          exact ok

theorem Allows.awaits {page : Page Value} {io : ScopeId} {held : List MemoryCharge} {job : FsJob}
    (allows : Allows codec inner party page job) (holds : page.custody ≠ .away) :
    Awaits party (page.issued (.perform io held job)) job := by
  cases job with
  | ensureDir | create | patch => exact ⟨allows.1, holds⟩
  | append path len weight bytes =>
      obtain ⟨keeper, -, -, -, -, -, row, pass, encoded, -⟩ := allows
      simp only [Page.issued, encoded]
      exact ⟨keeper, holds⟩
  | readFrame => exact allows.2.1
  | removeDirAll => exact allows.2.2
  | readCount | removeIfExists => cases allows

theorem Permits.issued_armed {page : Page Value} {op : Request Unit Value}
    (permits : Permits codec inner party page op) :
    (page.issued op).scratch.progress.isArmed = page.scratch.progress.isArmed := by
  cases op with
  | perform io held job =>
      obtain ⟨-, -, allows⟩ := permits
      cases job with
      | append path len weight bytes =>
          obtain ⟨-, -, ready, -, -, -, row, pass, encoded, -⟩ := allows
          simp only [Page.issued, encoded, ready]
          rfl
      | patch =>
          obtain ⟨-, -, ready, -⟩ := allows
          rw [ready]
          rfl
      | removeDirAll =>
          obtain ⟨-, cleared, -⟩ := allows
          rw [cleared]
          rfl
      | _ => rfl
  | _ => rfl

theorem TurnOk.suspends {page : Page Value} {begun : Begun Value} {cancellable : Bool}
    {left : ReplayOwner Value} {op : Request Unit Value}
    {resume : op.Reply → Turn Unit Value (ReplayOwner Value)}
    (ok : TurnOk codec inner party cancellable begun (.request left op resume) page)
    (waits : Waits inner party (page.issued op) op) (awaits : op.awaits = true) :
    Suspends codec inner party cancellable begun left op resume (page.issued op) := by
  obtain ⟨⟨permits, owed, sleeps, drops, refers, carries⟩, resumes⟩ := ok
  constructor
  · exact waits
  · intro keeper
    have published : (page.issued op).published = page.published := (page.issued_keeps op).1
    rw [published]
    cases isOwed : page.published.owed with
    | false => rfl
    | true =>
        obtain rfl := owed isOwed keeper
        cases awaits
  · rintro token rfl
    exact sleeps token rfl
  · exact fun may => drops may awaits
  · exact fun reader some => (page.issued_keeps op).2.1.trans (refers reader some)
  · intro taken
    obtain ⟨guard, account, same, fits⟩ := carries ((page.issued_keeps op).2.1.symm.trans taken)
    exact ⟨guard, account, same, fits.congr permits.issued_armed⟩
  · exact fun reply middle last moved acts => resumes reply _ ⟨middle, last, moved, acts, rfl⟩

theorem Meets.performs (agree : Agree codec inner first books world flights)
    {begun : Option (Begun Value)} {seen : List Seen} {cancellable : Bool}
    {left : ReplayOwner Value} {io : ScopeId} {held : List MemoryCharge} {job : FsJob}
    {resume : Except SorterError job.Value → Turn Unit Value (ReplayOwner Value)}
    (meets : Meets codec inner books party (some ⟨⟨.running cancellable
      (.request left (.perform io held job : Request Unit Value) resume), begun, seen⟩, false⟩)) :
    Leads codec inner first books party ⟨⟨.running cancellable
      (.request left (.perform io held job : Request Unit Value) resume), begun, seen⟩, true⟩ world
      (.spawn ⟨party, io, held, job⟩ :: flights) := by
  cases meets with
  | running ok =>
      obtain ⟨scope, holds, allows⟩ := ok.1.1
      refine ⟨_, agree.performs ok.1.1, .suspended ?_⟩
      have same : { (books.page party seen).issued (.perform io held job) with seen } =
          (books.page party seen).issued (.perform io held job) := by
        cases job with
        | append path len weight bytes =>
            cases encoded : books.encoded party <;> simp [Page.issued, Books.page, encoded]
        | _ => rfl
      rw [Books.page_set, same]
      exact ok.suspends ⟨scope, allows.awaits holds⟩ rfl

theorem Meets.suspends (agree : Agree codec inner first books world flights)
    {begun : Option (Begun Value)} {seen : List Seen} {cancellable : Bool}
    {left : ReplayOwner Value} {op : Request Unit Value}
    {resume : op.Reply → Turn Unit Value (ReplayOwner Value)} {awaited : Await}
    (meets : Meets codec inner books party
      (some ⟨⟨.running cancellable (.request left op resume), begun, seen⟩, false⟩))
    (awaits : await op = some awaited) (other : ∀ scope held job, awaited ≠ .job scope held job) :
    Leads codec inner first books party
      ⟨⟨.running cancellable (.request left op resume), begun, seen⟩, true⟩ world flights := by
  cases meets with
  | running ok =>
      refine ⟨books.page party seen, agree.looks rfl rfl rfl, ?_⟩
      rw [Books.set_page]
      have permits := ok.1.1
      refine .suspended ?_
      cases op with
      | perform | direct =>
          cases awaits
          exact absurd rfl (other _ _ _)
      | idle io => exact ok.suspends permits rfl
      | replay request =>
          cases request with
          | changed token => exact ok.suspends trivial rfl
          | _ => cases awaits
      | _ => cases awaits

variable {prior later : List (Operation Party)} {operation : Operation Party}

theorem Page.delivered_seen (page : Page Value) (job : FsJob) :
    (page.delivered job).seen = page.seen := by
  unfold Page.delivered
  split
  · rfl
  · rfl
  · split <;> rfl
  · rfl
  · rfl
  · rfl

/-- A call goes on after a job. -/
theorem Meets.delivers (agree : Agree codec inner first books world (prior ++ operation :: later))
    {begun : Option (Begun Value)} {seen : List Seen} {cancellable : Bool}
    {left : ReplayOwner Value} {io : ScopeId} {held : List MemoryCharge}
    {resume : Except SorterError operation.job.Value → Turn Unit Value (ReplayOwner Value)}
    (meets : Meets codec inner books party (some ⟨⟨.running cancellable
      (.request left (.perform io held operation.job : Request Unit Value) resume), begun, seen⟩,
      true⟩))
    (attached : operation.attached = true) {reply : Except SorterError operation.job.Value}
    (outcome : operation.outcome = some reply) :
    Leads codec inner first books party ⟨⟨.running cancellable (resume reply), begun,
      seen ++ [.performed operation.job reply.toBool]⟩, false⟩ world (prior ++ later) := by
  have fewer : (prior ++ later).Sublist (prior ++ operation :: later) :=
    (List.sublist_cons_self _ _).append_left _
  cases meets with
  | suspended suspends =>
      obtain ⟨-, awaits⟩ := suspends.waits
      cases reply with
      | error error =>
          have kept : Agree codec inner first books world (prior ++ later) :=
            ⟨agree.shares, agree.balanced, agree.flights.sublist fewer⟩
          refine ⟨books.page party seen, kept.looks rfl rfl rfl, .running ?_⟩
          rw [Books.page_set]
          exact suspends.resumes (.error error) _ _ (.refl _ _) rfl
      | ok value =>
          refine ⟨_, agree.delivers attached outcome awaits, .running ?_⟩
          have same := (books.page party seen).delivered_seen operation.job
          have resumed := suspends.resumes (.ok value) _ _ (.refl _ _)
            ⟨agree.flights.self.hands value outcome, rfl⟩
          rw [same] at resumed
          rw [Books.page_set]
          exact resumed

theorem Meets.idles (agree : Agree codec inner first books world flights)
    {begun : Option (Begun Value)} {seen : List Seen} {cancellable : Bool}
    {left : ReplayOwner Value} {io : ScopeId} {resume : Unit → Turn Unit Value (ReplayOwner Value)}
    (meets : Meets codec inner books party (some ⟨⟨.running cancellable
      (.request left (.idle io : Request Unit Value) resume), begun, seen⟩, true⟩))
    (spent : ∀ flight ∈ flights, flight.Spent) :
    Leads codec inner first books party
      ⟨⟨.running cancellable (resume ()), begun, seen ++ []⟩, false⟩
      world flights := by
  cases meets with
  | suspended suspends =>
      obtain ⟨-, alone, armed⟩ := suspends.waits
      have turns : Turns codec inner first books party { books.page party seen with
          scratch := { books.scratch with progress := .cleared, busy := false } } world flights :=
        agree.idles alone armed spent
      refine ⟨_, turns, .running ?_⟩
      rw [Books.page_set]
      exact suspends.resumes () _ _ (.refl _ _) rfl

theorem Meets.wakes (agree : Agree codec inner first books world flights)
    {begun : Option (Begun Value)} {seen : List Seen} {cancellable : Bool}
    {left : ReplayOwner Value} {token : Nat} {resume : Unit → Turn Unit Value (ReplayOwner Value)}
    (meets : Meets codec inner books party (some ⟨⟨.running cancellable
      (.request left (.replay (.changed token) : Request Unit Value) resume), begun, seen⟩, true⟩))
    (woken : world.shared.notices ≠ token) :
    Leads codec inner first books party
      ⟨⟨.running cancellable (resume ()), begun, seen ++ []⟩, false⟩
      world flights := by
  cases meets with
  | suspended suspends =>
      refine ⟨books.page party seen, agree.looks rfl rfl rfl, .running ?_⟩
      rw [agree.shares.notices] at woken
      rw [Books.page_set]
      exact suspends.resumes () _ _ (.refl _ _) ⟨woken, rfl⟩

theorem Meets.asks {await' : Await} (meets : Meets codec inner books party (some ⟨actor, true⟩))
    (awaits : actor.actor.awaits = some await') :
    ∃ cancellable left op resume, actor.actor = .running cancellable (.request left op resume) ∧
      await op = some await' ∧ Waits inner party (books.page party actor.seen) op := by
  cases meets with
  | suspended suspends => exact ⟨_, _, _, _, rfl, awaits, suspends.waits⟩

theorem Awaits.held {page : Page Value} {job : FsJob} (awaits : Awaits party page job) :
    page.custody ≠ .away := by
  cases job with
  | ensureDir | create | append | patch => exact awaits.2
  | removeDirAll =>
      obtain sole | taken := awaits
      · simp [sole]
      · simp [taken]
  | readFrame =>
      have shared : page.custody = .shared := awaits
      simp [shared]
  | readCount | removeIfExists => cases awaits

theorem nil_of_suffix {owned : List Holding} (suffix : owned <:+ [.reservations, .permit, .guard])
    (noGuard : Holding.guard ∉ owned) : owned = [] := by
  simp only [List.suffix_cons_iff, List.suffix_nil] at suffix
  obtain rfl | rfl | rfl | rfl := suffix
  · simp at noGuard
  · simp at noGuard
  · simp at noGuard
  · rfl

end Steps

end SortGovernor.Runtime
