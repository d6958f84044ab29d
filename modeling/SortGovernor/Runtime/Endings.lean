import SortGovernor.Runtime.Keepers

/-!
# The calls that end a replay

Abort, close and the drops give up the publication first and the directory last.
The directory is removed by a party that is alone with it, after every operation
of its scope has ended, and a removal that fails or is dropped can be tried again.
-/

namespace SortGovernor.Runtime

open SortGovernor.Engine SortGovernor.Resumption

variable {Value State Result : Type} {codec : Codec Unit Value} {inner : ReplayInner}
  {page : Page Value}

def Page.moves (page : Page Value) (progress : Progress Value) (busy : Bool) : Page Value :=
  { page with scratch := { page.scratch with progress, busy } }

section Cleanup

variable {issue : AsyncCleanupGuard → Request Unit Value → Page Value → Prop}
  {ok : Unit → AsyncCleanupGuard → Page Value → Prop}
  {err : Abort → AsyncCleanupGuard → Page Value → Prop} {guard : AsyncCleanupGuard}

/-- An armed scratch owner waits for its scope and removes the directory; it
keeps the directory unless that succeeded. -/
theorem wp_cleanup (held : page.custody ≠ .away) (fits : Fits inner page.scratch.progress guard)
    (idles : page.scratch.progress.isArmed = true → issue guard (.idle inner.scope) page)
    (removes : ∀ charges, page.scratch.progress.isArmed = true →
      issue guard (.perform inner.scope charges (.removeDirAll inner.dir))
        (page.moves .cleared false))
    (unarmed : page.scratch.progress.isArmed = false → ok () guard page)
    (failed : ∀ error, page.scratch.progress.isArmed = true → err (.error error) guard
      { page.moves .removing true with
        seen := page.seen ++ [.performed (.removeDirAll inner.dir) false] })
    (done : ∀ guard', Fits inner (.removed : Progress Value) guard' → ok () guard'
      { page.moves .removed false with
        seen := page.seen ++ [.performed (.removeDirAll inner.dir) true] }) :
    (AsyncCleanupGuard.cleanup : Async Unit Value AsyncCleanupGuard Unit).wp
      (books codec inner .keeper) issue ok err guard page := by
  unfold AsyncCleanupGuard.cleanup
  refine Method.wp_bind.mpr (Method.wp_get.mpr ?_)
  cases armed : page.scratch.progress.isArmed with
  | false =>
      have free : guard.dir = none := by simpa [armed] using fits.dir
      simp only [free]
      exact unarmed armed
  | true =>
      have known : guard.dir = some inner.dir := by simpa [armed] using fits.dir
      simp only [known, fits.fds, fits.scope]
      refine Method.wp_bind.mpr (wp_idleBooks (idles armed) ?_)
      intro next rely
      obtain rfl : page = next := (rely.eq held).symm
      have still : (page.moves .cleared false).custody ≠ .away := held
      refine Method.wp_bind.mpr (Method.wp_bind.mpr (wp_askKeeper still (removes _ armed) ?_))
      intro reply next acts
      cases reply with
      | error error =>
          obtain rfl : next = _ := acts
          exact failed error armed
      | ok value =>
          obtain ⟨-, rfl⟩ := acts
          exact done _ ⟨fits.scope, fits.fds, rfl, rfl⟩

end Cleanup

section Aborts

variable {writer : ReplayWriter} {account : Account Value} {shared : ReplayShared}

/-- A writer that is alone with its replay while an abort cleans up.  What the
references lead to lags behind: the scratch owner in hand is put back last. -/
structure Aborts (inner : ReplayInner) (writer : ReplayWriter) (account : Account Value)
    (page : Page Value) : Prop where
  storage : writer.inner = some inner
  custody : page.custody = .sole
  state : page.published.state = .failed
  seals : account.seals = 0
  appended : account.appended = page.published.values
  owed : page.published.owed = false

theorem Aborts.keeps (aborts : Aborts inner writer account page)
    (last : Option (Except Abort Unit)) {guard : AsyncCleanupGuard}
    (known : page.scratch.cleanup = some guard) (fits : Fits inner page.scratch.progress guard) :
    Keeps inner writer { account with last } page.relaxed := by
  have shared : page.relaxed.custody = .shared := by
    rw [Page.relaxed, aborts.custody]
    rfl
  refine ⟨aborts.storage, shared, ?_, aborts.seals, aborts.appended, aborts.owed,
    guard, known, fits⟩
  change page.published.state ≠ .sealed
  simp [aborts.state]

theorem Accounts.ofAbort {owner : ReplayOwner Value} {outcome : Option (Except Abort Unit)}
    (alone : ∀ seen ∈ page.seen, seen ≠ .exclusive false)
    (aborted : outcome = some (.ok ()) → page.custody ≠ .away ∧ page.published.state ≠ .writing ∧
      page.scratch.progress.isArmed = false ∧ .exclusive true ∈ page.seen)
    (again : shared.cleanup.bind AsyncCleanupGuard.dir = none → outcome = some (.ok ()))
    (stopped : ∀ abort, outcome = some (.error abort) →
      .performed (.removeDirAll inner.dir) false ∈ page.seen) :
    Accounts inner ⟨owner, .abort, shared⟩ { account with last := outcome } page :=
  ⟨False.elim, fun _ seen => absurd rfl (alone _ seen), fun _ _ => aborted,
    fun call => (by cases call), fun _ _ _ => again, fun _ abort last => .inr (stopped abort last)⟩

theorem Aborts.ownerOk {owner : ReplayOwner Value} {outcome : Option (Except Abort Unit)}
    (aborts : Aborts inner writer account page) {guard : AsyncCleanupGuard}
    (known : page.scratch.cleanup = some guard) (fits : Fits inner page.scratch.progress guard)
    (stopped : ∀ abort, outcome = some (.error abort) → (∃ error, abort = .error error) ∧
      .performed (.removeDirAll inner.dir) false ∈ page.seen)
    (alone : ∀ seen ∈ page.seen, seen ≠ .exclusive false)
    (aborted : outcome = some (.ok ()) →
      page.scratch.progress.isArmed = false ∧ .exclusive true ∈ page.seen)
    (again : shared.cleanup.bind AsyncCleanupGuard.dir = none → outcome = some (.ok ())) :
    OwnerOk inner .keeper (some ⟨owner, .abort, shared⟩)
      (.writer writer { account with last := outcome }) page.relaxed := by
  have kept := aborts.keeps outcome known fits
  refine ⟨kept, fun abort last => (stopped abort last).1, ?_, ?_⟩
  · intro writing
    change page.published.state = .writing at writing
    rw [aborts.state] at writing
    cases writing
  · rintro _ ⟨⟩
    refine Accounts.ofAbort alone ?_ again fun abort last => (stopped abort last).2
    intro ended
    refine ⟨kept.held, ?_, aborted ended⟩
    change page.published.state ≠ .writing
    simp [aborts.state]

/-- The page an abort begins with: whoever holds the only reference knows it. -/
structure Begins (shared : ReplayShared) (page : Page Value) : Prop where
  custody : page.custody = .shared ∨ page.custody = .sole
  sole : shared.handles = 1 → page.custody = .sole
  cleanup : shared.cleanup = page.scratch.cleanup
  seen : page.seen = []

theorem wp_storeCleanup {begun : Begun Value} {cancellable : Bool} {guard : AsyncCleanupGuard}
    {dropped : ReplayWriter → ReplayOwner Value} {ok : Unit → ReplayWriter → Page Value → Prop}
    {err : Abort → ReplayWriter → Page Value → Prop} (aborts : Aborts inner writer account page)
    (fits : Fits inner page.scratch.progress guard)
    (done : ok () writer { page with scratch := { page.scratch with cleanup := some guard } }) :
    (access (.storeCleanup guard) : Async Unit Value ReplayWriter Unit).wp
    (books codec inner .keeper)
      (fun left op page => Issues codec inner .keeper cancellable begun (dropped left) op page)
      ok err writer page := by
  refine wp_accessKeeper (.storeCleanup guard) (by simp [aborts.custody]) ?_ ?_
  · exact issues_access (.inr aborts.custody) ⟨rfl, .inl ⟨aborts.custody, fits⟩⟩
      aborts.owed (by simp)
  rintro _ _ rfl
  simp only [ReplayRequest.observed, List.append_nil, fits.stored]
  exact done

theorem turnOk_abort (keeps : Keeps inner writer account { page with custody := .shared })
    (begins : Begins shared page) :
    TurnOk codec inner .keeper true ⟨.writer writer account, .abort, shared⟩
      (turn ReplayWriter.abort writer (fun current => .writer current account.interrupted)
        fun outcome current => .writer current (account.returned outcome)) page := by
  apply turnOk_turn
  have held : page.custody.Holds := begins.custody
  obtain ⟨scratch, custody, seen, values⟩ := page.failed_rest
  have state : page.failed.published.state = .failed := Page.failed_state keeps.unsealed
  have owed : page.failed.published.owed = false := Page.failed_owed keeps.owed
  have appended : account.appended = page.failed.published.values :=
    keeps.appended.trans values.symm
  obtain ⟨guard, known, fits⟩ := keeps.cleanup
  have armed : shared.cleanup.bind AsyncCleanupGuard.dir = guard.dir := by
    rw [begins.cleanup, show page.scratch.cleanup = some guard from known]
    rfl
  replace known : page.failed.scratch.cleanup = some guard := by rwa [scratch]
  replace fits : Fits inner page.failed.scratch.progress guard := by rwa [scratch]
  unfold ReplayWriter.abort
  refine Method.wp_bind.mpr (Method.wp_get.mpr ?_)
  simp only [keeps.storage]
  refine Method.wp_bind.mpr (wp_fail held keeps.owed (Method.wp_bind.mpr (Method.wp_modify.mpr ?_)))
  have holds : page.failed.custody.Holds := custody ▸ held
  refine Method.wp_bind.mpr (wp_accessKeeper .exclusive holds.present ?_ ?_)
  · exact issues_access holds ⟨rfl, holds⟩ owed (by simp)
  rintro alone next (⟨rfl, isShared, rfl⟩ | ⟨rfl, rfl⟩)
  · refine Method.wp_throw.mpr ?_
    rw [Page.relaxed_eq]
    · refine ⟨⟨keeps.storage, isShared, ?_, keeps.seals, appended, owed, guard, known, fits⟩,
        ?_, ?_, ?_⟩
      · simp [state]
      · rintro _ ⟨⟩
        exact ⟨_, rfl⟩
      · intro writing
        simp [state] at writing
      · rintro _ ⟨⟩
        refine ⟨False.elim, fun _ _ => rfl, fun _ _ last => (by cases last),
          fun call => (by cases call), ?_,
          fun _ _ _ => .inl (List.mem_append_right _ (List.mem_singleton_self _))⟩
        intro _ _ last
        rw [custody, begins.sole last] at isShared
        cases isShared
    · exact isShared
  · have isSeen : page.failed.seen ++ [.exclusive true] = [.exclusive true] := by
      rw [seen, begins.seen]
      rfl
    simp only [ReplayRequest.observed]
    rw [isSeen]
    have aborts : ∀ scratch seen, Aborts inner { writer with writer := none } account
        { page.failed with custody := .sole, scratch, seen } :=
      fun _ _ => ⟨keeps.storage, rfl, state, keeps.seals, appended, owed⟩
    have sole : Custody.sole ≠ .away := by simp
    have only : ∀ seen ∈ [Seen.exclusive true], seen ≠ .exclusive false := by simp
    refine Method.wp_bind.mpr (wp_accessKeeper .lockCleanup sole ?_ ?_)
    · exact issues_access (.inr rfl) trivial owed (by simp)
    rintro guard' next ⟨known', rfl⟩
    obtain rfl := Option.some.inj (known.symm.trans known')
    simp only [ReplayRequest.observed, List.append_nil]
    have still : page.failed.scratch.progress.isArmed = true →
        shared.cleanup.bind AsyncCleanupGuard.dir = none → False := by
      intro isArmed free
      rw [armed, fits.dir, if_pos isArmed] at free
      cases free
    refine Method.wp_bind.mpr (Method.wp_attempt.mpr (wp_cleanup sole fits ?_ ?_ ?_ ?_ ?_))
    · intro isArmed
      refine ⟨⟨rfl, .inl rfl, isArmed⟩, fun isOwed => ?_, fun token same => (by cases same), ?_,
        fun reader => absurd rfl reader, fun taken => (by cases taken)⟩
      · exact absurd isOwed (by simp [owed])
      · intro _ _
        refine (aborts _ _).ownerOk known fits (by simp) only (by simp) ?_
        exact fun free => (still isArmed free).elim
    · intro charges isArmed
      refine ⟨⟨rfl, sole, rfl, rfl, .inl rfl⟩, fun isOwed => ?_,
        fun token same => (by cases same), ?_,
        fun reader => absurd rfl reader, fun taken => (by cases taken)⟩
      · exact absurd isOwed (by simp [Page.moves, owed])
      · intro _ _
        refine (aborts _ _).ownerOk known (fits.congr ?_) (by simp) only (by simp) ?_
        · exact isArmed.symm
        · exact fun free => (still isArmed free).elim
    · intro isFree
      refine Method.wp_bind.mpr (wp_storeCleanup (aborts _ _) fits ?_)
      refine (aborts _ _).ownerOk rfl fits (by simp) only ?_ fun _ => rfl
      exact fun _ => ⟨isFree, List.mem_singleton_self _⟩
    · intro error isArmed
      have removing : Fits inner (.removing : Progress Value) guard := fits.congr isArmed.symm
      refine Method.wp_bind.mpr (wp_storeCleanup (aborts _ _) removing ?_)
      refine (aborts _ _).ownerOk rfl removing ?_ ?_ (by simp) ?_
      · rintro _ ⟨⟩
        exact ⟨⟨_, rfl⟩, List.mem_append_right _ (List.mem_singleton_self _)⟩
      · simp
      · exact fun free => (still isArmed free).elim
    · intro guard' removed
      refine Method.wp_bind.mpr (wp_storeCleanup (aborts _ _) removed ?_)
      refine (aborts _ _).ownerOk rfl removed (by simp) ?_ ?_ fun _ => rfl
      · simp
      · exact fun _ => ⟨rfl, List.mem_append_left _ (List.mem_singleton_self _)⟩

end Aborts

section Keeper

variable {writer : ReplayWriter} {replay : Replay} {account : Account Value}
  {begun : Begun Value} {shared : ReplayShared}

theorem Accounts.ofOther (appends : ¬begun.call.Appends) (ends : ¬begun.call.Ends) :
    Accounts inner begun account page := by
  have other : begun.call ≠ .abort ∧ begun.call ≠ .close := by
    constructor
    · exact fun call => ends (by rw [call]; trivial)
    · exact fun call => ends (by rw [call]; trivial)
  exact ⟨fun call => absurd call appends, fun call => absurd call ends,
    fun call => absurd call other.1, fun call => absurd call other.2,
    fun call => absurd call other.1, fun call => absurd call ends⟩

theorem wp_releaseKeeper {Left : Type} {left : Left}
    {dropped : Left → ReplayOwner Value} {ok : Option AsyncCleanupGuard → Left → Page Value → Prop}
    {err : Abort → Left → Page Value → Prop} {cancellable : Bool}
    (shared : page.custody = .shared) (settled : page.published.owed = false)
    (others : ok none left { page with custody := .away })
    (last : ∀ guard, Fits inner page.scratch.progress guard →
      ok (some guard) left
        { page with custody := .taken, scratch := { page.scratch with cleanup := none } }) :
    (access .release : Async Unit Value Left _).wp (books codec inner .keeper)
      (fun left op page => Issues codec inner .keeper cancellable begun (dropped left) op page)
      ok err left page := by
  refine wp_accessKeeper .release (by simp [shared])
    (issues_access (.inl shared) shared settled (by simp)) ?_
  rintro reply next (⟨rfl, -, rfl⟩ | ⟨⟨guard, rfl, -, fits⟩, rfl⟩)
  · simp only [ReplayRequest.observed, List.append_nil]
    exact others
  · simp only [ReplayRequest.observed, List.append_nil]
    exact last guard fits

theorem ownerOk_released (closed : Closed account page) (sound : account.Sound)
    (accounts : Accounts inner begun account page) {taken : Option AsyncCleanupGuard}
    (gone : taken = none → page.custody = .away)
    (holds : ∀ guard ∈ taken, page.custody = .taken ∧ Fits inner page.scratch.progress guard) :
    OwnerOk inner .keeper (some begun) (ReplayOwner.released (some account) taken) page := by
  have told : ∀ call ∈ some begun, Accounts inner call account page := by
    rintro _ ⟨⟩
    exact accounts
  cases taken with
  | none =>
      have away := gone rfl
      exact ⟨closed, ⟨fun holds => holds.present away, by simp [away]⟩, sound, told⟩
  | some guard =>
      obtain ⟨custody, fits⟩ := holds guard rfl
      exact ⟨closed, custody, fits, sound, told⟩

theorem turnOk_dropWriter (keeps : Keeps inner writer account page) (sound : account.Sound)
    {owner : ReplayOwner Value} :
    TurnOk codec inner .keeper false ⟨owner, .drop, shared⟩
      (turn ReplayWriter.drop writer (fun current => .writer current account)
        fun outcome _ => ReplayOwner.released (some account)
            (outcome.toOption.getD none)) page := by
  apply turnOk_turn
  unfold ReplayWriter.drop
  refine Method.wp_bind.mpr (Method.wp_get.mpr ?_)
  simp only [keeps.storage]
  refine Method.wp_bind.mpr (wp_fail keeps.holds keeps.owed ?_)
  have kept := keeps.failed
  have state := Page.failed_state keeps.unsealed
  have closed : ∀ page' : Page Value, page'.published = page.failed.published →
      Closed account page' := by
    intro page' same
    refine ⟨?_, ?_, ?_, ?_, ?_⟩
    · simp [same, state]
    · simpa [same, state] using kept.seals
    · simp [same, state]
    · rw [same]
      exact kept.appended
    · rw [same]
      exact kept.owed
  have told : ∀ page', Accounts inner ⟨owner, .drop, shared⟩ account page' := fun _ =>
    .ofOther id id
  apply wp_releaseKeeper kept.custody kept.owed
  · refine ownerOk_released (closed _ ?_) sound (told _) (fun _ => rfl) ?_
    · rfl
    · rintro _ ⟨⟩
  · intro guard fits
    refine ownerOk_released (closed _ ?_) sound (told _) (fun none => (by cases none)) ?_
    · rfl
    · rintro _ ⟨⟩
      exact ⟨rfl, fits⟩

theorem turnOk_unwind (keeps : Keeps inner writer account page) (sound : account.Sound)
    {owner : ReplayOwner Value} :
    TurnOk codec inner .keeper false ⟨owner, .unwind, shared⟩
      (turn Publication.fail writer (fun current => .unwinding current account)
        fun _ current => .writer current account) page := by
  apply turnOk_turn
  refine wp_fail keeps.holds keeps.owed ?_
  have kept := keeps.failed
  rw [Page.relaxed_eq kept.custody]
  refine ⟨kept, sound, ?_, ?_⟩
  · intro writing
    rw [Page.failed_state keeps.unsealed] at writing
    cases writing
  · rintro _ ⟨⟩
    exact .ofOther id id

theorem Sealed.counted {last : Option (Except Abort Unit)}
    (ok : Sealed inner writer replay account page) (seen : List Seen) :
    Sealed inner writer replay { account with last } { page with seen } :=
  ⟨ok.writer, ok.storage, ok.custody, ok.state, ok.seals, ok.whole, ok.appended,
    ok.owed, ok.progress,
    ok.cleanup⟩

theorem Sealed.closed (ok : Sealed inner writer replay account page)
    (last : Option (Except Abort Unit)) {page' : Page Value}
    (same : page'.published = page.published) : Closed { account with last } page' := by
  refine ⟨?_, ?_, ?_, ?_, ?_⟩
  · simp [same, ok.state]
  · simpa [same, ok.state] using ok.seals
  · intro broken
    rw [ok.whole] at broken
    cases broken
  · rw [same]
    exact ok.appended
  · rw [same]
    exact ok.owed

/-- A writer that has sealed returns at once. -/
theorem turnOk_sealedWriter {label : ReplayCall Value} {Result : Type}
    {method : Async Unit Value ReplayWriter Result} {outcome : Except Abort Result}
    {dropped : ReplayWriter → ReplayOwner Value} {last : Except Abort Result → Except Abort Unit}
    {cancellable : Bool} (ok : Sealed inner writer replay account page) (fresh : page.seen = [])
    (atOnce : method writer = .done (outcome, writer))
    (sound : ∀ abort, last outcome = .error abort → ∃ error, abort = .error error)
    (refused : label.Appends → last outcome = .error (.error .sessionFailed))
    (ends : label.Ends → last outcome = .ok ()) (stays : label ≠ .close) :
    TurnOk codec inner .keeper cancellable ⟨.sealed writer replay account, label, shared⟩
      (turn method writer dropped fun outcome current =>
        .sealed current replay (account.returned (last outcome))) page := by
  unfold TurnOk turn
  rw [atOnce]
  change OwnerOk inner .keeper (some ⟨.sealed writer replay account, label, shared⟩)
    (.sealed writer replay (account.returned (last outcome))) page.relaxed
  rw [Page.relaxed_eq ok.custody]
  refine ⟨ok.counted page.seen, ?_, ?_⟩
  · intro abort same
    exact sound abort (Option.some.inj same)
  · rintro _ ⟨⟩
    constructor
    · exact fun appends _ => congrArg some (refused appends)
    · intro _ seen
      rw [fresh] at seen
      cases seen
    · exact fun _ writes => Bool.noConfusion writes
    · exact fun call => absurd call stays
    · exact fun _ writes => Bool.noConfusion writes
    · intro ending abort same
      cases (ends ending).symm.trans (Option.some.inj same)

theorem Accounts.ofClose {owner : ReplayOwner Value} {outcome : Option (Except Abort Unit)}
    (used : .exclusive false ∈ page.seen → outcome = some (.error (.error .replayInUse)))
    (closed : outcome = some (.ok ()) → page.custody = .taken ∧
      page.scratch.progress.isArmed = false ∧ .exclusive true ∈ page.seen)
    (stopped : ∀ abort, outcome = some (.error abort) →
      .exclusive false ∈ page.seen ∨ .performed (.removeDirAll inner.dir) false ∈ page.seen) :
    Accounts inner ⟨owner, .close, shared⟩ { account with last := outcome } page :=
  ⟨False.elim, fun _ => used, fun call => (by cases call), fun _ => closed,
    fun call => (by cases call), fun _ => stopped⟩

theorem Sealed.taken (ok : Sealed inner writer replay account page) {owner : ReplayOwner Value}
    {outcome : Option (Except Abort Unit)} {guard : AsyncCleanupGuard} {page' : Page Value}
    (same : page'.published = page.published) (custody : page'.custody = .taken)
    (fits : Fits inner page'.scratch.progress guard)
    (stopped : ∀ abort, outcome = some (.error abort) → (∃ error, abort = .error error) ∧
      .performed (.removeDirAll inner.dir) false ∈ page'.seen)
    (alone : ∀ seen ∈ page'.seen, seen ≠ .exclusive false)
    (ended : outcome = some (.ok ()) →
      page'.scratch.progress.isArmed = false ∧ .exclusive true ∈ page'.seen) :
    OwnerOk inner .keeper (some ⟨owner, .close, shared⟩)
      (.left guard (some { account with last := outcome })) page' := by
  refine ⟨ok.closed outcome same, custody, fits, fun abort last => (stopped abort last).1, ?_⟩
  rintro _ ⟨⟩
  apply Accounts.ofClose
  · exact fun seen => absurd rfl (alone _ seen)
  · exact fun last => ⟨custody, ended last⟩
  · exact fun abort last => .inr (stopped abort last).2

theorem turnOk_close (ok : Sealed inner writer replay account page) (fresh : page.seen = []) :
    TurnOk codec inner .keeper true ⟨.sealed writer replay account, .close, shared⟩
      (turn Replay.close none (ReplayOwner.released (some account.interrupted))
        fun outcome => ReplayOwner.released (some (account.returned outcome))) page := by
  apply turnOk_turn
  have held : page.custody ≠ .away := by simp [ok.custody]
  unfold Replay.close
  refine Method.wp_bind.mpr (wp_accessKeeper .unwrap held ?_ ?_)
  · exact issues_access (.inl ok.custody) ok.custody ok.owed (by simp)
  rintro taken next (⟨rfl, -, rfl⟩ | ⟨⟨guard, rfl, -, fits⟩, rfl⟩)
  · simp only [ReplayRequest.observed]
    have used : ∀ {performed : Prop} (abort : Abort),
        some (Except.error (.error .replayInUse)) = some (Except.error abort : Except Abort Unit) →
          .exclusive false ∈ next.seen ++ [.exclusive false] ∨ performed :=
      fun _ _ => .inl (List.mem_append_right _ (List.mem_singleton_self _))
    refine Method.wp_bind.mpr (wp_releaseKeeper ok.custody ok.owed ?_ ?_)
    · refine Method.wp_bind.mpr (Method.wp_set.mpr (Method.wp_throw.mpr ?_))
      refine ownerOk_released (ok.closed _ ?_) ?_ (.ofClose (fun _ => rfl) (by simp) used)
        (fun _ => rfl) ?_
      · rfl
      · rintro _ ⟨⟩
        exact ⟨_, rfl⟩
      · rintro _ ⟨⟩
    · intro guard fits
      refine Method.wp_bind.mpr (Method.wp_set.mpr (Method.wp_throw.mpr ?_))
      refine ownerOk_released (ok.closed _ ?_) ?_
        (.ofClose (fun _ => rfl) (by simp) used) (by simp) ?_
      · rfl
      · rintro _ ⟨⟩
        exact ⟨_, rfl⟩
      · rintro _ ⟨⟩
        exact ⟨rfl, fits⟩
  · simp only [ReplayRequest.observed, Option.isSome_some, fresh, List.nil_append]
    have taken : Custody.taken ≠ .away := by simp
    have only : ∀ seen ∈ [Seen.exclusive true], seen ≠ .exclusive false := by simp
    have also : ∀ removed, ∀ seen ∈ [Seen.exclusive true] ++
        [.performed (.removeDirAll inner.dir) removed], seen ≠ .exclusive false := by simp
    refine Method.wp_bind.mpr (Method.wp_set.mpr (Method.wp_within.mpr
      (wp_cleanup taken fits ?_ ?_ ?_ ?_ ?_)))
    · intro isArmed
      refine ⟨⟨rfl, .inr rfl, isArmed⟩, fun isOwed => ?_, fun token same => (by cases same), ?_,
        fun reader => absurd rfl reader, fun _ => ⟨guard, _, rfl, fits⟩⟩
      · exact absurd isOwed (by simp [ok.owed])
      · intro _ _
        refine ok.taken ?_ ?_ fits (by simp) only (by simp)
        · rfl
        · rfl
    · intro charges isArmed
      refine ⟨⟨rfl, taken, rfl, rfl, .inr rfl⟩, fun isOwed => ?_,
        fun token same => (by cases same), ?_,
        fun reader => absurd rfl reader, fun _ => ⟨guard, _, rfl, fits.congr isArmed.symm⟩⟩
      · exact absurd isOwed (by simp [Page.moves, ok.owed])
      · intro _ _
        refine ok.taken ?_ ?_ (fits.congr ?_) (by simp) only (by simp)
        · rfl
        · rfl
        · exact isArmed.symm
    · intro isFree
      refine ok.taken ?_ ?_ fits (by simp) only fun _ => ⟨isFree, List.mem_singleton_self _⟩
      · rfl
      · rfl
    · intro error isArmed
      refine ok.taken ?_ ?_ (fits.congr ?_) ?_ (also _) (by simp)
      · rfl
      · rfl
      · exact isArmed.symm
      · rintro _ ⟨⟩
        exact ⟨⟨_, rfl⟩, List.mem_append_right _ (List.mem_singleton_self _)⟩
    · intro guard' removed
      refine ok.taken ?_ ?_ removed (by simp) (also _) ?_
      · rfl
      · rfl
      · exact fun _ => ⟨rfl, List.mem_append_left _ (List.mem_singleton_self _)⟩

theorem turnOk_dropSealed (ok : Sealed inner writer replay account page) (sound : account.Sound)
    {owner : ReplayOwner Value} :
    TurnOk codec inner .keeper false ⟨owner, .drop, shared⟩ (ReplayOwner.dropTurn (some account))
      page := by
  apply turnOk_turn
  have told : ∀ page', Accounts inner ⟨owner, .drop, shared⟩ account page' := fun _ =>
    .ofOther id id
  apply wp_releaseKeeper ok.custody ok.owed
  · refine ownerOk_released (ok.closed _ ?_) sound (told _) (fun _ => rfl) ?_
    · rfl
    · rintro _ ⟨⟩
  · intro guard fits
    refine ownerOk_released (ok.closed _ ?_) sound (told _) (fun none => (by cases none)) ?_
    · rfl
    · rintro _ ⟨⟩
      exact ⟨rfl, fits⟩

theorem turnOk_cleanupKeeper {guard : AsyncCleanupGuard} {owner : ReplayOwner Value}
    (nothing : owner.cursor? = none) (closed : Closed account page) (sound : account.Sound)
    (taken : page.custody = .taken) (fits : Fits inner page.scratch.progress guard) :
    TurnOk codec inner .keeper false ⟨owner, .cleanup, shared⟩
      (turn (AsyncCleanupGuard.dropTask guard) () (fun _ => .left guard (some account))
        fun _ _ => .gone (some account)) page := by
  apply turnOk_turn
  refine Method.wp_post (wp_dropTask nothing taken fits fun _ => closed.owed) ?_ ?_
  · rintro _ _ next ⟨custody, gone, same⟩
    have still : next.published = page.published := same rfl
    rw [Page.relaxed_taken custody]
    refine ⟨closed.of_published still, gone, sound, ?_⟩
    rintro _ ⟨⟩
    exact .ofOther id id
  · exact fun _ _ _ never => never.elim

end Keeper

/-- The page a call begins with.  A writer that aborts with the only reference
knows that it is alone. -/
def Page.calls (page : Page Value) : ReplayOwner Value → ReplayCall Value →
    ReplayShared → Page Value
  | .writer .., .abort, shared =>
      { page with custody := if shared.handles = 1 then .sole else page.custody, seen := [] }
  | _, _, _ => { page with seen := [] }

section Calls

variable [Layout Unit Value] {owner : ReplayOwner Value} {label : ReplayCall Value}
  {cancellable : Bool} {turn : Turn Unit Value (ReplayOwner Value)} {shared : ReplayShared}
  {before : Option (Begun Value)}

theorem turnOk_keeper (ok : OwnerOk inner .keeper before owner page)
    (called : owner.call label = some (cancellable, turn))
    (state : shared.state = page.published.state)
    (cleanup : shared.cleanup = page.scratch.cleanup) :
    TurnOk codec inner .keeper cancellable ⟨owner, label, shared⟩ turn
      (page.calls owner label shared) := by
  cases owner with
  | writer writer account =>
      obtain ⟨keeps, sound, may, -⟩ := ok
      have kept := keeps.noted page.encoded []
      have may' : page.published.state = .writing → account.broken = false ∧
          Prepared inner writer { page with seen := [] } := by
        intro writing
        obtain ⟨fine, prepared⟩ := may writing
        exact ⟨fine, prepared.rows, prepared.busy, prepared.file⟩
      cases label with
      | append value bytes =>
          cases called
          exact turnOk_append value bytes kept may' state
      | «seal» =>
          cases called
          exact turnOk_seal kept may' state
      | abort =>
          cases called
          apply turnOk_abort
          · exact ⟨keeps.storage, rfl, keeps.unsealed, keeps.seals, keeps.appended, keeps.owed,
              keeps.cleanup⟩
          · refine ⟨?_, fun alone => if_pos alone, cleanup, rfl⟩
            by_cases alone : shared.handles = 1
            · exact .inr (if_pos alone)
            · exact .inl ((if_neg alone).trans keeps.custody)
      | drop =>
          cases called
          exact turnOk_dropWriter kept sound
      | _ => cases called
  | unwinding writer account =>
      obtain ⟨keeps, broken, last⟩ := ok
      cases label with
      | unwind =>
          cases called
          apply turnOk_unwind (keeps.noted page.encoded [])
          intro abort same
          rw [last] at same
          cases same
      | _ => cases called
  | «sealed» writer replay account =>
      obtain ⟨ok, sound, -⟩ := ok
      have still : Sealed inner writer replay account { page with seen := [] } :=
        ok.counted []
      have refused : ∀ {abort : Abort}, (Except.error (.error .sessionFailed) : Except Abort Unit) =
          .error abort → ∃ error, abort = .error error := by
        rintro _ ⟨⟩
        exact ⟨_, rfl⟩
      cases label with
      | append value bytes =>
          cases called
          have atOnce : (ReplayWriter.appendWithSize value bytes : Async Unit Value _ _) writer =
              .done (.error (.error .sessionFailed), writer) := by
            cases writer
            cases ok.writer
            rfl
          apply @turnOk_sealedWriter _ _ _ _ _ _ _ _ _ _ _ _ _ id _ still rfl atOnce
          · exact fun _ => refused
          · exact fun _ => rfl
          · exact False.elim
          · simp
      | «seal» =>
          cases called
          have atOnce : (ReplayWriter.seal : Async Unit Value _ _) writer =
              .done (.error (.error .sessionFailed), writer) := by
            cases writer
            cases ok.writer
            rfl
          apply @turnOk_sealedWriter _ _ _ _ _ _ _ _ _ _ _ _ _ (Except.map fun _ => ()) _ still rfl
            atOnce
          · exact fun _ => refused
          · exact fun _ => rfl
          · exact False.elim
          · simp
      | abort =>
          cases called
          have atOnce : (ReplayWriter.abort : Async Unit Value _ _) writer =
              .done (.ok (), writer) := by
            cases writer
            cases ok.writer
            rfl
          apply @turnOk_sealedWriter _ _ _ _ _ _ _ _ _ _ _ _ _ id _ still rfl atOnce
          · exact fun _ same => (by cases same)
          · exact False.elim
          · exact fun _ => rfl
          · simp
      | close =>
          cases called
          exact turnOk_close still rfl
      | drop =>
          cases called
          exact turnOk_dropSealed still sound
      | _ => cases called
  | left guard account =>
      cases account with
      | none => cases ok
      | some account =>
          obtain ⟨closed, taken, fits, sound, -⟩ := ok
          cases label with
          | cleanup =>
              cases called
              have still : Closed account { page with seen := [] } := closed.of_published rfl
              exact turnOk_cleanupKeeper rfl still sound taken fits
          | _ => cases called
  | gone account => cases label <;> cases called
  | cursor | waiting => cases ok

end Calls

end SortGovernor.Runtime
