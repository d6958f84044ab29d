import SortGovernor.Runtime.Flights
import Mathlib.Data.Finset.Card

/-!
# The books against the runtime

The shared state of a replay shows what its books record, the references are
counted by their holders, and whoever is alone with the directory is the only one
to change it.  Every request the books permit is answered as they say, and leaves
the others' pages as they may rely on.
-/

namespace SortGovernor.Runtime

open SortGovernor.Engine SortGovernor.Resumption

variable {Value : Type}

/-- The pages of all parties, in one piece. -/
structure Books (Value : Type) where
  published : Published Value
  scratch : Scratch Value
  custody : Party → Custody
  encoded : Party → Option (RunRow Unit Value × Serialization)

namespace Books

def page (books : Books Value) (party : Party) (seen : List Seen) : Page Value where
  published := books.published
  scratch := books.scratch
  custody := books.custody party
  encoded := books.encoded party
  seen

def set (books : Books Value) (party : Party) (page : Page Value) : Books Value where
  published := page.published
  scratch := page.scratch
  custody := Function.update books.custody party page.custody
  encoded := Function.update books.encoded party page.encoded

variable {books : Books Value} {party other : Party} {page : Page Value} {seen : List Seen}

@[simp]
theorem page_set : (books.set party page).page party seen = { page with seen } := by
  simp [set, Books.page]

@[simp]
theorem custody_set : (books.set party page).custody party = page.custody := by
  simp [set]

theorem custody_set_ne (different : other ≠ party) :
    (books.set party page).custody other = books.custody other := by
  simp [set, different]

theorem encoded_set_ne (different : other ≠ party) :
    (books.set party page).encoded other = books.encoded other := by
  simp [set, different]

theorem set_page : books.set party (books.page party seen) = books := by
  simp [set, Books.page]

end Books

/-- The shared state shows the books. -/
structure Shares (books : Books Value) (shared : ReplayShared) : Prop where
  state : shared.state = books.published.state
  rows : shared.rows = books.published.rows.length
  notices : shared.notices = books.published.notices
  cleanup : shared.cleanup = books.scratch.cleanup
  handles : ∃ holders : Finset Party, (∀ party, party ∈ holders ↔ (books.custody party).Holds) ∧
    shared.handles = holders.card

/-- A scratch owner that is responsible for the directory. -/
def Arms (inner : ReplayInner) (guard : AsyncCleanupGuard) : Prop :=
  guard.dir = some inner.dir ∧ guard.reservation.isSome = true

theorem Fits.arms {inner : ReplayInner} {progress : Progress Value} {guard : AsyncCleanupGuard}
    (fits : Fits inner progress guard) (armed : progress.isArmed = true) : Arms inner guard :=
  ⟨by rw [fits.dir, if_pos armed], fits.reservation.trans armed⟩

/-- The books agree with themselves. -/
structure Balanced (codec : Codec Unit Value) (inner : ReplayInner) (books : Books Value) : Prop
    where
  alone : ∀ party, books.custody party = .sole ∨ books.custody party = .taken →
    ∀ other, other ≠ party → books.custody other = .away
  readers : ∀ number, books.custody (.reader number) ≠ .sole
  cleanup : ∀ party, books.custody party = .shared → ∃ guard,
    books.scratch.cleanup = some guard ∧ Fits inner books.scratch.progress guard
  armed : ∀ party, books.custody party = .sole → books.scratch.progress.isArmed = true →
    ∃ guard, books.scratch.cleanup = some guard ∧ Arms inner guard
  live : books.scratch.progress.isSpent = true → ∀ number, books.custody (.reader number) ≠ .shared
  heir : (∀ party, ¬(books.custody party).Holds) → ∃ party, books.custody party = .taken
  rows : books.published.rows ≠ [] →
    books.scratch.progress.isReadable = true ∨ books.scratch.progress.isSpent = true
  valid : ∀ row ∈ books.published.rows, row.Valid codec
  next : ∀ row, books.scratch.progress = .appending row ∨ books.scratch.progress = .appended row →
    row.Valid codec

/-- The shared state, the books and the operations agree. -/
structure Agree (codec : Codec Unit Value) (inner : ReplayInner) (first : Fs) (books : Books Value)
    (world : World ReplayShared) (flights : List (Operation Party)) : Prop where
  shares : Shares books world.shared
  balanced : Balanced codec inner books
  flights : Flights codec inner first books.scratch books.published.rows world.fs flights

section Rely

variable {codec : Codec Unit Value} {inner : ReplayInner} {books : Books Value}
  {party other : Party} {page : Page Value} {seen : List Seen}

theorem Page.Rules.held {page : Page Value} (rules : page.Rules party) : page.custody ≠ .away := by
  obtain ⟨-, held⟩ | sole | taken := rules
  · exact held
  · simp [sole]
  · simp [taken]

theorem Balanced.ruler (balanced : Balanced codec inner books)
    (rules : (books.page party seen).Rules party) (different : other ≠ party) (seen' : List Seen) :
    ¬(books.page other seen').Rules other := by
  intro rules'
  obtain ⟨rfl, away⟩ | alone := rules
  · obtain ⟨same, -⟩ | alone := rules'
    · exact different same
    · exact away (balanced.alone other alone .keeper different.symm)
  · exact rules'.held (balanced.alone party alone other different)

theorem Balanced.rely (balanced : Balanced codec inner books) (different : other ≠ party)
    (published : party ≠ .keeper → page.published = books.published)
    (grows : books.published.Grows page.published)
    (scratch : page.scratch ≠ books.scratch → ∃ seen, (books.page party seen).Rules party ∨
      ∀ other, other ≠ party → books.custody other = .away) (seen : List Seen) :
    (books.page other seen).Rely other ((books.set party page).page other seen) where
  custody := Books.custody_set_ne different
  encoded := Books.encoded_set_ne different
  seen := rfl
  published keeper := published (by rw [← keeper]; exact different.symm)
  grows := grows
  scratch rules := by
    by_contra changed
    obtain ⟨seen', rules' | away⟩ := scratch changed
    · exact balanced.ruler rules' different seen rules
    · exact rules.held (away other different)

theorem Agree.sole {first : Fs} {world : World ReplayShared} {flights : List (Operation Party)}
    (agree : Agree codec inner first books world flights) (one : world.shared.handles = 1)
    (holds : (books.custody party).Holds) :
    ∀ other, other ≠ party → books.custody other = .away := by
  intro other different
  obtain ⟨holders, known, count⟩ := agree.shares.handles
  obtain ⟨only, isOnly⟩ := Finset.card_eq_one.mp (count.symm.trans one)
  have notHolds : ¬(books.custody other).Holds := by
    intro otherHolds
    have first := (known party).mpr holds
    have second := (known other).mpr otherHolds
    rw [isOnly, Finset.mem_singleton] at first second
    exact different (second.trans first.symm)
  cases custody : books.custody other with
  | away => rfl
  | shared => exact absurd (.inl custody) notHolds
  | sole => exact absurd (.inr custody) notHolds
  | taken =>
      have away := agree.balanced.alone other (.inr custody) party different.symm
      rw [away] at holds
      exact absurd holds (by simp [Custody.Holds])

end Rely

/-- What the books never take back. -/
structure Onward (before after : Books Value) : Prop where
  grows : before.published.Grows after.published
  removed : before.scratch.progress = .removed → after.scratch.progress = .removed
  unarmed : before.scratch.progress = .unarmed → before.published.state ≠ .writing →
    after.scratch.progress = .unarmed

/-- A party's page changes: all still agree, and the others may rely on it. -/
structure Turns (codec : Codec Unit Value) (inner : ReplayInner) (first : Fs) (books : Books Value)
    (party : Party) (page : Page Value) (world : World ReplayShared)
    (flights : List (Operation Party)) : Prop where
  agree : Agree codec inner first (books.set party page) world flights
  rely : ∀ other, other ≠ party → ∀ seen,
    (books.page other seen).Rely other ((books.set party page).page other seen)
  onward : Onward books (books.set party page)
  away : books.custody party = .away → page.custody = .away

section Requests

variable {codec : Codec Unit Value} {inner : ReplayInner} {first : Fs} {books : Books Value}
  {world next : World ReplayShared} {flights : List (Operation Party)} {party : Party}
  {page : Page Value} {seen : List Seen}

theorem Agree.encoded (agree : Agree codec inner first books world flights)
    (encoded : Party → Option (RunRow Unit Value × Serialization)) :
    Agree codec inner first { books with encoded } world flights := by
  obtain ⟨shares, balanced, flights⟩ := agree
  exact ⟨⟨shares.state, shares.rows, shares.notices, shares.cleanup, shares.handles⟩,
    ⟨balanced.alone, balanced.readers, balanced.cleanup, balanced.armed, balanced.live,
      balanced.heir,
      balanced.rows, balanced.valid, balanced.next⟩, flights⟩

theorem Onward.of_eq {after : Books Value} (published : after.published = books.published)
    (scratch : after.scratch = books.scratch) : Onward books after where
  grows := by
    rw [published]
    exact .refl _
  removed := by
    rw [scratch]
    exact id
  unarmed unarmed _ := by
    rw [scratch]
    exact unarmed

theorem Agree.looks (agree : Agree codec inner first books world flights)
    (published : page.published = books.published) (scratch : page.scratch = books.scratch)
    (custody : page.custody = books.custody party) :
    Turns codec inner first books party page world flights := by
  have same : books.set party page = { books with encoded := (books.set party page).encoded } := by
    rw [Books.set, published, scratch, custody, Function.update_eq_self]
  constructor
  · rw [same]
    exact agree.encoded _
  · intro other different seen
    apply agree.balanced.rely different (fun _ => published)
    · rw [published]
      exact .refl _
    · exact fun changed => absurd scratch changed
  · exact .of_eq published scratch
  · exact custody.trans

/-- A party that publishes. -/
theorem Agree.publishes (agree : Agree codec inner first books world flights)
    {published : Published Value} {shared : ReplayShared} (keeper : party = .keeper)
    (grows : books.published.Grows published) (rows : published.rows = books.published.rows)
    (state : shared.state = published.state) (notices : shared.notices = published.notices)
    (same : shared.rows = world.shared.rows ∧ shared.handles = world.shared.handles ∧
      shared.cleanup = world.shared.cleanup) :
    Turns codec inner first books party { books.page party seen with published }
      { world with shared } flights := by
  obtain ⟨shares, balanced, operations⟩ := agree
  have custodies : (books.set party { books.page party seen with published }).custody =
      books.custody := Function.update_eq_self ..
  constructor
  · constructor
    · refine ⟨state, ?_, notices, same.2.2.trans shares.cleanup, ?_⟩
      · rw [same.1, shares.rows]
        exact congrArg List.length rows.symm
      · rw [custodies, same.2.1]
        exact shares.handles
    · constructor
      · rw [custodies]
        exact balanced.alone
      · rw [custodies]
        exact balanced.readers
      · rw [custodies]
        exact balanced.cleanup
      · rw [custodies]
        exact balanced.armed
      · rw [custodies]
        exact balanced.live
      · rw [custodies]
        exact balanced.heir
      · exact fun some => balanced.rows (rows ▸ some)
      · exact fun row member => balanced.valid row (rows ▸ member)
      · exact balanced.next
    · change Flights codec inner first books.scratch published.rows world.fs flights
      rw [rows]
      exact operations
  · intro other different seen
    apply balanced.rely different
    · exact fun other => absurd keeper other
    · exact grows
    · exact fun changed => absurd rfl changed
  · exact ⟨grows, id, fun unarmed _ => unarmed⟩
  · exact id

/-- A complete row is published. -/
theorem Agree.storesRow (agree : Agree codec inner first books world flights)
    {row : Committed Value} (keeper : party = .keeper) (held : books.custody party ≠ .away)
    (writing : books.published.state = .writing)
    (appended : books.scratch.progress = .appended row) :
    Turns codec inner first books party { books.page party seen with
        published := { books.published with rows := books.published.rows ++ [row], owed := true }
        scratch := { books.scratch with progress := .ready } }
      { world with shared := { world.shared with rows := books.published.rows.length + 1 } }
      flights := by
  obtain ⟨shares, balanced, operations⟩ := agree
  have custodies : ∀ published scratch, (books.set party { books.page party seen with
      published, scratch }).custody = books.custody := fun _ _ => Function.update_eq_self ..
  have settled := operations.settled (by rw [appended]; rfl)
  have valid := balanced.next row (.inr appended)
  have grows : books.published.Grows
      { books.published with rows := books.published.rows ++ [row], owed := true } :=
    ⟨fun ended => absurd writing ended, fun ended => absurd writing ended, List.prefix_append ..,
      Nat.le_refl _, fun _ => .inl rfl⟩
  constructor
  · constructor
    · refine ⟨shares.state, ?_, shares.notices, shares.cleanup, ?_⟩
      · simp [Books.set]
      · rw [custodies]
        exact shares.handles
    · constructor
      · rw [custodies]
        exact balanced.alone
      · rw [custodies]
        exact balanced.readers
      · rw [custodies]
        intro party shared
        obtain ⟨guard, known, fits⟩ := balanced.cleanup party shared
        exact ⟨guard, known, fits.congr (by rw [appended]; rfl)⟩
      · rw [custodies]
        exact fun party sole _ => balanced.armed party sole (by rw [appended]; rfl)
      · exact fun spent => Bool.noConfusion spent
      · rw [custodies]
        exact balanced.heir
      · exact fun _ => .inl rfl
      · intro other member
        obtain member | member := List.mem_append.mp member
        · exact balanced.valid other member
        · obtain rfl := List.mem_singleton.mp member
          exact valid
      · rintro other (⟨⟨⟩⟩ | ⟨⟨⟩⟩)
    · obtain ⟨dirs, header, eight, content⟩ :
          world.fs.dirs inner.dir = true ∧ RowsFile books.published.rows row.frame
            (world.fs.files inner.path) := by
        have stands := operations.stands
        rwa [appended] at stands
      apply operations.turn (operations.quiet settled) grows.rows
      · exact fun _ _ => rfl
      · exact fun spent => Bool.noConfusion spent
      · exact fun unarmed => by cases unarmed
      · exact fun _ => settled
      · refine ⟨dirs, header, eight, ?_⟩
        rw [content, framesOf_append, List.append_nil]
        simp [framesOf]
  · intro other different seen
    apply balanced.rely different
    · exact fun other => absurd keeper other
    · exact grows
    · exact fun _ => ⟨[], .inl (.inl ⟨keeper, held⟩)⟩
  · refine ⟨grows, fun removed => ?_, fun unarmed => ?_⟩
    · rw [appended] at removed
      cases removed
    · rw [appended] at unarmed
      cases unarmed
  · exact id

/-- The last reference goes, and its party is left with the scratch owner. -/
theorem Agree.takes (agree : Agree codec inner first books world flights)
    (held : books.custody party = .shared) (one : world.shared.handles = 1) :
    Turns codec inner first books party { books.page party seen with
        custody := .taken, scratch := { books.scratch with cleanup := none } }
      { world with shared := { world.shared with handles := 0, cleanup := none } } flights := by
  have away := agree.sole one (.inl held)
  obtain ⟨shares, balanced, operations⟩ := agree
  have taken : ∀ page : Page Value, page.custody = .taken → ∀ other,
      (books.set party page).custody other = if other = party then .taken else .away := by
    intro page same other
    by_cases equal : other = party
    · rw [if_pos equal, equal, Books.custody_set, same]
    · rw [if_neg equal, Books.custody_set_ne equal, away other equal]
  replace taken := taken { books.page party seen with
    custody := .taken, scratch := { books.scratch with cleanup := none } } rfl
  have never : ∀ other, ¬((if other = party then Custody.taken else .away).Holds) := by
    intro other
    split <;> simp [Custody.Holds]
  constructor
  · constructor
    · refine ⟨shares.state, shares.rows, shares.notices, rfl, ∅, ?_, rfl⟩
      intro other
      rw [taken]
      exact ⟨fun member => absurd member (Finset.notMem_empty _),
        fun holds => absurd holds (never _)⟩
    · constructor
      · intro one alone other different
        rw [taken] at alone ⊢
        rw [if_neg]
        rintro rfl
        rw [if_neg different.symm] at alone
        simp at alone
      · intro number
        rw [taken]
        split <;> simp
      · intro other shared
        rw [taken] at shared
        exact absurd (.inl shared) (never other)
      · intro other sole
        rw [taken] at sole
        exact absurd (.inr sole) (never other)
      · intro _ number
        rw [taken]
        exact fun shared => never _ (.inl shared)
      · exact fun _ => ⟨party, by rw [taken, if_pos rfl]⟩
      · exact balanced.rows
      · exact balanced.valid
      · exact balanced.next
    · apply operations.congr
      · rfl
      · rfl
  · intro other different seen
    apply balanced.rely different
    · exact fun _ => rfl
    · exact .refl _
    · exact fun _ => ⟨[], .inr away⟩
  · exact ⟨.refl _, id, fun unarmed _ => unarmed⟩
  · rw [held]
    exact fun away => by cases away

/-- A reference goes while others are left. -/
theorem Agree.leaves (agree : Agree codec inner first books world flights)
    (held : books.custody party = .shared) (several : world.shared.handles ≠ 1) :
    Turns codec inner first books party { books.page party seen with custody := .away }
      { world with shared := { world.shared with handles := world.shared.handles - 1 } }
        flights := by
  obtain ⟨shares, balanced, operations⟩ := agree
  obtain ⟨holders, known, count⟩ := shares.handles
  have member : party ∈ holders := (known party).mpr (.inl held)
  have others : ∀ other, (books.set party { books.page party seen with custody := .away }).custody
      other = if other = party then .away else books.custody other := by
    intro other
    by_cases equal : other = party
    · rw [if_pos equal, equal, Books.custody_set]
    · rw [if_neg equal, Books.custody_set_ne equal]
  constructor
  · constructor
    · refine ⟨shares.state, shares.rows, shares.notices, shares.cleanup,
        holders.erase party, ?_, ?_⟩
      · intro other
        rw [others, Finset.mem_erase, known]
        by_cases equal : other = party
        · simp [equal, Custody.Holds]
        · simp [equal]
      · rw [Finset.card_erase_of_mem member, ← count]
    · constructor
      · intro one alone other different
        rw [others] at alone ⊢
        by_cases equal : one = party
        · simp [equal] at alone
        · rw [if_neg equal] at alone
          rw [balanced.alone one alone other different, ite_self]
      · intro number
        rw [others]
        split
        · simp
        · exact balanced.readers number
      · intro other shared
        rw [others] at shared
        by_cases equal : other = party
        · simp [equal] at shared
        · rw [if_neg equal] at shared
          exact balanced.cleanup other shared
      · intro other sole
        rw [others] at sole
        by_cases equal : other = party
        · simp [equal] at sole
        · rw [if_neg equal] at sole
          exact balanced.armed other sole
      · intro spent number
        rw [others]
        split
        · simp
        · exact balanced.live spent number
      · intro none
        have single : holders = {party} := by
          refine Finset.eq_singleton_iff_unique_mem.mpr ⟨member, ?_⟩
          intro other holds
          by_contra different
          apply none other
          rw [others, if_neg different]
          exact (known other).mp holds
        rw [single, Finset.card_singleton] at count
        exact absurd count several
      · exact balanced.rows
      · exact balanced.valid
      · exact balanced.next
    · exact operations
  · intro other different seen
    apply balanced.rely different
    · exact fun _ => rfl
    · exact .refl _
    · exact fun changed => absurd rfl changed
  · exact ⟨.refl _, id, fun unarmed _ => unarmed⟩
  · exact fun _ => rfl

/-- A holder changes what it knows of its own reference: that it is the only
one, or no longer that. -/
theorem Agree.relearns (agree : Agree codec inner first books world flights) {custody : Custody}
    (holds : (books.custody party).Holds) (held : custody.Holds)
    (sole : custody = .sole → party = .keeper ∧
      ∀ other, other ≠ party → books.custody other = .away)
    (shared : custody = .shared → (∃ guard, books.scratch.cleanup = some guard ∧
      Fits inner books.scratch.progress guard) ∧
      (books.scratch.progress.isSpent = true → party = .keeper)) :
    Turns codec inner first books party { books.page party seen with custody } world flights := by
  obtain ⟨shares, balanced, operations⟩ := agree
  obtain ⟨holders, known, count⟩ := shares.handles
  have others : ∀ other, (books.set party { books.page party seen with custody }).custody other =
      if other = party then custody else books.custody other := by
    intro other
    by_cases equal : other = party
    · rw [if_pos equal, equal, Books.custody_set]
    · rw [if_neg equal, Books.custody_set_ne equal]
  constructor
  · constructor
    · refine ⟨shares.state, shares.rows, shares.notices, shares.cleanup, holders, ?_, count⟩
      intro other
      rw [others, known]
      by_cases equal : other = party
      · simp [equal, held, holds]
      · simp [equal]
    · constructor
      · intro one alone other different
        rw [others] at alone ⊢
        by_cases equal : one = party
        · rw [if_pos equal] at alone
          rw [if_neg (by rw [← equal]; exact different)]
          obtain isSole | taken := alone
          · exact (sole isSole).2 other (by rw [← equal]; exact different)
          · rw [taken] at held
            exact absurd held (by simp [Custody.Holds])
        · rw [if_neg equal] at alone
          have away := balanced.alone one alone party (Ne.symm equal)
          rw [away] at holds
          exact absurd holds (by simp [Custody.Holds])
      · intro number
        rw [others]
        by_cases equal : Party.reader number = party
        · rw [if_pos equal]
          intro isSole
          cases equal.trans (sole isSole).1
        · rw [if_neg equal]
          exact balanced.readers number
      · intro other isShared
        rw [others] at isShared
        by_cases equal : other = party
        · rw [if_pos equal] at isShared
          exact (shared isShared).1
        · rw [if_neg equal] at isShared
          exact balanced.cleanup other isShared
      · intro other isSole armed
        rw [others] at isSole
        by_cases equal : other = party
        · obtain shared | sole := holds
          · obtain ⟨guard, known, fits⟩ := balanced.cleanup party shared
            exact ⟨guard, known, fits.arms armed⟩
          · exact balanced.armed party sole armed
        · rw [if_neg equal] at isSole
          exact balanced.armed other isSole armed
      · intro spent number
        rw [others]
        by_cases equal : Party.reader number = party
        · rw [if_pos equal]
          intro isShared
          cases equal.trans ((shared isShared).2 spent)
        · rw [if_neg equal]
          exact balanced.live spent number
      · intro none
        refine absurd ?_ (none party)
        rw [others, if_pos rfl]
        exact held
      · exact balanced.rows
      · exact balanced.valid
      · exact balanced.next
    · exact operations
  · intro other different seen
    apply balanced.rely different
    · exact fun _ => rfl
    · exact .refl _
    · exact fun changed => absurd rfl changed
  · exact ⟨.refl _, id, fun unarmed _ => unarmed⟩
  · intro away
    rw [away] at holds
    exact absurd holds (by simp [Custody.Holds])

/-- The scratch owner is put back, or takes the directory for the first time. -/
theorem Agree.stores (agree : Agree codec inner first books world flights)
    {guard : AsyncCleanupGuard} {progress : Progress Value} (keeper : party = .keeper)
    (held : books.custody party ≠ .away) (fits : Fits inner progress guard)
    (moves : progress = books.scratch.progress ∨ progress = .armed ∧
      books.scratch.progress = .unarmed ∧ books.published.state = .writing) :
    Turns codec inner first books party { books.page party seen with
        scratch := { books.scratch with cleanup := some guard, progress } }
      { world with shared := { world.shared with cleanup := some guard } } flights := by
  obtain ⟨shares, balanced, operations⟩ := agree
  have custodies : ∀ scratch, (books.set party { books.page party seen with scratch }).custody =
      books.custody := fun _ => Function.update_eq_self ..
  have spent : progress.isSpent = true → books.scratch.progress.isSpent = true := by
    obtain rfl | ⟨rfl, -⟩ := moves
    · exact id
    · exact fun spent => Bool.noConfusion spent
  constructor
  · constructor
    · refine ⟨shares.state, shares.rows, shares.notices, rfl, ?_⟩
      rw [custodies]
      exact shares.handles
    · constructor
      · rw [custodies]
        exact balanced.alone
      · rw [custodies]
        exact balanced.readers
      · exact fun _ _ => ⟨guard, rfl, fits⟩
      · exact fun _ _ armed => ⟨guard, rfl, fits.arms armed⟩
      · rw [custodies]
        exact fun isSpent => balanced.live (spent isSpent)
      · rw [custodies]
        exact balanced.heir
      · obtain rfl | ⟨-, unarmed, -⟩ := moves
        · exact balanced.rows
        · intro some
          have known := balanced.rows some
          rw [unarmed] at known
          simp [Progress.isReadable, Progress.isSpent] at known
      · exact balanced.valid
      · obtain rfl | ⟨rfl, -⟩ := moves
        · exact balanced.next
        · rintro row (⟨⟨⟩⟩ | ⟨⟨⟩⟩)
    · obtain rfl | ⟨rfl, unarmed, -⟩ := moves
      · apply operations.congr
        · rfl
        · rfl
      · have none := operations.unarmed unarmed
        apply operations.turn
        · simp [none]
        · exact List.prefix_refl _
        · simp [none]
        · exact fun spent => Bool.noConfusion spent
        · exact fun armed => by cases armed
        · exact fun settled => Bool.noConfusion settled
        · trivial
  · intro other different seen
    apply balanced.rely different
    · exact fun _ => rfl
    · exact .refl _
    · exact fun _ => ⟨[], .inl (.inl ⟨keeper, held⟩)⟩
  · refine ⟨.refl _, fun removed => ?_, fun unarmed ended => ?_⟩
    · obtain rfl | ⟨-, unarmed, -⟩ := moves
      · exact removed
      · rw [unarmed] at removed
        cases removed
    · obtain rfl | ⟨-, -, writing⟩ := moves
      · exact unarmed
      · exact absurd writing ended
  · exact id

/-- An access of the shared state is one the books allow for. -/
theorem Agree.access (agree : Agree codec inner first books world flights) {request : ReplayRequest}
    {reply : request.Reply} {shared : ReplayShared}
    (permits : Permits codec inner party (books.page party seen) (.replay request))
    (atOnce : ∀ token, request ≠ .changed token)
    (accessed : world.shared.access request = some (reply, shared)) :
    ∃ page, ReplayRequest.Acts inner request (books.page party seen) reply page ∧ page.seen = seen ∧
      Turns codec inner first books party page { world with shared } flights := by
  have looks : Turns codec inner first books party (books.page party seen) world flights :=
    agree.looks rfl rfl rfl
  cases request with
  | loadState =>
      cases accessed
      exact ⟨_, ⟨agree.shares.state, rfl⟩, rfl, looks⟩
  | loadRows =>
      cases accessed
      exact ⟨_, ⟨agree.shares.rows, rfl⟩, rfl, looks⟩
  | storeRows rows =>
      obtain ⟨keeper, held, rfl, writing, row, appended⟩ := permits
      cases accessed
      exact ⟨_, ⟨row, appended, rfl⟩, rfl, agree.storesRow keeper held writing appended⟩
  | compareExchange state =>
      obtain ⟨keeper, held, final⟩ := permits
      simp only [ReplayShared.access, agree.shares.state] at accessed
      by_cases writing : books.published.state = .writing
      · rw [if_pos writing] at accessed
        cases accessed
        refine ⟨{ books.page party seen with published :=
          { books.published with state, owed := true } },
          ?_, rfl, agree.publishes keeper ?_ rfl rfl agree.shares.notices ⟨rfl, rfl, rfl⟩⟩
        · exact (if_pos writing).mpr ⟨rfl, rfl⟩
        · exact ⟨fun ended => absurd writing ended, fun ended => absurd writing ended,
            List.prefix_refl _, Nat.le_refl _, fun _ => .inl rfl⟩
      · rw [if_neg writing] at accessed
        cases accessed
        exact ⟨_, (if_neg writing).mpr ⟨rfl, rfl⟩, rfl, looks⟩
  | notifyWaiters =>
      cases accessed
      refine ⟨_, rfl, rfl, agree.publishes permits ?_ rfl agree.shares.state ?_ ⟨rfl, rfl, rfl⟩⟩
      · exact ⟨fun _ => rfl, fun _ => rfl, List.prefix_refl _, Nat.le_succ _,
          fun same => absurd same (Nat.succ_ne_self _)⟩
      · exact congrArg (· + 1) agree.shares.notices
  | notified =>
      cases accessed
      exact ⟨_, ⟨agree.shares.notices, rfl⟩, rfl, looks⟩
  | changed token => exact absurd rfl (atOnce token)
  | retain => cases permits
  | release =>
      have held : books.custody party = .shared := permits
      simp only [ReplayShared.access] at accessed
      by_cases one : world.shared.handles = 1
      · rw [if_pos one] at accessed
        cases accessed
        obtain ⟨guard, known, fits⟩ := agree.balanced.cleanup party held
        exact ⟨_, .inr ⟨⟨guard, agree.shares.cleanup.trans known, known, fits⟩, rfl⟩, rfl,
          agree.takes held one⟩
      · rw [if_neg one] at accessed
        cases accessed
        exact ⟨_, .inl ⟨rfl, held, rfl⟩, rfl, agree.leaves held one⟩
  | unwrap =>
      have held : books.custody party = .shared := permits
      simp only [ReplayShared.access] at accessed
      by_cases one : world.shared.handles = 1
      · rw [if_pos one] at accessed
        cases accessed
        obtain ⟨guard, known, fits⟩ := agree.balanced.cleanup party held
        exact ⟨_, .inr ⟨⟨guard, agree.shares.cleanup.trans known, known, fits⟩, rfl⟩, rfl,
          agree.takes held one⟩
      · rw [if_neg one] at accessed
        cases accessed
        exact ⟨_, .inl ⟨rfl, held, rfl⟩, rfl, looks⟩
  | «exclusive» =>
      obtain ⟨keeper, held⟩ := permits
      have holds : (books.custody party).Holds := held
      simp only [ReplayShared.access] at accessed
      by_cases one : world.shared.handles = 1
      · rw [decide_eq_true one] at accessed
        cases accessed
        refine ⟨_, .inr ⟨rfl, rfl⟩, rfl, agree.relearns holds (.inr rfl) ?_ ?_⟩
        · exact fun _ => ⟨keeper, agree.sole one holds⟩
        · exact fun shared => by cases shared
      · rw [decide_eq_false one] at accessed
        cases accessed
        refine ⟨_, .inl ⟨rfl, ?_, rfl⟩, rfl, looks⟩
        obtain shared | sole := held
        · exact shared
        · refine absurd ?_ one
          obtain ⟨holders, known, count⟩ := agree.shares.handles
          rw [count, Finset.card_eq_one]
          refine ⟨party, Finset.eq_singleton_iff_unique_mem.mpr ⟨(known party).mpr holds, ?_⟩⟩
          intro other member
          by_contra different
          have away := agree.balanced.alone party (.inl sole) other different
          have others := (known other).mp member
          rw [away] at others
          exact absurd others (by simp [Custody.Holds])
  | lockCleanup =>
      simp only [ReplayShared.access, Option.map_eq_some_iff] at accessed
      obtain ⟨guard, known, same⟩ := accessed
      cases same
      exact ⟨_, ⟨agree.shares.cleanup.symm.trans known, rfl⟩, rfl, looks⟩
  | storeCleanup guard =>
      obtain ⟨keeper, rest⟩ := permits
      cases accessed
      refine ⟨_, rfl, rfl, ?_⟩
      obtain ⟨sole, fits⟩ | ⟨shared, unarmed, writing, fits⟩ := rest
      · have held : books.custody party ≠ .away := by
          rw [show books.custody party = .sole from sole]
          simp
        have stays : books.scratch.progress.stored guard = books.scratch.progress := fits.stored
        exact agree.stores keeper held (stays.symm ▸ fits) (.inl stays)
      · have held : books.custody party ≠ .away := by
          rw [show books.custody party = .shared from shared]
          simp
        have isUnarmed : books.scratch.progress = .unarmed := unarmed
        have armed : books.scratch.progress.stored guard = .armed := by
          rw [isUnarmed, Progress.stored, fits.dir]
          rfl
        exact agree.stores keeper held (armed.symm ▸ fits) (.inr ⟨armed, isUnarmed, writing⟩)

theorem World.ext_shared (same : next.fs = world.fs) : next =
    { world with shared := next.shared } := by
  cases next
  cases same
  rfl

theorem Agree.answers (agree : Agree codec inner first books world flights)
    {op : Request Unit Value}
    {reply : op.Reply} (permits : Permits codec inner party (books.page party seen) op)
    (atOnce : op.awaits = false) (answers : replayAnswers codec op world reply next) :
    ∃ page, Acts codec inner op (books.page party seen) reply page ∧ page.seen = seen ∧
      Turns codec inner first books party page next flights := by
  cases op with
  | limit =>
      obtain rfl : next = world := answers
      exact ⟨_, rfl, rfl, agree.looks rfl rfl rfl⟩
  | reserve bytes =>
      obtain ⟨rfl, admits⟩ := answers
      exact ⟨_, ⟨rfl, admits⟩, rfl, agree.looks rfl rfl rfl⟩
  | serialize row =>
      obtain ⟨rfl, serializes⟩ := answers
      exact ⟨_, ⟨serializes, rfl⟩, rfl, agree.looks rfl rfl rfl⟩
  | deserialize bytes =>
      obtain ⟨rfl, deserializes⟩ := answers
      exact ⟨_, ⟨deserializes, rfl⟩, rfl, agree.looks rfl rfl rfl⟩
  | perform | direct | idle => cases atOnce
  | replay request =>
      obtain ⟨same, accessed⟩ := answers
      rw [World.ext_shared same]
      apply agree.access permits _ accessed
      rintro token rfl
      cases atOnce

end Requests

section Operations

variable {codec : Codec Unit Value} {inner : ReplayInner} {first : Fs} {books : Books Value}
  {world : World ReplayShared} {flights prior later : List (Operation Party)} {party : Party}
  {page : Page Value} {seen : List Seen} {operation : Operation Party}

/-- The directory moves on in the hands of the party that rules it. -/
theorem Agree.moves (agree : Agree codec inner first books world flights)
    {progress : Progress Value} {busy : Bool} {flights' : List (Operation Party)}
    (rules : (books.page party seen).Rules party)
    (cleanup : (∃ other, books.custody other = .shared) →
      progress.isArmed = books.scratch.progress.isArmed)
    (live : progress.isSpent = true → ∀ number, books.custody (.reader number) ≠ .shared)
    (rows : books.published.rows ≠ [] → progress.isReadable = true ∨ progress.isSpent = true)
    (next : ∀ row, progress = .appending row ∨ progress = .appended row → row.Valid codec)
    (onward : books.scratch.progress ≠ .removed ∧ books.scratch.progress ≠ .unarmed)
    (operations : Flights codec inner first { books.scratch with progress, busy }
      books.published.rows world.fs flights') :
    Turns codec inner first books party { books.page party seen with
      scratch := { books.scratch with progress, busy } } world flights' := by
  obtain ⟨shares, balanced, -⟩ := agree
  have custodies : ∀ scratch, (books.set party { books.page party seen with scratch }).custody =
      books.custody := fun _ => Function.update_eq_self ..
  constructor
  · constructor
    · refine ⟨shares.state, shares.rows, shares.notices, shares.cleanup, ?_⟩
      rw [custodies]
      exact shares.handles
    · constructor
      · rw [custodies]
        exact balanced.alone
      · rw [custodies]
        exact balanced.readers
      · rw [custodies]
        intro other shared
        obtain ⟨guard, known, fits⟩ := balanced.cleanup other shared
        exact ⟨guard, known, fits.congr (cleanup ⟨other, shared⟩)⟩
      · rw [custodies]
        intro other sole _
        apply balanced.armed other sole
        cases old : books.scratch.progress with
        | removed => exact absurd old onward.1
        | unarmed => exact absurd old onward.2
        | _ => rfl
      · rw [custodies]
        exact live
      · rw [custodies]
        exact balanced.heir
      · exact rows
      · exact balanced.valid
      · exact next
    · exact operations
  · intro other different seen'
    apply balanced.rely different
    · exact fun _ => rfl
    · exact .refl _
    · exact fun _ => ⟨seen, .inl rules⟩
  · exact ⟨.refl _, fun removed => absurd removed onward.1, fun unarmed => absurd unarmed onward.2⟩
  · exact id

/-- A writing job is handed over by the party that rules the directory. -/
theorem Agree.launches (agree : Agree codec inner first books world flights)
    {progress : Progress Value} {job : FsJob} {held : List MemoryCharge}
    (rules : (books.page party seen).Rules party) (free : books.scratch.busy = false)
    (mutates : job.Mutates = true) (within : FsJob.Within inner job) (runs : progress.Runs job)
    (ready : job.Ready books.published.rows world.fs)
    (armed : books.scratch.progress.isArmed = true)
    (readable : books.scratch.progress.isReadable = true → progress.isReadable = true)
    (spent : progress.isSpent = books.scratch.progress.isSpent)
    (next : ∀ row, progress = .appending row ∨ progress = .appended row → row.Valid codec)
    (stands : Stands inner first world.fs books.published.rows progress) :
    Turns codec inner first books party { books.page party seen with
        scratch := { books.scratch with progress, busy := true } }
      world (.spawn ⟨party, inner.scope, held, job⟩ :: flights) := by
  have isArmed : progress.isArmed = true := by
    cases progress with
    | unarmed | removed => cases job <;> cases runs
    | _ => rfl
  apply agree.moves rules
  · exact fun _ => isArmed.trans armed.symm
  · exact fun isSpent => agree.balanced.live (spent ▸ isSpent)
  · intro some
    obtain isReadable | isSpent := agree.balanced.rows some
    · exact .inl (readable isReadable)
    · exact .inr (spent.trans isSpent)
  · exact next
  · constructor
    · rintro removed
      rw [removed] at armed
      cases armed
    · rintro unarmed
      rw [unarmed] at armed
      cases armed
  · exact agree.flights.launch free mutates within runs ready readable
      (fun isSpent => spent ▸ isSpent) stands

/-- A job is handed over as the books permit. -/
theorem Agree.performs (agree : Agree codec inner first books world flights) {io : ScopeId}
    {held : List MemoryCharge} {job : FsJob}
    (permits : Permits codec inner party (books.page party seen) (.perform io held job)) :
    Turns codec inner first books party
      ((books.page party seen).issued (.perform io held job)) world
      (.spawn ⟨party, io, held, job⟩ :: flights) := by
  obtain ⟨rfl, holds, allows⟩ := permits
  have stands := agree.flights.stands
  cases job with
  | ensureDir dir =>
      obtain ⟨keeper, rfl, armed, free⟩ := allows
      have armed : books.scratch.progress = .armed := armed
      refine agree.launches (.inl ⟨keeper, holds⟩) free rfl rfl ?_ trivial ?_ id rfl ?_ stands
      · exact armed ▸ trivial
      · exact armed ▸ rfl
      · rintro row (same | same) <;> cases armed.symm.trans same
  | create path =>
      obtain ⟨keeper, rfl, made, free⟩ := allows
      have made : books.scratch.progress = .made := made
      refine agree.launches (.inl ⟨keeper, holds⟩) free rfl rfl ?_ trivial ?_ id rfl ?_ stands
      · exact made ▸ trivial
      · exact made ▸ rfl
      · rintro row (same | same) <;> cases made.symm.trans same
  | append path len weight bytes =>
      obtain ⟨keeper, rfl, ready, free, rfl, fits, row, pass, encoded, serializes, complete,
        rfl⟩ := allows
      have ready : books.scratch.progress = .ready := ready
      rw [ready] at stands
      simp only [Page.issued, encoded]
      rw [← encoded]
      apply agree.launches (.inl ⟨keeper, holds⟩) free
      · rfl
      · exact rfl
      · exact ⟨rfl, rfl, rfl⟩
      · exact ⟨rfl, stands.2⟩
      · exact ready ▸ rfl
      · exact fun _ => rfl
      · exact ready ▸ rfl
      · rintro next (⟨⟨⟩⟩ | ⟨⟨⟩⟩)
        exact ⟨⟨row, pass, serializes, complete, rfl, rfl⟩, fits⟩
      · exact ⟨stands.1, [], stands.2⟩
  | patch path count =>
      obtain ⟨keeper, rfl, ready, free⟩ := allows
      have ready : books.scratch.progress = .ready := ready
      rw [ready] at stands
      refine agree.launches (.inl ⟨keeper, holds⟩) free rfl rfl trivial trivial ?_ ?_ ?_ ?_ ?_
      · exact ready ▸ rfl
      · exact fun _ => rfl
      · exact ready ▸ rfl
      · rintro next (⟨⟨⟩⟩ | ⟨⟨⟩⟩)
      · exact ⟨stands.1, [], stands.2⟩
  | readFrame path offset rowInline =>
      obtain ⟨reader, shared, rfl, position, row, found, isOffset⟩ := allows
      have shared : books.custody party = .shared := shared
      obtain ⟨number, rfl⟩ : ∃ number, party = .reader number := by
        cases party with
        | keeper => exact absurd rfl reader
        | reader number => exact ⟨number, rfl⟩
      have unspent : books.scratch.progress.isSpent ≠ true :=
        fun spent => agree.balanced.live spent number shared
      have readable : books.scratch.progress.isReadable = true := by
        have some : books.published.rows ≠ [] := List.ne_nil_of_mem (List.mem_of_getElem? found)
        exact (agree.balanced.rows some).resolve_right unspent
      have valid := agree.balanced.valid row (List.mem_of_getElem? found)
      have turned : Agree codec inner first books world
          (.spawn ⟨.reader number, inner.scope, held, .readFrame inner.path offset rowInline⟩ ::
            flights) := by
        refine ⟨agree.shares, agree.balanced, agree.flights.add ?_ ?_ ?_ ?_⟩
        · exact flies_reading rfl readable found valid isOffset
        · exact fun writes => Bool.noConfusion writes.1
        · exact fun spent => absurd spent unspent
        · intro unarmed
          rw [unarmed] at readable
          cases readable
      exact turned.looks rfl rfl rfl
  | removeDirAll dir =>
      obtain ⟨rfl, cleared, alone⟩ := allows
      have cleared : books.scratch.progress = .cleared := cleared
      have free := agree.flights.settled (by rw [cleared]; rfl)
      refine agree.launches (.inr alone) free rfl rfl trivial trivial ?_ ?_ ?_ ?_ trivial
      · exact cleared ▸ rfl
      · rw [cleared]
        exact fun readable => Bool.noConfusion readable
      · exact cleared ▸ rfl
      · rintro next (⟨⟨⟩⟩ | ⟨⟨⟩⟩)
  | readCount | removeIfExists => cases allows

theorem Balanced.unshared (balanced : Balanced codec inner books)
    (alone : books.custody party = .sole ∨ books.custody party = .taken) (other : Party) :
    books.custody other ≠ .shared := by
  by_cases equal : other = party
  · rw [equal]
    obtain sole | taken := alone
    · simp [sole]
    · simp [taken]
  · simp [balanced.alone party alone other equal]

/-- The directory has come further, and no writing job is under way. -/
theorem Agree.lands (agree : Agree codec inner first books world flights)
    {progress : Progress Value} (rules : (books.page party seen).Rules party)
    (quiet : ∀ flight ∈ flights, ¬flight.Writes)
    (old : books.scratch.progress.isArmed = true)
    (armed : (∃ other, books.custody other = .shared) → progress.isArmed = true)
    (readable : (∃ flight ∈ flights, flight.Executing) →
      books.scratch.progress.isReadable = true → progress.isReadable = true)
    (spent : progress.isSpent = true → (∀ flight ∈ flights, flight.Spent) ∧
      ∀ other, books.custody other ≠ .shared)
    (rows : books.published.rows ≠ [] → progress.isReadable = true ∨ progress.isSpent = true)
    (next : ∀ row, progress = .appending row ∨ progress = .appended row → row.Valid codec)
    (unarmed : progress ≠ .unarmed)
    (stands : Stands inner first world.fs books.published.rows progress) :
    Turns codec inner first books party { books.page party seen with
      scratch := { books.scratch with progress, busy := false } } world flights := by
  apply agree.moves rules
  · exact fun shared => (armed shared).trans old.symm
  · exact fun isSpent number => (spent isSpent).2 _
  · exact rows
  · exact next
  · constructor
    · rintro removed
      rw [removed] at old
      cases old
    · rintro unarmed
      rw [unarmed] at old
      cases old
  · apply agree.flights.turn quiet (List.prefix_refl _)
    · exact readable
    · exact fun isSpent => (spent isSpent).1
    · exact fun same => absurd same unarmed
    · exact fun _ => rfl
    · exact stands

theorem Agree.idles (agree : Agree codec inner first books world flights)
    (alone : books.custody party = .sole ∨ books.custody party = .taken)
    (armed : books.scratch.progress.isArmed = true) (spent : ∀ flight ∈ flights, flight.Spent) :
    Turns codec inner first books party { books.page party seen with
      scratch := { books.scratch with progress := .cleared, busy := false } } world flights := by
  have unshared := agree.balanced.unshared alone
  apply agree.lands (.inr alone) _ armed
  · rintro ⟨other, shared⟩
    exact absurd shared (unshared other)
  · rintro ⟨flight, member, executing⟩
    exact absurd executing (spent flight member).2.1
  · exact fun _ => ⟨spent, unshared⟩
  · exact fun _ => .inr rfl
  · rintro row (⟨⟨⟩⟩ | ⟨⟨⟩⟩)
  · simp
  · trivial
  · rintro flight member ⟨-, executing | attached⟩
    · exact (spent flight member).2.1 executing
    · exact absurd ((spent flight member).1.symm.trans attached) (by simp)

def Awaits (party : Party) (page : Page Value) : FsJob → Prop
  | .ensureDir _ | .create _ | .append .. | .patch .. => party = .keeper ∧ page.custody ≠ .away
  | .removeDirAll _ => page.custody = .sole ∨ page.custody = .taken
  | .readFrame .. => page.custody = .shared
  | .readCount _ | .removeIfExists _ => False

/-- A job has succeeded, and its caller hears of it. -/
theorem Agree.delivers (agree : Agree codec inner first books world (prior ++ operation :: later))
    (attached : operation.attached = true)
    {value : operation.job.Value} (outcome : operation.outcome = some (.ok value))
    (awaits : Awaits party (books.page party seen) operation.job) :
    Turns codec inner first books party ((books.page party seen).delivered operation.job) world
      (prior ++ later) := by
  have flies := agree.flights.self
  have fewer : (prior ++ later).Sublist (prior ++ operation :: later) :=
    (List.sublist_cons_self _ _).append_left _
  have kept := agree.flights.sublist fewer
  cases mutates : operation.job.Mutates with
  | false =>
      have same : (books.page party seen).delivered operation.job = books.page party seen := by
        cases job : operation.job <;> simp_all [FsJob.Mutates, Page.delivered]
      rw [same]
      exact Agree.looks ⟨agree.shares, agree.balanced, kept⟩ rfl rfl rfl
  | true =>
      obtain ⟨runs, goal⟩ := flies.ends mutates attached value outcome
      have quiet := (agree.flights.alone ⟨mutates, .inr attached⟩).2
      have stands := agree.flights.stands
      have within := flies.within
      have trimmed : Agree codec inner first books world (prior ++ later) :=
        ⟨agree.shares, agree.balanced, kept⟩
      have noRows : books.scratch.progress.isReadable = false →
          books.scratch.progress.isSpent = false → books.published.rows = [] := by
        intro unread unspent
        by_contra some
        obtain readable | spent := agree.balanced.rows some
        · exact absurd (unread.symm.trans readable) (by simp)
        · exact absurd (unspent.symm.trans spent) (by simp)
      cases job : operation.job with
      | ensureDir dir =>
          rw [job] at awaits runs goal within
          obtain rfl : dir = inner.dir := within
          cases progress : books.scratch.progress with
          | armed =>
              rw [progress] at noRows
              refine trimmed.lands (.inl awaits) quiet (progress ▸ rfl)
                (fun _ => rfl) ?_ ?_ ?_ ?_ ?_ goal
              · rw [progress]
                exact fun _ => id
              · exact fun spent => Bool.noConfusion spent
              · exact fun some => absurd (noRows rfl rfl) some
              · rintro row (⟨⟨⟩⟩ | ⟨⟨⟩⟩)
              · simp
          | _ =>
              rw [progress] at runs
              cases runs
      | create path =>
          rw [job] at awaits runs goal within
          obtain rfl : path = inner.path := within
          cases progress : books.scratch.progress with
          | made =>
              rw [progress] at noRows stands
              have empty := noRows rfl rfl
              refine trimmed.lands (.inl awaits) quiet (progress ▸ rfl)
                (fun _ => rfl) ?_ ?_ ?_ ?_ ?_ ?_
              · exact fun _ _ => rfl
              · exact fun spent => Bool.noConfusion spent
              · exact fun some => absurd empty some
              · rintro row (⟨⟨⟩⟩ | ⟨⟨⟩⟩)
              · simp
              · rw [empty]
                exact ⟨stands, goal⟩
          | _ =>
              rw [progress] at runs
              cases runs
      | append path len weight bytes =>
          rw [job] at awaits runs goal within
          obtain rfl : path = inner.path := within
          cases progress : books.scratch.progress with
          | appending next =>
              rw [progress] at runs stands
              obtain ⟨rfl, rfl, rfl⟩ := runs
              have valid := agree.balanced.next next (.inl progress)
              simp only [Page.delivered, Books.page, progress]
              refine trimmed.lands (.inl awaits) quiet (progress ▸ rfl)
                (fun _ => rfl) ?_ ?_ ?_ ?_ ?_ ?_
              · exact fun _ _ => rfl
              · exact fun spent => Bool.noConfusion spent
              · exact fun _ => .inl rfl
              · rintro row (⟨⟨⟩⟩ | ⟨⟨⟩⟩)
                exact valid
              · simp
              · exact ⟨stands.1, goal⟩
          | _ =>
              rw [progress] at runs
              cases runs
      | patch path count =>
          rw [job] at awaits runs within
          cases progress : books.scratch.progress with
          | «sealing» =>
              refine trimmed.lands (.inl awaits) quiet (progress ▸ rfl) (fun _ => progress ▸ rfl)
                ?_ ?_ ?_ ?_ ?_
                stands
              · exact fun _ => id
              · simp [Books.page, progress, Progress.isSpent]
              · exact agree.balanced.rows
              · exact agree.balanced.next
              · simp [Books.page, progress]
          | _ =>
              rw [progress] at runs
              cases runs
      | removeDirAll dir =>
          rw [job] at awaits runs goal within
          obtain rfl : dir = inner.dir := within
          cases progress : books.scratch.progress with
          | removing =>
              have alone : books.custody party = .sole ∨ books.custody party = .taken := awaits
              have unshared := agree.balanced.unshared alone
              have spent := agree.flights.lastOne (by rw [progress]; rfl)
                fun spent => absurd (attached.symm.trans spent.1) (by simp)
              refine trimmed.lands (.inr awaits) quiet (progress ▸ rfl) ?_ ?_ ?_ ?_ ?_ ?_ goal
              · rintro ⟨other, shared⟩
                exact absurd shared (unshared other)
              · rw [progress]
                exact fun _ readable => Bool.noConfusion readable
              · exact fun _ => ⟨spent, unshared⟩
              · exact fun _ => .inr rfl
              · rintro row (⟨⟨⟩⟩ | ⟨⟨⟩⟩)
              · simp
          | _ =>
              rw [progress] at runs
              cases runs
      | _ =>
          rw [job] at mutates
          cases mutates

end Operations

end SortGovernor.Runtime
