import SortGovernor.Resumption.Interference
import SortGovernor.Replay.Jobs
import SortGovernor.Runtime.Replays

/-!
# The books of a replay

What the parties of a replay know is kept in books that no code reads: what has
been published, how far the scratch directory has come, and which reference each
party holds.  A party's program is read against its own page, which the others
change only in agreed ways.
-/

namespace SortGovernor.Runtime

open SortGovernor.Engine SortGovernor.Resumption

variable {Value : Type}

/-- How far the scratch directory has come.  A writing job is under way or has
failed in `armed`, `made`, `appending`, `sealing` and `removing`. -/
inductive Progress (Value : Type) where
  | unarmed
  | armed
  | made
  | ready
  | appending (next : Committed Value)
  | appended (next : Committed Value)
  | sealing
  | cleared
  | removing
  | removed

namespace Progress

def isArmed : Progress Value → Bool
  | unarmed | removed => false
  | _ => true

def isReadable : Progress Value → Bool
  | ready | appending _ | appended _ | sealing => true
  | _ => false

def isSpent : Progress Value → Bool
  | cleared | removing | removed => true
  | _ => false

/-- The progress while a writing job is under way. -/
def Runs : Progress Value → FsJob → Prop
  | armed, .ensureDir _ | made, .create _ | sealing, .patch .. | removing, .removeDirAll _ => True
  | appending next, .append _ len weight bytes =>
      next.weight = weight ∧ next.body = bytes ∧ len = bytes.length
  | _, _ => False

end Progress

structure Published (Value : Type) where
  state : PublicationState
  notices : Nat
  owed : Bool
  rows : List (Committed Value)

structure Scratch (Value : Type) where
  progress : Progress Value
  busy : Bool
  cleanup : Option AsyncCleanupGuard

/-- Published rows stay, and so does the last state.  Whatever changes without a
notice leaves one owed. -/
structure Published.Grows (before after : Published Value) : Prop where
  state : before.state ≠ .writing → after.state = before.state
  final : before.state ≠ .writing → after.rows = before.rows
  rows : before.rows <+: after.rows
  notices : before.notices ≤ after.notices
  owed : after.notices = before.notices → after.owed = true ∨ after = before

/-- The reference a party holds: none, one among others, the only one, or the
scratch owner itself. -/
inductive Custody where
  | away
  | shared
  | sole
  | taken
  deriving DecidableEq

/-- A party that has a reference. -/
def Custody.Holds (custody : Custody) : Prop := custody = .shared ∨ custody = .sole

instance : DecidablePred Custody.Holds := fun custody =>
  inferInstanceAs (Decidable (custody = .shared ∨ custody = .sole))

theorem Custody.Holds.present {custody : Custody} (holds : custody.Holds) : custody ≠ .away := by
  rintro rfl
  obtain ⟨⟨⟩⟩ | ⟨⟨⟩⟩ := holds

theorem Custody.Holds.refers {custody : Custody} (holds : custody.Holds) : custody ≠ .taken := by
  rintro rfl
  obtain ⟨⟨⟩⟩ | ⟨⟨⟩⟩ := holds

/-- What a party that drops a call knows no longer: that it was alone. -/
def Custody.relaxed : Custody → Custody
  | sole => shared
  | custody => custody

/-- A party's page: the books, its reference, the row it serialized last, and
what its call has observed. -/
structure Page (Value : Type) where
  published : Published Value
  scratch : Scratch Value
  custody : Custody
  encoded : Option (RunRow Unit Value × Serialization)
  seen : List Seen

namespace Page

def relaxed (page : Page Value) : Page Value := { page with custody := page.custody.relaxed }

/-- The party alone changes the scratch directory. -/
def Rules (party : Party) (page : Page Value) : Prop :=
  party = .keeper ∧ page.custody ≠ .away ∨ page.custody = .sole ∨ page.custody = .taken

/-- What the others may do to a page. -/
structure Rely (party : Party) (before after : Page Value) : Prop where
  custody : after.custody = before.custody
  encoded : after.encoded = before.encoded
  seen : after.seen = before.seen
  published : party = .keeper → after.published = before.published
  grows : before.published.Grows after.published
  scratch : before.Rules party → after.scratch = before.scratch

/-- A writing job is handed to a worker. -/
def issued (page : Page Value) : Request Unit Value → Page Value
  | .perform _ _ (.ensureDir _) | .perform _ _ (.create _) =>
      { page with scratch := { page.scratch with busy := true } }
  | .perform _ _ (.append _ _ weight bytes) =>
      match page.encoded with
      | some (row, _) => { page with
          scratch := { page.scratch with
            progress := .appending { record := row.record, weight, body := bytes }, busy := true } }
      | none => page
  | .perform _ _ (.patch ..) =>
      { page with scratch := { page.scratch with progress := .sealing, busy := true } }
  | .perform _ _ (.removeDirAll _) =>
      { page with scratch := { page.scratch with progress := .removing, busy := true } }
  | _ => page

def delivered (page : Page Value) : FsJob → Page Value
  | .ensureDir _ => { page with scratch := { page.scratch with progress := .made, busy := false } }
  | .create _ => { page with scratch := { page.scratch with progress := .ready, busy := false } }
  | .append .. =>
      match page.scratch.progress with
      | .appending next =>
          { page with scratch := { page.scratch with progress := .appended next, busy := false } }
      | _ => page
  | .patch .. => { page with scratch := { page.scratch with busy := false } }
  | .removeDirAll _ =>
      { page with scratch := { page.scratch with progress := .removed, busy := false } }
  | _ => page

end Page

/-- The part of a scratch owner that its progress fixes. -/
structure Fits (inner : ReplayInner) (progress : Progress Value) (guard : AsyncCleanupGuard) : Prop
    where
  scope : guard.scope = inner.scope
  fds : guard.fds = some .shared
  dir : guard.dir = if progress.isArmed then some inner.dir else none
  reservation : guard.reservation.isSome = progress.isArmed

def Progress.stored (guard : AsyncCleanupGuard) : Progress Value → Progress Value
  | unarmed => if guard.dir = none then unarmed else armed
  | progress => progress

theorem Fits.congr {inner : ReplayInner} {progress progress' : Progress Value}
    {guard : AsyncCleanupGuard} (fits : Fits inner progress guard)
    (same : progress'.isArmed = progress.isArmed) : Fits inner progress' guard :=
  ⟨fits.scope, fits.fds, by rw [same, fits.dir], by rw [same, fits.reservation]⟩

theorem Fits.stored {inner : ReplayInner} {progress : Progress Value} {guard : AsyncCleanupGuard}
    (fits : Fits inner progress guard) : progress.stored guard = progress := by
  cases progress with
  | unarmed =>
      have free : guard.dir = none := by simpa [Progress.isArmed] using fits.dir
      exact if_pos free
  | _ => rfl

def FsJob.Hands (codec : Codec Unit Value) (rows : List (Committed Value)) :
    (job : FsJob) → job.Value → Prop
  | .readFrame _ offset _, frame => ∃ position row, rows[position]? = some row ∧ row.Valid codec ∧
      offset = offsetOf rows position ∧ frame.bytes = row.body
  | _, _ => True

/-- One access of a party to what the references lead to. -/
def ReplayRequest.Acts (inner : ReplayInner) :
    (request : ReplayRequest) → Page Value → request.Reply → Page Value → Prop
  | .loadState, page, state, next => state = page.published.state ∧ next = page
  | .loadRows, page, rows, next => rows = page.published.rows.length ∧ next = page
  | .storeRows _, page, _, next => ∃ row, page.scratch.progress = .appended row ∧
      next = { page with
        published := { page.published with rows := page.published.rows ++ [row], owed := true }
        scratch := { page.scratch with progress := .ready } }
  | .compareExchange state, page, swapped, next =>
      if page.published.state = .writing then
        swapped = true ∧
          next = { page with published := { page.published with state, owed := true } }
      else swapped = false ∧ next = page
  | .notifyWaiters, page, _, next => next = { page with
      published := { page.published with notices := page.published.notices + 1, owed := false } }
  | .notified, page, token, next => token = page.published.notices ∧ next = page
  | .changed token, page, _, next => page.published.notices ≠ token ∧ next = page
  | .retain, _, _, _ => False
  | .release, page, taken, next =>
      taken = none ∧ page.custody = .shared ∧ next = { page with custody := .away } ∨
        (∃ guard, taken = some guard ∧ page.scratch.cleanup = some guard ∧
          Fits inner page.scratch.progress guard) ∧
        next = { page with custody := .taken, scratch := { page.scratch with cleanup := none } }
  | .unwrap, page, taken, next =>
      taken = none ∧ page.custody = .shared ∧ next = page ∨
        (∃ guard, taken = some guard ∧ page.scratch.cleanup = some guard ∧
          Fits inner page.scratch.progress guard) ∧
        next = { page with custody := .taken, scratch := { page.scratch with cleanup := none } }
  | .exclusive, page, alone, next =>
      alone = false ∧ page.custody = .shared ∧ next = page ∨
        alone = true ∧ next = { page with custody := .sole }
  | .lockCleanup, page, guard, next => page.scratch.cleanup = some guard ∧ next = page
  | .storeCleanup guard, page, _, next => next = { page with
      scratch := { page.scratch with
        cleanup := some guard
        progress := page.scratch.progress.stored guard } }

def Acts (codec : Codec Unit Value) (inner : ReplayInner) :
    (op : Request Unit Value) → Page Value → op.Reply → Page Value → Prop
  | .limit, page, _, next => next = page
  | .reserve bytes, page, reply, next =>
      next = page ∧ ∃ limit used, reply = MemoryBudget.reserve limit used bytes
  | .serialize row, page, pass, next =>
      codec.serializes row pass ∧ next = { page with encoded := some (row, pass) }
  | .deserialize bytes, page, decoded, next => codec.deserializes bytes decoded ∧ next = page
  | .perform _ _ job, page, .ok value, next =>
      FsJob.Hands codec page.published.rows job value ∧ next = page.delivered job
  | .perform _ _ _, page, .error _, next => next = page
  | .direct _, _, _, _ => False
  | .idle _, page, _, next =>
      next = { page with scratch := { page.scratch with progress := .cleared, busy := false } }
  | .replay request, page, reply, next => ReplayRequest.Acts inner request page reply next

def noted : (op : Request Unit Value) → op.Reply → List Seen
  | .perform _ _ job, reply => [.performed job reply.toBool]
  | op, reply => observed op reply

/-- A party's requests as they change its page, with what the others do in between. -/
def books (codec : Codec Unit Value) (inner : ReplayInner) (party : Party) :
    Semantics (engine Unit Value) (Page Value) where
  reply op page reply next := ∃ middle last, (page.issued op).Rely party middle ∧
    Acts codec inner op middle reply last ∧ next = { last with seen := last.seen ++ noted op reply }
  drop _ _ _ := False

section Moves

variable {first second third : Published Value} {party : Party} {page page' page'' : Page Value}

theorem Published.Grows.refl (published : Published Value) : published.Grows published where
  state _ := rfl
  final _ := rfl
  rows := List.prefix_refl _
  notices := Nat.le_refl _
  owed _ := .inr rfl

theorem Published.Grows.trans (left : first.Grows second) (right : second.Grows third) :
    first.Grows third where
  state ended := by
    have same := left.state ended
    exact (right.state (same ▸ ended)).trans same
  final ended := by
    have same := left.state ended
    exact (right.final (same ▸ ended)).trans (left.final ended)
  rows := left.rows.trans right.rows
  notices := left.notices.trans right.notices
  owed same := by
    have between := left.notices
    have beyond := right.notices
    obtain owed | rfl := right.owed (by omega)
    · exact .inl owed
    · exact left.owed (by omega)

namespace Page

theorem Rely.refl (party : Party) (page : Page Value) : page.Rely party page where
  custody := rfl
  encoded := rfl
  seen := rfl
  published _ := rfl
  grows := .refl _
  scratch _ := rfl

theorem Rely.rules (rely : page.Rely party page') : page'.Rules party ↔ page.Rules party := by
  rw [Rules, Rules, rely.custody]

theorem Rely.trans (left : page.Rely party page') (right : page'.Rely party page'') :
    page.Rely party page'' where
  custody := right.custody.trans left.custody
  encoded := right.encoded.trans left.encoded
  seen := right.seen.trans left.seen
  published keeper := (right.published keeper).trans (left.published keeper)
  grows := left.grows.trans right.grows
  scratch rules := (right.scratch (left.rules.mpr rules)).trans (left.scratch rules)

theorem Rely.eq (rely : page.Rely .keeper page') (held : page.custody ≠ .away) : page' = page := by
  obtain ⟨published, scratch, custody, encoded, seen⟩ := page'
  cases page
  cases rely.custody
  cases rely.encoded
  cases rely.seen
  cases rely.published rfl
  cases rely.scratch (.inl ⟨rfl, held⟩)
  rfl

theorem Rely.relaxed (rely : page.Rely party page') : page.relaxed.Rely party page'.relaxed where
  custody := congrArg Custody.relaxed rely.custody
  encoded := rely.encoded
  seen := rely.seen
  published := rely.published
  grows := rely.grows
  scratch rules := by
    apply rely.scratch
    unfold Rules at rules ⊢
    cases held : page.custody <;> simp_all [Page.relaxed, Custody.relaxed]

end Page

end Moves

end SortGovernor.Runtime
