import Mathlib.Data.Finset.Card
import Mathlib.Data.Finset.Insert
import Mathlib.Logic.Function.Basic

/-!
# Waiting for the operations of a scope

Any number of operations start and finish on one scope while any number of tasks
wait for it to be idle.  One step is one access: the counter goes up, the counter
goes down, the last operation notifies, a task creates a notification, enables
it, loads the counter, is woken or dropped.
-/

namespace SortGovernor.Runtime

/-- Where a call of `idle` stands in its loop: it has created a notification, it
has enabled it, it is suspended on it, or it has found the counter at zero. -/
inductive Waiting where
  | created
  | enabled (notified : Bool)
  | suspended (notified : Bool)
  | clear
  deriving DecidableEq, Repr

/-- `notify_waiters` reaches every enabled notification. -/
def Waiting.notify : Waiting → Waiting
  | enabled _ => enabled true
  | suspended _ => suspended true
  | stage => stage

/-- A scope with its operations: those that own a guard, and those that took the
counter from one to zero and have not notified yet. -/
structure IoScope where
  pending : Nat
  running : Finset Nat
  notifying : Finset Nat
  started : Nat
  waiters : Nat → Option Waiting
  called : Nat

namespace IoScope

def new : IoScope where
  pending := 0
  running := ∅
  notifying := ∅
  started := 0
  waiters := fun _ => none
  called := 0

def setWaiter (scope : IoScope) (task : Nat) (stage : Option Waiting) : IoScope :=
  { scope with waiters := Function.update scope.waiters task stage }

@[simp]
theorem setWaiter_same (scope : IoScope) (task : Nat) (stage : Option Waiting) :
    (scope.setWaiter task stage).waiters task = stage :=
  Function.update_self ..

theorem setWaiter_of_ne (scope : IoScope) {task other : Nat} (stage : Option Waiting)
    (different : other ≠ task) :
    (scope.setWaiter task stage).waiters other = scope.waiters other :=
  Function.update_of_ne different ..

inductive Event where
  | start (operation : Nat)
  | finish (operation : Nat)
  | notify (operation : Nat)
  | call (task : Nat)
  | enable (task : Nat)
  | load (task : Nat)
  | wake (task : Nat)
  | drop (task : Nat)
  | returned (task : Nat)

/-- One step of one operation or of one task.  A notification may come before it
is enabled; whether it counts then is left open. -/
inductive Step : IoScope → Event → IoScope → Prop where
  | start {scope} :
      Step scope (.start scope.started)
        { scope with
          pending := scope.pending + 1
          running := insert scope.started scope.running
          started := scope.started + 1 }
  | finish {scope operation} : operation ∈ scope.running →
      Step scope (.finish operation)
        { scope with
          pending := scope.pending - 1
          running := scope.running.erase operation
          notifying :=
            if scope.pending = 1 then insert operation scope.notifying else scope.notifying }
  | notify {scope operation} : operation ∈ scope.notifying →
      Step scope (.notify operation)
        { scope with
          notifying := scope.notifying.erase operation
          waiters := fun task => (scope.waiters task).map Waiting.notify }
  | call {scope} :
      Step scope (.call scope.called)
        { scope.setWaiter scope.called (some .created) with called := scope.called + 1 }
  | enable {scope task} (notified : Bool) : scope.waiters task = some .created →
      Step scope (.enable task) (scope.setWaiter task (some (.enabled notified)))
  | load {scope task notified} : scope.waiters task = some (.enabled notified) →
      Step scope (.load task)
        (scope.setWaiter task
          (some (if scope.pending = 0 then .clear else .suspended notified)))
  | wake {scope task} : scope.waiters task = some (.suspended true) →
      Step scope (.wake task) (scope.setWaiter task (some .created))
  | drop {scope task notified} : scope.waiters task = some (.suspended notified) →
      Step scope (.drop task) (scope.setWaiter task none)
  | returned {scope task} : scope.waiters task = some .clear →
      Step scope (.returned task) (scope.setWaiter task none)

/-- A run and the states it has been in, the newest first. -/
inductive Runs (first : IoScope) : List IoScope → IoScope → Prop where
  | refl : Runs first [first] first
  | step {visited scope event scope'} :
      Runs first visited scope → Step scope event scope' → Runs first (scope' :: visited) scope'

/-- The counter counts the guards. -/
structure Sound (scope : IoScope) : Prop where
  pending : scope.pending = scope.running.card
  running : ∀ operation ∈ scope.running, operation < scope.started
  waiters : ∀ task, scope.waiters task ≠ none → task < scope.called

/-- Somebody is going to wake the task, or has. -/
def Attended (scope : IoScope) (task : Nat) : Prop :=
  scope.waiters task = some (.suspended false) → 0 < scope.pending ∨ scope.notifying.Nonempty

variable {scope scope' first last : IoScope} {event : Event}

theorem sound_new : Sound new where
  pending := rfl
  running _ member := absurd member (Finset.notMem_empty _)
  waiters _ some := absurd rfl some

theorem Sound.setWaiter (sound : Sound scope) {task : Nat} (waits : scope.waiters task ≠ none)
    (stage : Option Waiting) : Sound (scope.setWaiter task stage) where
  pending := sound.pending
  running := sound.running
  waiters other some := by
    by_cases same : other = task
    · exact same ▸ sound.waiters task waits
    · rw [setWaiter_of_ne scope stage same] at some
      exact sound.waiters other some

theorem Sound.step (sound : Sound scope) (step : Step scope event scope') : Sound scope' := by
  cases step with
  | start =>
      refine ⟨?_, ?_, sound.waiters⟩
      · have fresh : scope.started ∉ scope.running := fun member =>
          absurd (sound.running _ member) (Nat.lt_irrefl _)
        rw [Finset.card_insert_of_notMem fresh, sound.pending]
      · intro operation member
        obtain rfl | member := Finset.mem_insert.mp member
        · exact Nat.lt_succ_self _
        · exact Nat.lt_succ_of_lt (sound.running operation member)
  | finish owns =>
      refine ⟨?_, ?_, sound.waiters⟩
      · rw [Finset.card_erase_of_mem owns, sound.pending]
      · exact fun operation member => sound.running operation (Finset.mem_of_mem_erase member)
  | notify notifies =>
      refine ⟨sound.pending, sound.running, ?_⟩
      intro task some
      exact sound.waiters task fun none => some (by simp [none])
  | call =>
      refine ⟨sound.pending, sound.running, ?_⟩
      intro task some
      by_cases same : task = scope.called
      · exact same ▸ Nat.lt_succ_self _
      · have kept : scope.waiters task ≠ none := setWaiter_of_ne scope _ same ▸ some
        exact Nat.lt_succ_of_lt (sound.waiters task kept)
  | enable _ waits | load waits | wake waits | drop waits | returned waits =>
      exact sound.setWaiter (by simp [waits]) _

theorem Runs.sound {visited : List IoScope} (runs : Runs first visited last) (sound : Sound first) :
    Sound last := by
  induction runs with
  | refl => exact sound
  | step _ step inductionHypothesis => exact inductionHypothesis.step step

theorem Runs.mem_visited {visited : List IoScope} (runs : Runs first visited last) :
    last ∈ visited := by
  cases runs <;> exact List.mem_cons_self ..

theorem Step.started_le (step : Step scope event scope') : scope.started ≤ scope'.started := by
  cases step with
  | start => exact Nat.le_succ _
  | _ => exact Nat.le_refl _

theorem Step.not_running {operation : Nat} (step : Step scope event scope')
    (old : operation < scope.started) (gone : operation ∉ scope.running) :
    operation ∉ scope'.running := by
  cases step with
  | start =>
      intro member
      obtain rfl | member := Finset.mem_insert.mp member
      · exact absurd old (Nat.lt_irrefl _)
      · exact gone member
  | finish _ => exact fun member => gone (Finset.mem_of_mem_erase member)
  | _ => exact gone

theorem Step.of_clear {task : Nat} (step : Step scope event scope')
    (clear : scope'.waiters task = some .clear) :
    scope.waiters task = some .clear ∨ scope.pending = 0 := by
  have other : ∀ {changed : Nat} {stage : Option Waiting}, stage ≠ some .clear →
      (scope.setWaiter changed stage).waiters task = some .clear →
      scope.waiters task = some .clear := by
    intro changed stage notClear reached
    by_cases same : task = changed
    · subst same
      exact absurd ((setWaiter_same ..).symm.trans reached) notClear
    · rwa [setWaiter_of_ne scope stage same] at reached
  cases step with
  | start | finish _ => exact .inl clear
  | notify _ =>
      obtain ⟨stage, found, notified⟩ := Option.map_eq_some_iff.mp clear
      cases stage <;> first | exact .inl found | cases notified
  | call => exact .inl (other (by simp) clear)
  | enable _ _ | wake _ | drop _ | returned _ => exact .inl (other (by simp) clear)
  | load _ =>
      by_cases zero : scope.pending = 0
      · exact .inr zero
      · rw [if_neg zero] at clear
        exact .inl (other (by simp) clear)

/-- From the creation of a notification on: a call past its loop has seen the
counter at zero, and an operation older than the run is then over for good. -/
theorem Runs.seen {visited : List IoScope} (runs : Runs first visited last) (sound : Sound first)
    {task : Nat} (began : first.waiters task ≠ some .clear) :
    first.started ≤ last.started ∧
      (last.waiters task = some .clear → ∃ scope ∈ visited, scope.pending = 0) ∧
      ((∃ scope ∈ visited, scope.pending = 0) →
        ∀ operation, operation < first.started → operation ∉ last.running) := by
  have idle : ∀ {scope : IoScope}, Sound scope → scope.pending = 0 →
      ∀ operation, operation ∉ scope.running := by
    intro scope sound zero operation member
    rw [sound.pending, Finset.card_eq_zero] at zero
    simp [zero] at member
  induction runs with
  | refl =>
      refine ⟨Nat.le_refl _, fun clear => absurd clear began, ?_⟩
      rintro ⟨scope, visited, zero⟩ operation _
      rw [List.mem_singleton.mp visited] at zero
      exact idle sound zero operation
  | @step visited scope event scope' runs step inductionHypothesis =>
      obtain ⟨older, saw, gone⟩ := inductionHypothesis
      refine ⟨older.trans step.started_le, ?_, ?_⟩
      · intro clear
        obtain earlier | zero := step.of_clear clear
        · obtain ⟨seen, member, zero⟩ := saw earlier
          exact ⟨seen, List.mem_cons_of_mem _ member, zero⟩
        · exact ⟨scope, List.mem_cons_of_mem _ runs.mem_visited, zero⟩
      · rintro ⟨seen, member, zero⟩ operation old
        obtain rfl | member := List.mem_cons.mp member
        · exact idle ((runs.sound sound).step step) zero operation
        · exact step.not_running (old.trans_le older) (gone ⟨seen, member, zero⟩ operation old)

theorem Attended.step {task : Nat} (attended : Attended scope task)
    (step : Step scope event scope') : Attended scope' task := by
  -- a change of a task that is not left suspended concerns nobody
  have other : ∀ {changed : Nat} {stage : Option Waiting}, stage ≠ some (.suspended false) →
      Attended (scope.setWaiter changed stage) task := by
    intro changed stage awake sleeps
    by_cases same : task = changed
    · subst same
      exact absurd ((setWaiter_same ..).symm.trans sleeps) awake
    · rw [setWaiter_of_ne scope stage same] at sleeps
      exact attended sleeps
  cases step with
  | start => exact fun _ => .inl (Nat.succ_pos _)
  | @finish operation owns =>
      intro sleeps
      by_cases last : scope.pending = 1
      · exact .inr ⟨operation, by simp [last]⟩
      · obtain more | waiting := attended sleeps
        · refine .inl ?_
          simp only
          omega
        · exact .inr (by rwa [if_neg last])
  | notify _ =>
      intro sleeps
      obtain ⟨stage, -, notified⟩ := Option.map_eq_some_iff.mp sleeps
      cases stage <;> cases notified
  | call => exact other (by simp)
  | enable _ _ | wake _ | drop _ | returned _ => exact other (by simp)
  | @load task' notified waits =>
      intro sleeps
      by_cases zero : scope.pending = 0
      · exact other (by simp [zero]) sleeps
      · exact .inl (Nat.pos_of_ne_zero zero)

theorem Runs.attended {visited : List IoScope} (runs : Runs new visited last) (task : Nat) :
    Attended last task := by
  induction runs with
  | refl => exact fun sleeps => nomatch sleeps
  | step _ step inductionHypothesis => exact inductionHypothesis.step step

/-- `idle` returns only after a moment of its call at which no operation was
pending, hence after every older operation dropped its guard; and while a task
sleeps un-notified, an operation is pending or the last one is about to notify. -/
theorem idle_exact :
    (∀ {earlier visited : List IoScope} {before first last after : IoScope} {task : Nat},
      Runs new earlier before → Step before (.call task) first → Runs first visited last →
      Step last (.returned task) after →
      (∃ scope ∈ visited, scope.pending = 0) ∧
        ∀ operation, operation < before.started → operation ∉ last.running) ∧
    ∀ {visited : List IoScope} {scope : IoScope} {task : Nat}, Runs new visited scope →
      scope.waiters task = some (.suspended false) →
      0 < scope.pending ∨ scope.notifying.Nonempty := by
  constructor
  · intro earlier visited before first last after task reached called runs returned
    have sound := (reached.sound sound_new).step called
    cases called
    cases returned with
    | returned clear =>
        have began : (before.setWaiter before.called (some .created)).waiters before.called ≠
            some .clear := by
          simp
        obtain ⟨-, saw, gone⟩ := runs.seen sound began
        exact ⟨saw clear, gone (saw clear)⟩
  · intro visited scope task runs sleeps
    exact runs.attended task sleeps

end IoScope

end SortGovernor.Runtime
