import SortGovernor.Engine.Basic
import Mathlib.Algebra.Group.Nat.Defs
import Mathlib.Algebra.GroupWithZero.Nat
import Mathlib.Order.Nat
import Mathlib.Data.List.Nodup

/-!
# The byte budget under concurrent reservations

Any number of calls of `reserve` run their loops side by side while charges are
dropped and the memory pressure changes.  One step is one access to an atomic:
a load, a reading of the limit, a compare-exchange that may fail spuriously, the
update of the peak, or the subtraction of a dropped charge.
-/

namespace SortGovernor.Runtime

open SortGovernor.Engine

/-- The fixed part of a budget; a governed one also follows the pressure. -/
structure MemoryBudget where
  limit : Nat
  governed : Bool
  limit_le : limit ≤ u64Max

namespace MemoryBudget

/-- `MemoryBudget::limit` at one reading of the pressure. -/
def limitAt (budget : MemoryBudget) (target resident : Nat) : Nat :=
  if budget.governed then min budget.limit (target - resident) else budget.limit

theorem limitAt_le (budget : MemoryBudget) (target resident : Nat) :
    budget.limitAt target resident ≤ budget.limit := by
  unfold limitAt
  split
  · exact Nat.min_le_left ..
  · exact Nat.le_refl _

/-- Where a call of `reserve` stands: before its first load, at the top of the
loop, before its compare-exchange, and before it records the peak. -/
inductive Stage where
  | load (bytes : Nat)
  | limit (bytes previous : Nat)
  | exchange (bytes previous limit next : Nat)
  | record (bytes next : Nat)
  deriving DecidableEq, Repr

def Stage.committed : Stage → Nat
  | record bytes _ => bytes
  | _ => 0

/-- The value a call has put into the counter and not yet into the peak. -/
def Stage.unrecorded : Stage → Option Nat
  | record _ next => some next
  | _ => none

structure Call where
  id : Nat
  stage : Stage
  deriving DecidableEq, Repr

structure State where
  used : Nat
  peak : Nat
  calls : List Call
  charges : List MemoryCharge
  started : Nat
  deriving DecidableEq, Repr

def State.new : State := { used := 0, peak := 0, calls := [], charges := [], started := 0 }

/-- A call of `reserve` or of `reserve_frame`. -/
inductive Demand where
  | bytes (bytes : Nat)
  | frame (bytes : Nat)
  deriving DecidableEq, Repr

/-- The bytes a call reserves, or none where it reports `RunLimit`. -/
def Demand.working : Demand → Option Nat
  | bytes count => tryFrom u64Max count
  | frame count => (Engine.MemoryBudget.frameBytes count).bind (tryFrom u64Max)

/-- `fetch_sub` on a word. -/
def fetchSub (used bytes : Nat) : Nat := (used + (u64Max + 1) - bytes) % (u64Max + 1)

inductive Event where
  | reserve (id : Nat) (demand : Demand)
  | load (id : Nat)
  | limit (id limit : Nat)
  | exchange (id : Nat) (succeeded : Bool)
  | returned (id : Nat) (result : Except SorterError MemoryCharge)
  | drop (charge : MemoryCharge)

def Event.id : Event → Option Nat
  | reserve id _ | load id | limit id _ | exchange id _ | returned id _ => some id
  | drop _ => none

/-- One step of one call, or of the drop of a charge. -/
inductive Step (budget : MemoryBudget) : State → Event → State → Prop where
  | reserve {state} {demand : Demand} {bytes} : demand.working = some bytes →
      Step budget state (.reserve state.started demand)
        { state with
          calls := state.calls ++ [⟨state.started, .load bytes⟩]
          started := state.started + 1 }
  | tooLong {state} {demand : Demand} : demand.working = none →
      Step budget state (.returned state.started (.error .runLimit))
        { state with started := state.started + 1 }
  | load {state before after id bytes} :
      state.calls = before ++ ⟨id, .load bytes⟩ :: after →
      Step budget state (.load id)
        { state with calls := before ++ ⟨id, .limit bytes state.used⟩ :: after }
  | limit {state before after id bytes previous next} (target resident : Nat) :
      state.calls = before ++ ⟨id, .limit bytes previous⟩ :: after →
      ((checkedAdd u64Max previous bytes).filter fun next =>
        next ≤ budget.limitAt target resident) = some next →
      Step budget state (.limit id (budget.limitAt target resident))
        { state with calls := before ++
            ⟨id, .exchange bytes previous (budget.limitAt target resident) next⟩ :: after }
  | refuse {state before after id bytes previous} (target resident : Nat) :
      state.calls = before ++ ⟨id, .limit bytes previous⟩ :: after →
      ((checkedAdd u64Max previous bytes).filter fun next =>
        next ≤ budget.limitAt target resident) = none →
      Step budget state
        (.returned id (.error (.memoryBudget bytes (budget.limitAt target resident - previous))))
        { state with calls := before ++ after }
  | exchange {state before after id bytes previous limit next} :
      state.calls = before ++ ⟨id, .exchange bytes previous limit next⟩ :: after →
      state.used = previous →
      Step budget state (.exchange id true)
        { state with used := next, calls := before ++ ⟨id, .record bytes next⟩ :: after }
  | exchangeFails {state before after id bytes previous limit next} :
      state.calls = before ++ ⟨id, .exchange bytes previous limit next⟩ :: after →
      Step budget state (.exchange id false)
        { state with calls := before ++ ⟨id, .limit bytes state.used⟩ :: after }
  | record {state before after id bytes next} :
      state.calls = before ++ ⟨id, .record bytes next⟩ :: after →
      Step budget state (.returned id (.ok ⟨bytes⟩))
        { state with
          peak := max state.peak next
          calls := before ++ after
          charges := ⟨bytes⟩ :: state.charges }
  | drop {state before charge after} :
      state.charges = before ++ charge :: after →
      Step budget state (.drop charge)
        { state with used := fetchSub state.used charge.bytes, charges := before ++ after }

/-- A run: the events so far and every value the counter has had. -/
inductive Runs (budget : MemoryBudget) : List Event → List Nat → State → Prop where
  | new : Runs budget [] [0] .new
  | step {events values state event state'} :
      Runs budget events values state → Step budget state event state' →
      Runs budget (event :: events) (state'.used :: values) state'

def State.charged (state : State) : Nat :=
  (state.calls.map fun call => call.stage.committed).sum +
    (state.charges.map fun charge => charge.bytes).sum

/-- What a call carries from its loads. -/
def Stage.Sound (budget : MemoryBudget) : Stage → Prop
  | exchange bytes previous read next =>
      next = previous + bytes ∧ next ≤ read ∧ read ≤ budget.limit
  | _ => True

/-- The counter is the sum of the charges and stays within the configured limit. -/
structure Accounted (budget : MemoryBudget) (state : State) : Prop where
  used : state.used = state.charged
  within : state.used ≤ budget.limit
  calls : ∀ call ∈ state.calls, call.stage.Sound budget

section Steps

variable {budget : MemoryBudget} {state state' : State} {event : Event}

theorem fetchSub_eq {used bytes : Nat} (fits : bytes ≤ used) (word : used ≤ u64Max) :
    fetchSub used bytes = used - bytes := by
  unfold fetchSub
  rw [show used + (u64Max + 1) - bytes = used - bytes + (u64Max + 1) by omega,
    Nat.add_mod_right, Nat.mod_eq_of_lt (by omega)]

theorem reserve_eq_ok {previous bytes limit next : Nat}
    (fits : (checkedAdd u64Max previous bytes).filter (fun next => next ≤ limit) = some next) :
    Engine.MemoryBudget.reserve limit previous bytes = .ok ⟨bytes⟩ ∧
      next = previous + bytes ∧ next ≤ limit := by
  have found := fits
  rw [Option.filter_eq_some_iff, checkedAdd_eq_some] at found
  obtain ⟨⟨-, rfl⟩, bounded⟩ := found
  refine ⟨?_, rfl, of_decide_eq_true bounded⟩
  rw [Engine.MemoryBudget.reserve, fits]

theorem mem_charged_le {charge : MemoryCharge} (member : charge ∈ state.charges) :
    charge.bytes ≤ state.charged := by
  obtain ⟨before, after, split⟩ := List.append_of_mem member
  simp only [State.charged, split, List.map_append, List.map_cons, List.sum_append, List.sum_cons]
  omega

theorem Accounted.fetchSub (accounted : Accounted budget state) {charge : MemoryCharge}
    (member : charge ∈ state.charges) :
    fetchSub state.used charge.bytes + charge.bytes = state.used := by
  have word : state.used ≤ u64Max := accounted.within.trans budget.limit_le
  have fits : charge.bytes ≤ state.used := accounted.used ▸ mem_charged_le member
  rw [fetchSub_eq fits word, Nat.sub_add_cancel fits]

theorem Accounted.restage {before after : List Call} {id : Nat} {stage stage' : Stage}
    (accounted : Accounted budget state) (split : state.calls = before ++ ⟨id, stage⟩ :: after)
    (split' : state'.calls = before ++ ⟨id, stage'⟩ :: after) (sound : stage'.Sound budget)
    (charges : state'.charges = state.charges)
    (used : state'.used + stage.committed = state.used + stage'.committed)
    (within : state'.used ≤ budget.limit) : Accounted budget state' := by
  constructor
  · have total := accounted.used
    simp only [State.charged, split, split', charges, List.map_append, List.map_cons,
      List.sum_append, List.sum_cons] at total ⊢
    omega
  · exact within
  · intro call member
    rw [split', List.mem_append, List.mem_cons] at member
    obtain member | rfl | member := member
    · exact accounted.calls call (by simp [split, member])
    · exact sound
    · exact accounted.calls call (by simp [split, member])

theorem accounted_new : Accounted budget .new where
  used := rfl
  within := Nat.zero_le _
  calls _ member := absurd member List.not_mem_nil

/-- Every step keeps the counter equal to the sum of the charges. -/
theorem Accounted.step (accounted : Accounted budget state)
    (step : Step budget state event state') :
    Accounted budget state' := by
  cases step with
  | reserve admitted =>
      constructor
      · have total := accounted.used
        simp only [State.charged, List.map_append, List.map_cons, List.map_nil, List.sum_append,
          List.sum_cons, List.sum_nil, Stage.committed] at total ⊢
        omega
      · exact accounted.within
      · intro call member
        rw [List.mem_append, List.mem_singleton] at member
        obtain member | rfl := member
        · exact accounted.calls call member
        · trivial
  | tooLong refused => exact ⟨accounted.used, accounted.within, accounted.calls⟩
  | load split => exact accounted.restage split rfl trivial rfl rfl accounted.within
  | limit target resident split fits =>
      obtain ⟨-, sum, bounded⟩ := reserve_eq_ok fits
      exact accounted.restage split rfl ⟨sum, bounded, budget.limitAt_le target resident⟩ rfl rfl
        accounted.within
  | @refuse before after id bytes previous target resident split refused =>
      constructor
      · have total := accounted.used
        simp only [State.charged, split, List.map_append, List.map_cons, List.sum_append,
          List.sum_cons, Stage.committed] at total ⊢
        omega
      · exact accounted.within
      · intro call member
        apply accounted.calls
        rw [split, List.mem_append, List.mem_cons]
        rw [List.mem_append] at member
        tauto
  | @exchange before after id bytes previous limit next split current =>
      obtain ⟨rfl, bounded, read⟩ :=
        accounted.calls ⟨id, .exchange bytes previous limit next⟩ (by simp [split])
      refine accounted.restage split rfl trivial rfl ?_ (bounded.trans read)
      simp only [Stage.committed]
      omega
  | exchangeFails split => exact accounted.restage split rfl trivial rfl rfl accounted.within
  | @record before after id bytes next split =>
      constructor
      · have total := accounted.used
        simp only [State.charged, split, List.map_append, List.map_cons, List.sum_append,
          List.sum_cons, Stage.committed] at total ⊢
        omega
      · exact accounted.within
      · intro call member
        apply accounted.calls
        rw [split, List.mem_append, List.mem_cons]
        rw [List.mem_append] at member
        tauto
  | @drop before charge after split =>
      have member : charge ∈ state.charges := by simp [split]
      have returned := accounted.fetchSub member
      have total := accounted.used
      constructor
      · simp only [State.charged, split, List.map_append, List.map_cons, List.sum_append,
          List.sum_cons] at total ⊢
        omega
      · exact (Nat.le_add_right _ _).trans (returned.le.trans accounted.within)
      · exact accounted.calls

end Steps

section Peak

variable {budget : MemoryBudget} {state state' : State} {event : Event} {values : List Nat}

def State.unrecorded (state : State) : List Nat :=
  state.calls.filterMap fun call => call.stage.unrecorded

/-- The peak is a value the counter had, and the highest one but for those whose
calls have yet to record them. -/
structure Peaked (values : List Nat) (state : State) : Prop where
  known : state.peak ∈ values
  current : state.used ∈ values
  pending : ∀ next ∈ state.unrecorded, next ∈ values
  highest : ∀ value ∈ values, value ≤ state.peak ∨ ∃ next ∈ state.unrecorded, value ≤ next

theorem peaked_new : Peaked [0] .new where
  known := List.mem_cons_self
  current := List.mem_cons_self
  pending _ member := absurd member List.not_mem_nil
  highest _ member := .inl (List.mem_singleton.mp member).le

theorem Peaked.keep (peaked : Peaked values state) (peak : state'.peak = state.peak)
    (unrecorded : state'.unrecorded = state.unrecorded)
    (used : state'.used ∈ values ∨ state'.used ≤ state.used) :
    Peaked (state'.used :: values) state' := by
  constructor
  · rw [peak]
    exact List.mem_cons_of_mem _ peaked.known
  · exact List.mem_cons_self
  · rw [unrecorded]
    exact fun next member => List.mem_cons_of_mem _ (peaked.pending next member)
  · intro value member
    rw [peak, unrecorded]
    obtain rfl | member := List.mem_cons.mp member
    · obtain known | lower := used
      · exact peaked.highest _ known
      · obtain bounded | ⟨next, member, bounded⟩ := peaked.highest _ peaked.current
        · exact .inl (lower.trans bounded)
        · exact .inr ⟨next, member, lower.trans bounded⟩
    · exact peaked.highest value member

theorem Peaked.step (peaked : Peaked values state) (accounted : Accounted budget state)
    (step : Step budget state event state') : Peaked (state'.used :: values) state' := by
  cases step with
  | reserve admitted =>
      exact peaked.keep rfl (by simp [State.unrecorded, Stage.unrecorded]) (.inl peaked.current)
  | tooLong refused => exact peaked.keep rfl rfl (.inl peaked.current)
  | load split | limit target resident split fits | refuse target resident split refused
  | exchangeFails split =>
      exact peaked.keep rfl (by simp [State.unrecorded, split, Stage.unrecorded])
        (.inl peaked.current)
  | @exchange before after id bytes previous limit next split current =>
      have pending : ∀ value, value ∈ State.unrecorded
          { state with used := next, calls := before ++ ⟨id, .record bytes next⟩ :: after } ↔
          value = next ∨ value ∈ state.unrecorded := by
        intro value
        simp only [State.unrecorded, split, List.filterMap_append, List.filterMap_cons,
          Stage.unrecorded, List.mem_append, List.mem_cons]
        tauto
      constructor
      · exact List.mem_cons_of_mem _ peaked.known
      · exact List.mem_cons_self
      · intro value member
        rw [pending] at member
        exact List.mem_cons.mpr (member.imp_right (peaked.pending value))
      · intro value member
        obtain same | member := List.mem_cons.mp member
        · exact .inr ⟨next, (pending next).mpr (.inl rfl), same.le⟩
        · refine (peaked.highest value member).imp_right ?_
          rintro ⟨other, member, bounded⟩
          exact ⟨other, (pending other).mpr (.inr member), bounded⟩
  | @record before after id bytes next split =>
      have pending : ∀ value, value ∈ state.unrecorded ↔
          value = next ∨ value ∈ State.unrecorded
            { state with peak := max state.peak next, calls := before ++ after,
                         charges := ⟨bytes⟩ :: state.charges } := by
        intro value
        simp only [State.unrecorded, split, List.filterMap_append, List.filterMap_cons,
          Stage.unrecorded, List.mem_append, List.mem_cons]
        tauto
      constructor
      · apply List.mem_cons_of_mem
        obtain higher | higher := Nat.le_total state.peak next
        · simpa only [Nat.max_eq_right higher] using
            peaked.pending next ((pending next).mpr (.inl rfl))
        · simpa only [Nat.max_eq_left higher] using peaked.known
      · exact List.mem_cons_self
      · exact fun value member =>
          List.mem_cons_of_mem _ (peaked.pending value ((pending value).mpr (.inr member)))
      · intro value member
        have known : value ∈ values := by
          obtain rfl | member := List.mem_cons.mp member
          · exact peaked.current
          · exact member
        obtain bounded | ⟨other, member, bounded⟩ := peaked.highest value known
        · exact .inl (bounded.trans (le_max_left _ _))
        · obtain rfl | member := (pending other).mp member
          · exact .inl (bounded.trans (le_max_right _ _))
          · exact .inr ⟨other, member, bounded⟩
  | @drop before charge after split =>
      have member : charge ∈ state.charges := by simp [split]
      have returned := accounted.fetchSub member
      refine peaked.keep rfl ?_ (.inr ((Nat.le_add_right _ _).trans returned.le))
      rw [State.unrecorded, State.unrecorded]

end Peak

section Trace

variable {budget : MemoryBudget} {state state' : State} {event : Event} {events : List Event}

/-- What the events so far say about the calls in progress. -/
structure Traced (events : List Event) (state : State) : Prop where
  fresh : ∀ event ∈ events, ∀ id, event.id = some id → id < state.started
  known : ∀ call ∈ state.calls, call.id < state.started
  once : (state.calls.map Call.id).Nodup
  reading : ∀ call ∈ state.calls, ∀ bytes previous limit next,
    call.stage = .exchange bytes previous limit next →
    events.find? (fun event => event.id = some call.id) = some (.limit call.id limit)
  uncommitted : ∀ call ∈ state.calls, call.stage.unrecorded = none →
    .exchange call.id true ∉ events
  running : ∀ call ∈ state.calls, ∀ result, .returned call.id result ∉ events
  refused : ∀ id error, .returned id (.error error) ∈ events →
    .exchange id true ∉ events ∧ ∀ charge, .returned id (.ok charge) ∉ events

theorem traced_new : Traced [] .new where
  fresh _ member := absurd member List.not_mem_nil
  known _ member := absurd member List.not_mem_nil
  once := List.nodup_nil
  reading _ member := absurd member List.not_mem_nil
  uncommitted _ member := absurd member List.not_mem_nil
  running _ member := absurd member List.not_mem_nil
  refused _ _ member := absurd member List.not_mem_nil

theorem Traced.others (traced : Traced events state) {before after : List Call} {call : Call}
    (split : state.calls = before ++ call :: after) :
    ∀ other ∈ before ++ after, other ∈ state.calls ∧ other.id ≠ call.id := by
  have once := traced.once
  rw [split, List.map_append, List.map_cons, List.nodup_middle, List.nodup_cons] at once
  intro other member
  constructor
  · rw [split, List.mem_append, List.mem_cons]
    rw [List.mem_append] at member
    tauto
  · intro same
    apply once.1
    rw [← List.map_append, ← same]
    exact List.mem_map_of_mem member

/-- A step of a call that goes on. -/
theorem Traced.advance (traced : Traced events state) {before after : List Call} {id : Nat}
    {stage stage' : Stage} (split : state.calls = before ++ ⟨id, stage⟩ :: after)
    (split' : state'.calls = before ++ ⟨id, stage'⟩ :: after)
    (started : state'.started = state.started) (ofCall : event.id = some id)
    (returns : ∀ result, event ≠ .returned id result)
    (commits : stage'.unrecorded = none → stage.unrecorded = none ∧ event ≠ .exchange id true)
    (reads : ∀ bytes previous limit next, stage' = .exchange bytes previous limit next →
      event = .limit id limit) : Traced (event :: events) state' := by
  have others := traced.others split
  have own : (⟨id, stage⟩ : Call) ∈ state.calls := by simp [split]
  have cases : ∀ call ∈ state'.calls, call = ⟨id, stage'⟩ ∨ call ∈ state.calls ∧ call.id ≠ id := by
    intro call member
    rw [split', List.mem_append, List.mem_cons] at member
    obtain member | rfl | member := member
    · exact .inr (others call (List.mem_append_left _ member))
    · exact .inl rfl
    · exact .inr (others call (List.mem_append_right _ member))
  have ofOther : ∀ {other : Nat} {known : Event}, other ≠ id → known.id = some other →
      known ≠ event := by
    rintro other known different belongs rfl
    exact different (Option.some.inj (belongs.symm.trans ofCall))
  have old : ∀ {other result}, .returned other result ∈ event :: events →
      .returned other result ∈ events := by
    intro other result member
    obtain rfl | member := List.mem_cons.mp member
    · obtain rfl : other = id := Option.some.inj ofCall
      exact absurd rfl (returns result)
    · exact member
  constructor
  · intro known member other belongs
    rw [started]
    obtain rfl | member := List.mem_cons.mp member
    · obtain rfl : id = other := Option.some.inj (ofCall.symm.trans belongs)
      exact traced.known _ own
    · exact traced.fresh known member other belongs
  · intro call member
    rw [started]
    obtain rfl | ⟨member, -⟩ := cases call member
    · exact (traced.known _ own : id < _)
    · exact traced.known call member
  · have once := traced.once
    rw [split] at once
    rw [split']
    simpa using once
  · intro call member bytes previous limit next stands
    obtain rfl | ⟨member, different⟩ := cases call member
    · rw [reads bytes previous limit next stands]
      exact List.find?_cons_of_pos (decide_eq_true rfl)
    · rw [List.find?_cons_of_neg]
      · exact traced.reading call member bytes previous limit next stands
      · rw [ofCall, decide_eq_true_eq, Option.some.injEq]
        exact different.symm
  · intro call member pending known
    obtain rfl | ⟨member, different⟩ := cases call member
    · obtain ⟨before, differs⟩ := commits pending
      obtain same | known := List.mem_cons.mp known
      · exact differs same.symm
      · exact traced.uncommitted _ own before known
    · obtain same | known := List.mem_cons.mp known
      · exact ofOther different rfl same
      · exact traced.uncommitted call member pending known
  · intro call member result known
    obtain rfl | ⟨member, -⟩ := cases call member
    · exact traced.running _ own result (old known)
    · exact traced.running call member result (old known)
  · intro other error known
    have refused := traced.refused other error (old known)
    refine ⟨fun member => ?_, fun charge member => refused.2 charge (old member)⟩
    obtain rfl | member := List.mem_cons.mp member
    · obtain rfl : other = id := Option.some.inj ofCall
      exact traced.running _ own _ (old known)
    · exact refused.1 member

/-- A step in which a call returns. -/
theorem Traced.return (traced : Traced events state) {before after : List Call} {id : Nat}
    {stage : Stage} {result : Except SorterError MemoryCharge}
    (split : state.calls = before ++ ⟨id, stage⟩ :: after)
    (split' : state'.calls = before ++ after) (started : state'.started = state.started)
    (refuses : ∀ error, result = .error error → stage.unrecorded = none) :
    Traced (.returned id result :: events) state' := by
  have others := traced.others split
  have own : (⟨id, stage⟩ : Call) ∈ state.calls := by simp [split]
  rw [← split'] at others
  constructor
  · intro known member other belongs
    rw [started]
    obtain rfl | member := List.mem_cons.mp member
    · obtain rfl : id = other := Option.some.inj belongs
      exact traced.known _ own
    · exact traced.fresh known member other belongs
  · intro call member
    rw [started]
    exact traced.known call (others call member).1
  · have once := traced.once
    rw [split, List.map_append, List.map_cons, List.nodup_middle, List.nodup_cons,
      ← List.map_append, ← split'] at once
    exact once.2
  · intro call member bytes previous limit next stands
    obtain ⟨known, different⟩ := others call member
    rw [List.find?_cons_of_neg]
    · exact traced.reading call known bytes previous limit next stands
    · simpa [Event.id] using different.symm
  · intro call member pending known
    obtain same | known := List.mem_cons.mp known
    · cases same
    · exact traced.uncommitted call (others call member).1 pending known
  · intro call member other known
    obtain ⟨member, different⟩ := others call member
    obtain same | known := List.mem_cons.mp known
    · cases same
      exact different rfl
    · exact traced.running call member other known
  · intro other error known
    obtain same | known := List.mem_cons.mp known
    · cases same
      constructor
      · intro member
        obtain same | member := List.mem_cons.mp member
        · cases same
        · exact traced.uncommitted _ own (refuses error rfl) member
      · intro charge member
        obtain same | member := List.mem_cons.mp member
        · cases same
        · exact traced.running _ own _ member
    · obtain ⟨uncommitted, unreturned⟩ := traced.refused other error known
      constructor
      · intro member
        obtain same | member := List.mem_cons.mp member
        · cases same
        · exact uncommitted member
      · intro charge member
        obtain same | member := List.mem_cons.mp member
        · cases same
          exact (traced.running _ own _ : .returned id _ ∉ events) ‹_›
        · exact unreturned charge member

theorem Traced.unused (traced : Traced events state) (known : Event)
    (ofNext : known.id = some state.started) : known ∉ events :=
  fun member => absurd (traced.fresh known member _ ofNext) (Nat.lt_irrefl _)

/-- A call begins. -/
theorem Traced.begin (traced : Traced events state) {demand : Demand} {bytes : Nat}
    (calls : state'.calls = state.calls ++ [⟨state.started, .load bytes⟩])
    (started : state'.started = state.started + 1) :
    Traced (.reserve state.started demand :: events) state' := by
  constructor
  · intro known member id belongs
    rw [started]
    obtain rfl | member := List.mem_cons.mp member
    · cases belongs
      exact Nat.lt_succ_self _
    · exact Nat.lt_succ_of_lt (traced.fresh known member id belongs)
  · intro call member
    rw [started]
    rw [calls, List.mem_append, List.mem_singleton] at member
    obtain member | rfl := member
    · exact Nat.lt_succ_of_lt (traced.known call member)
    · exact Nat.lt_succ_self _
  · rw [calls, List.map_append, List.map_singleton, List.nodup_append]
    refine ⟨traced.once, List.nodup_singleton _, ?_⟩
    intro id member other same
    obtain ⟨call, found, rfl⟩ := List.mem_map.mp member
    rw [List.mem_singleton.mp same]
    exact (traced.known call found).ne
  · intro call member read previous limit next stands
    rw [calls, List.mem_append, List.mem_singleton] at member
    obtain member | rfl := member
    · rw [List.find?_cons_of_neg]
      · exact traced.reading call member read previous limit next stands
      · simpa [Event.id] using (traced.known call member).ne'
    · cases stands
  · intro call member pending known
    rw [calls, List.mem_append, List.mem_singleton] at member
    have known : Event.exchange call.id true ∈ events := by simpa using known
    obtain member | rfl := member
    · exact traced.uncommitted call member pending known
    · exact traced.unused _ rfl known
  · intro call member result known
    rw [calls, List.mem_append, List.mem_singleton] at member
    have known : Event.returned call.id result ∈ events := by simpa using known
    obtain member | rfl := member
    · exact traced.running call member result known
    · exact traced.unused _ rfl known
  · intro id error known
    simpa using traced.refused id error (by simpa using known)

/-- A call returns before its loop. -/
theorem Traced.reject (traced : Traced events state) {error : SorterError}
    (calls : state'.calls = state.calls) (started : state'.started = state.started + 1) :
    Traced (.returned state.started (.error error) :: events) state' := by
  constructor
  · intro known member id belongs
    rw [started]
    obtain rfl | member := List.mem_cons.mp member
    · cases belongs
      exact Nat.lt_succ_self _
    · exact Nat.lt_succ_of_lt (traced.fresh known member id belongs)
  · rw [calls, started]
    exact fun call member => Nat.lt_succ_of_lt (traced.known call member)
  · rw [calls]
    exact traced.once
  · rw [calls]
    intro call member bytes previous limit next stands
    rw [List.find?_cons_of_neg]
    · exact traced.reading call member bytes previous limit next stands
    · simpa [Event.id] using (traced.known call member).ne'
  · rw [calls]
    intro call member pending known
    exact traced.uncommitted call member pending (by simpa using known)
  · rw [calls]
    intro call member result known
    obtain same | known := List.mem_cons.mp known
    · obtain ⟨same, -⟩ := Event.returned.inj same
      exact (traced.known call member).ne same
    · exact traced.running call member result known
  · intro id reason known
    obtain same | known := List.mem_cons.mp known
    · cases same
      simpa using ⟨traced.unused (.exchange _ true) rfl, fun charge =>
        traced.unused (.returned _ (.ok charge)) rfl⟩
    · simpa using traced.refused id reason known

theorem Traced.drop (traced : Traced events state) {charge : MemoryCharge}
    (calls : state'.calls = state.calls) (started : state'.started = state.started) :
    Traced (.drop charge :: events) state' := by
  constructor
  · intro known member id belongs
    rw [started]
    obtain rfl | member := List.mem_cons.mp member
    · cases belongs
    · exact traced.fresh known member id belongs
  · rw [calls, started]
    exact traced.known
  · rw [calls]
    exact traced.once
  · rw [calls]
    intro call member bytes previous limit next stands
    rw [List.find?_cons_of_neg (by simp [Event.id])]
    exact traced.reading call member bytes previous limit next stands
  · rw [calls]
    intro call member pending known
    exact traced.uncommitted call member pending (by simpa using known)
  · rw [calls]
    intro call member result known
    exact traced.running call member result (by simpa using known)
  · intro id error known
    simpa using traced.refused id error (by simpa using known)

theorem Traced.step (traced : Traced events state) (step : Step budget state event state') :
    Traced (event :: events) state' := by
  cases step with
  | reserve admitted => exact traced.begin rfl rfl
  | tooLong refused => exact traced.reject rfl rfl
  | load split =>
      exact traced.advance split rfl rfl rfl (fun _ => Event.noConfusion)
        (fun _ => ⟨rfl, Event.noConfusion⟩) (fun _ _ _ _ => Stage.noConfusion)
  | limit target resident split fits =>
      refine traced.advance split rfl rfl rfl (fun _ => Event.noConfusion)
        (fun _ => ⟨rfl, Event.noConfusion⟩) ?_
      rintro _ _ _ _ ⟨⟩
      rfl
  | refuse target resident split refused => exact traced.return split rfl rfl fun _ _ => rfl
  | exchange split current =>
      exact traced.advance split rfl rfl rfl (fun _ => Event.noConfusion)
        (fun pending => by cases pending) (fun _ _ _ _ => Stage.noConfusion)
  | exchangeFails split =>
      exact traced.advance split rfl rfl rfl (fun _ => Event.noConfusion)
        (fun _ => ⟨rfl, by simp⟩) (fun _ _ _ _ => Stage.noConfusion)
  | record split => exact traced.return split rfl rfl fun _ failed => by cases failed
  | drop split => exact traced.drop rfl rfl

end Trace

section Accounting

variable {budget : MemoryBudget} {events : List Event} {values : List Nat} {state : State}

theorem Runs.accounted (runs : Runs budget events values state) : Accounted budget state := by
  induction runs with
  | new => exact accounted_new
  | step _ step inductionHypothesis => exact inductionHypothesis.step step

theorem Runs.peaked (runs : Runs budget events values state) : Peaked values state := by
  induction runs with
  | new => exact peaked_new
  | step runs step inductionHypothesis => exact inductionHypothesis.step runs.accounted step

theorem Runs.traced (runs : Runs budget events values state) : Traced events state := by
  induction runs with
  | new => exact traced_new
  | step _ step inductionHypothesis => exact inductionHypothesis.step step

/-- The events that change the counter, the peak or the charges. -/
def Event.Effective : Event → Prop
  | exchange _ true | returned _ (.ok _) | drop _ => True
  | _ => False

theorem Step.unchanged {event : Event} {state' : State} (step : Step budget state event state')
    (idle : ¬event.Effective) :
    state'.used = state.used ∧ state'.peak = state.peak ∧ state'.charges = state.charges := by
  cases step with
  | exchange | record | drop => exact absurd trivial idle
  | _ => exact ⟨rfl, rfl, rfl⟩

theorem Accounted.commits (accounted : Accounted budget state) (traced : Traced events state)
    {id : Nat} {state' : State} (step : Step budget state (.exchange id true) state') :
    ∃ bytes limit, events.find? (fun event => event.id = some id) = some (.limit id limit) ∧
      state'.used = state.used + bytes ∧ state'.used ≤ limit ∧
      state'.charged = state.charged + bytes := by
  have after := accounted.step step
  cases step with
  | @exchange before after id bytes previous limit next split current =>
      have member : (⟨id, .exchange bytes previous limit next⟩ : Call) ∈ state.calls := by
        simp [split]
      obtain ⟨rfl, bounded, -⟩ := accounted.calls _ member
      refine ⟨bytes, limit, traced.reading _ member bytes previous limit _ rfl, ?_, bounded, ?_⟩
      · simp only [current]
      · rw [← after.used, ← accounted.used, current]

theorem Accounted.grows (accounted : Accounted budget state) {event : Event} {state' : State}
    (step : Step budget state event state') (more : state.used < state'.used) :
    ∃ id, event = .exchange id true := by
  cases step with
  | @exchange before after id => exact ⟨id, rfl⟩
  | @drop before charge after split =>
      have member : charge ∈ state.charges := by simp [split]
      have returned := accounted.fetchSub member
      simp only at more
      omega
  | _ => exact absurd more (Nat.lt_irrefl _)

/-- The counter is the sum of the charges and within the limit, never wraps, grows
only within a limit just read, does not change for a refused call, and the peak
is its highest value whenever every call has recorded it. -/
theorem budget_accounting (runs : Runs budget events values state) :
    (state.used = state.charged ∧ state.used ≤ budget.limit ∧ state.used ≤ u64Max) ∧
      (∀ charge ∈ state.charges,
        fetchSub state.used charge.bytes + charge.bytes = state.used) ∧
      (∀ id state', Step budget state (.exchange id true) state' →
        ∃ bytes limit, events.find? (fun event => event.id = some id) = some (.limit id limit) ∧
          state'.used = state.used + bytes ∧ state'.used ≤ limit ∧
          state'.charged = state.charged + bytes) ∧
      (∀ event state', Step budget state event state' → state.used < state'.used →
        ∃ id, event = .exchange id true) ∧
      (∀ event state', Step budget state event state' → ¬event.Effective →
        state'.used = state.used ∧ state'.peak = state.peak ∧ state'.charges = state.charges) ∧
      (∀ id error, .returned id (.error error) ∈ events →
        ∀ event ∈ events, event.id = some id → ¬event.Effective) ∧
      (state.unrecorded = [] →
        state.peak ∈ values ∧ ∀ value ∈ values, value ≤ state.peak) := by
  have accounted := runs.accounted
  have peaked := runs.peaked
  have traced := runs.traced
  refine ⟨⟨accounted.used, accounted.within, accounted.within.trans budget.limit_le⟩,
    fun charge => accounted.fetchSub, fun id state' => accounted.commits traced,
    fun event state' => accounted.grows, fun event state' => Step.unchanged, ?_, ?_⟩
  · intro id error refused event member belongs effective
    obtain ⟨uncommitted, unaccepted⟩ := traced.refused id error refused
    unfold Event.Effective at effective
    split at effective
    · obtain rfl := Option.some.inj belongs
      exact uncommitted member
    · obtain rfl := Option.some.inj belongs
      exact unaccepted _ member
    · cases belongs
    · exact effective
  · intro settled
    refine ⟨peaked.known, fun value member => ?_⟩
    obtain bounded | ⟨next, pending, -⟩ := peaked.highest value member
    · exact bounded
    · rw [settled] at pending
      cases pending

def tenBytes : MemoryBudget where
  limit := 10
  governed := false
  limit_le := by decide

/-- Two calls load the counter before either has changed it, so the second one loops;
the charge of the first is dropped while the second still has to record the peak. -/
theorem budget_accounting_two : ∃ events values state, Runs tenBytes events values state ∧
    .exchange 1 false ∈ events ∧ .drop ⟨4⟩ ∈ events ∧
    state.used = 5 ∧ state.used = state.charged ∧ state.peak = 9 ∧ state.peak ∈ values ∧
    ∀ value ∈ values, value ≤ state.peak := by
  have begun : Runs tenBytes _ _ ⟨0, 0, [⟨0, .load 4⟩], [], 1⟩ :=
    .step .new (.reserve (show Demand.working (.bytes 4) = some 4 by decide))
  have both : Runs tenBytes _ _ ⟨0, 0, [⟨0, .load 4⟩, ⟨1, .load 5⟩], [], 2⟩ :=
    .step begun (.reserve (show Demand.working (.bytes 5) = some 5 by decide))
  have loaded : Runs tenBytes _ _ ⟨0, 0, [⟨0, .limit 4 0⟩, ⟨1, .load 5⟩], [], 2⟩ :=
    .step both (.load (show _ = [] ++ _ :: [_] from rfl))
  have loaded' : Runs tenBytes _ _ ⟨0, 0, [⟨0, .limit 4 0⟩, ⟨1, .limit 5 0⟩], [], 2⟩ :=
    .step loaded (.load (show _ = [_] ++ _ :: [] from rfl))
  have read : Runs tenBytes _ _ ⟨0, 0, [⟨0, .exchange 4 0 10 4⟩, ⟨1, .limit 5 0⟩], [], 2⟩ :=
    .step loaded' (.limit 0 0 (show _ = [] ++ _ :: [_] from rfl) rfl)
  have read' : Runs tenBytes _ _
      ⟨0, 0, [⟨0, .exchange 4 0 10 4⟩, ⟨1, .exchange 5 0 10 5⟩], [], 2⟩ :=
    .step read (.limit 0 0 (show _ = [_] ++ _ :: [] from rfl) rfl)
  have added : Runs tenBytes _ _ ⟨4, 0, [⟨0, .record 4 4⟩, ⟨1, .exchange 5 0 10 5⟩], [], 2⟩ :=
    .step read' (.exchange (show _ = [] ++ _ :: [_] from rfl) rfl)
  have outrun : Runs tenBytes _ _ ⟨4, 0, [⟨0, .record 4 4⟩, ⟨1, .limit 5 4⟩], [], 2⟩ :=
    .step added (.exchangeFails (show _ = [_] ++ _ :: [] from rfl))
  have recorded : Runs tenBytes _ _ ⟨4, 4, [⟨1, .limit 5 4⟩], [⟨4⟩], 2⟩ :=
    .step outrun (.record (show _ = [] ++ _ :: [_] from rfl))
  have again : Runs tenBytes _ _ ⟨4, 4, [⟨1, .exchange 5 4 10 9⟩], [⟨4⟩], 2⟩ :=
    .step recorded (.limit 0 0 (show _ = [] ++ _ :: [] from rfl) rfl)
  have added' : Runs tenBytes _ _ ⟨9, 4, [⟨1, .record 5 9⟩], [⟨4⟩], 2⟩ :=
    .step again (.exchange (show _ = [] ++ _ :: [] from rfl) rfl)
  have dropped : Runs tenBytes _ _ ⟨fetchSub 9 4, 4, [⟨1, .record 5 9⟩], [], 2⟩ :=
    .step added' (.drop (show _ = [] ++ _ :: [] from rfl))
  have last : Runs tenBytes _ _ ⟨fetchSub 9 4, max 4 9, [], [⟨5⟩], 2⟩ :=
    .step dropped (.record (show _ = [] ++ _ :: [] from rfl))
  obtain ⟨⟨used, -⟩, -, -, -, -, -, peak⟩ := budget_accounting last
  exact ⟨_, _, _, last, by simp, by simp, rfl, used, rfl, peak rfl⟩

end Accounting

end MemoryBudget

end SortGovernor.Runtime
