import SortGovernor.Resumption.Program
import Mathlib.Order.Defs.Unbundled

/-!
# Runs and weakest preconditions of programs

`Runs` executes a program request by request under a semantics that says which
replies the world may give and what dropping the future at a request may do.
`wp` is its weakest precondition: it demands a result condition at the end and
an issue condition at every request on the way, for every reply the world may
give.  The rules follow the operations of `Program` and `Method`.
-/

namespace SortGovernor.Resumption

/-- What the world may do with a request: answer it, or carry on with it after
its caller has been dropped. -/
structure Semantics (sig : Signature) (World : Type) where
  reply : (op : sig.Op) → World → sig.Reply op → World → Prop
  drop : sig.Op → World → World → Prop

/-- A program either returns or is dropped at one of its requests. -/
inductive Outcome (Left Result : Type) where
  | returned (result : Result)
  | dropped (left : Left)

variable {sig : Signature} {World : Type} {Left Left' Result Result' : Type}

/-- Sequential execution under a semantics. -/
inductive Runs (sem : Semantics sig World) :
    Program sig Left Result → World → Outcome Left Result → World → Prop where
  | done {result world} : Runs sem (.done result) world (.returned result) world
  | step {left op resume world reply next outcome last} :
      sem.reply op world reply next →
      Runs sem (resume reply) next outcome last →
      Runs sem (.request left op resume) world outcome last
  | drop {left op resume world last} :
      sem.drop op world last →
      Runs sem (.request left op resume) world (.dropped left) last

/-- The requests a program may come to make, each with the world it is made in. -/
inductive Asks (sem : Semantics sig World) :
    Program sig Left Result → World → sig.Op → World → Prop where
  | now {left op resume world} : Asks sem (.request left op resume) world op world
  | later {left op resume world reply next op' last} :
      sem.reply op world reply next → Asks sem (resume reply) next op' last →
      Asks sem (.request left op resume) world op' last

/-- The requests a program may stand at, with what it would leave there. -/
inductive Pauses (sem : Semantics sig World) :
    Program sig Left Result → World → Left → sig.Op → World → Prop where
  | now {left op resume world} : Pauses sem (.request left op resume) world left op world
  | later {left op resume world reply next left' op' last} :
      sem.reply op world reply next → Pauses sem (resume reply) next left' op' last →
      Pauses sem (.request left op resume) world left' op' last

namespace Program

/-- Weakest precondition: `issue` holds at every request the program makes and
`post` at its end, whatever the world replies. -/
def wp (sem : Semantics sig World) (issue : Left → sig.Op → World → Prop)
    (post : Result → World → Prop) : Program sig Left Result → World → Prop
  | .done result, world => post result world
  | .request left op resume, world =>
      issue left op world ∧
        ∀ reply next, sem.reply op world reply next → (resume reply).wp sem issue post next

variable {sem : Semantics sig World} {issue issue' : Left → sig.Op → World → Prop}
  {post post' : Result → World → Prop}

theorem wp_mono {program : Program sig Left Result} {world : World}
    (holds : program.wp sem issue post world)
    (weakerIssue : ∀ left op world, issue left op world → issue' left op world)
    (weakerPost : ∀ result world, post result world → post' result world) :
    program.wp sem issue' post' world := by
  induction program generalizing world with
  | done result => exact weakerPost result world holds
  | request left op resume inductionHypothesis =>
      refine ⟨weakerIssue left op world holds.1, ?_⟩
      intro reply next replied
      exact inductionHypothesis reply (holds.2 reply next replied)

@[simp]
theorem wp_bind {program : Program sig Left Result}
    {next : Result → Program sig Left Result'} {post : Result' → World → Prop}
    {world : World} :
    (program.bind next).wp sem issue post world ↔
      program.wp sem issue (fun result world => (next result).wp sem issue post world) world := by
  induction program generalizing world with
  | done result => rfl
  | request left op resume inductionHypothesis =>
      simp only [bind_request, wp, inductionHypothesis]

@[simp]
theorem wp_map {program : Program sig Left Result} {f : Result → Result'}
    {post : Result' → World → Prop} {world : World} :
    (program.map f).wp sem issue post world ↔
      program.wp sem issue (fun result world => post (f result) world) world := by
  simp only [map, wp_bind, wp]

@[simp]
theorem wp_rebase {program : Program sig Left Result} {f : Left → Left'}
    {issue : Left' → sig.Op → World → Prop} {world : World} :
    (program.rebase f).wp sem issue post world ↔
      program.wp sem (fun left op world => issue (f left) op world) post world := by
  induction program generalizing world with
  | done result => rfl
  | request left op resume inductionHypothesis =>
      simp only [rebase, wp, inductionHypothesis]

theorem wp_and {program : Program sig Left Result} {world : World}
    (first : program.wp sem issue post world) (second : program.wp sem issue' post' world) :
    program.wp sem (fun left op world => issue left op world ∧ issue' left op world)
      (fun result world => post result world ∧ post' result world) world := by
  induction program generalizing world with
  | done result => exact ⟨first, second⟩
  | request left op resume inductionHypothesis =>
      refine ⟨⟨first.1, second.1⟩, ?_⟩
      intro reply next replied
      exact inductionHypothesis reply (first.2 reply next replied) (second.2 reply next replied)

theorem wp_refine {sem' : Semantics sig World} {program : Program sig Left Result} {world : World}
    (holds : program.wp sem issue post world)
    (fewer : ∀ op world reply next, sem'.reply op world reply next →
      sem.reply op world reply next) :
    program.wp sem' issue post world := by
  induction program generalizing world with
  | done result => exact holds
  | request left op resume inductionHypothesis =>
      refine ⟨holds.1, ?_⟩
      intro reply next replied
      exact inductionHypothesis reply (holds.2 reply next (fewer op world reply next replied))

theorem wp_of_forall {program : Program sig Left Result} {world : World}
    (issued : ∀ left op world, issue left op world) (ends : ∀ result world, post result world) :
    program.wp sem issue post world := by
  induction program generalizing world with
  | done result => exact ends result world
  | request left op resume inductionHypothesis =>
      refine ⟨issued left op world, ?_⟩
      intro reply next _
      exact inductionHypothesis reply

theorem wp_returned {program : Program sig Left Result} {world last : World} {result : Result}
    (holds : program.wp sem issue post world)
    (run : Runs sem program world (.returned result) last) : post result last := by
  generalize named : Outcome.returned result = outcome at run
  induction run with
  | done => cases named; exact holds
  | step replied _ inductionHypothesis =>
      exact inductionHypothesis (holds.2 _ _ replied) named
  | drop _ => cases named

theorem wp_dropped {program : Program sig Left Result} {world last : World} {left : Left}
    (holds : program.wp sem issue post world)
    (run : Runs sem program world (.dropped left) last) :
    ∃ op middle, issue left op middle ∧ sem.drop op middle last := by
  generalize named : Outcome.dropped left = outcome at run
  induction run with
  | done => cases named
  | step replied _ inductionHypothesis =>
      exact inductionHypothesis (holds.2 _ _ replied) named
  | drop dropped =>
      cases named
      exact ⟨_, _, holds.1, dropped⟩

theorem wp_asks {program : Program sig Left Result} {world last : World} {op : sig.Op}
    (holds : program.wp sem issue post world) (asks : Asks sem program world op last) :
    ∃ left, issue left op last := by
  induction asks with
  | now => exact ⟨_, holds.1⟩
  | later replied _ inductionHypothesis => exact inductionHypothesis (holds.2 _ _ replied)

theorem wp_pauses {program : Program sig Left Result} {world last : World}
    {left : Left} {op : sig.Op}
    (holds : program.wp sem issue post world) (pauses : Pauses sem program world left op last) :
    issue left op last := by
  induction pauses with
  | now => exact holds.1
  | later replied _ inductionHypothesis => exact inductionHypothesis (holds.2 _ _ replied)

theorem wp_runs {program : Program sig Left Result} {world : World}
    (holds : program.wp sem issue post world) :
    program.wp sem issue
      (fun result last => post result last ∧ Runs sem program world (.returned result) last)
        world := by
  induction program generalizing world with
  | done result => exact ⟨holds, .done⟩
  | request left op resume inductionHypothesis =>
      refine ⟨holds.1, ?_⟩
      intro reply next replied
      refine wp_mono (inductionHypothesis reply (holds.2 reply next replied)) (fun _ _ _ => id) ?_
      exact fun result last reached => ⟨reached.1, .step replied reached.2⟩

theorem runs_bind {program : Program sig Left Result}
    {next : Result → Program sig Left Result'} {world last : World} {result : Result'}
    (run : Runs sem (program.bind next) world (.returned result) last) :
    ∃ first middle, Runs sem program world (.returned first) middle ∧
      Runs sem (next first) middle (.returned result) last := by
  induction program generalizing world with
  | done first => exact ⟨first, world, .done, run⟩
  | request left op resume inductionHypothesis =>
      cases run with
      | step replied rest =>
          obtain ⟨first, middle, before, after⟩ := inductionHypothesis _ rest
          exact ⟨first, middle, .step replied before, after⟩

/-- Execute a program with a policy that answers each request it can. -/
def follow (policy : (op : sig.Op) → World → Option (sig.Reply op × World)) :
    Program sig Left Result → World → Option (Result × World)
  | .done result, world => some (result, world)
  | .request _ op resume, world =>
      match policy op world with
      | none => none
      | some (reply, next) => (resume reply).follow policy next

theorem follow_bind {policy : (op : sig.Op) → World → Option (sig.Reply op × World)}
    {program : Program sig Left Result} {next : Result → Program sig Left Result'} {world : World} :
    (program.bind next).follow policy world =
      (program.follow policy world).bind fun reached =>
        (next reached.1).follow policy reached.2 := by
  induction program generalizing world with
  | done result => rfl
  | request left op resume inductionHypothesis =>
      simp only [bind_request, follow]
      cases policy op world with
      | none => rfl
      | some answered => exact inductionHypothesis answered.1

theorem follow_view {World' : Type} {policy : (op : sig.Op) → World → Option (sig.Reply op × World)}
    {policy' : (op : sig.Op) → World' → Option (sig.Reply op × World')} (view : World' → World)
    (same : ∀ op world, (policy' op world).map (Prod.map id view) = policy op (view world))
    (program : Program sig Left Result) (world : World') :
    (program.follow policy' world).map (Prod.map id view) = program.follow policy (view world) := by
  induction program generalizing world with
  | done result => rfl
  | request left op resume inductionHypothesis =>
      rw [follow, follow, ← same]
      cases policy' op world with
      | none => rfl
      | some answered => exact inductionHypothesis answered.1 answered.2

theorem runs_of_follow {policy : (op : sig.Op) → World → Option (sig.Reply op × World)}
    (allowed : ∀ op world reply next, policy op world = some (reply, next) →
      sem.reply op world reply next)
    {program : Program sig Left Result} {world last : World} {result : Result}
    (followed : program.follow policy world = some (result, last)) :
    Runs sem program world (.returned result) last := by
  induction program generalizing world with
  | done result' =>
      cases followed
      exact .done
  | request left op resume inductionHypothesis =>
      unfold follow at followed
      split at followed
      · cases followed
      · rename_i reply next answered
        exact .step (allowed op world reply next answered) (inductionHypothesis reply followed)

/-- Execute a program with a policy up to a request at which to stop. -/
def followUntil (policy : (op : sig.Op) → World → Option (sig.Reply op × World))
    (stop : sig.Op → Bool) :
    Program sig Left Result → World → Option (Left × sig.Op × World)
  | .done _, _ => none
  | .request left op resume, world =>
      if stop op then some (left, op, world)
      else
        match policy op world with
        | none => none
        | some (reply, next) => (resume reply).followUntil policy stop next

theorem pauses_of_followUntil
    {policy : (op : sig.Op) → World → Option (sig.Reply op × World)} {stop : sig.Op → Bool}
    (allowed : ∀ op world reply next, policy op world = some (reply, next) →
      sem.reply op world reply next)
    {program : Program sig Left Result} {world last : World} {left : Left} {op : sig.Op}
    (followed : program.followUntil policy stop world = some (left, op, last)) :
    stop op = true ∧ Pauses sem program world left op last := by
  induction program generalizing world with
  | done result => cases followed
  | request left' op' resume inductionHypothesis =>
      unfold followUntil at followed
      split at followed
      · rename_i stops
        cases followed
        exact ⟨stops, .now⟩
      · split at followed
        · cases followed
        · rename_i reply next answered
          obtain ⟨stops, pauses⟩ := inductionHypothesis reply followed
          exact ⟨stops, .later (allowed op' world reply next answered) pauses⟩

end Program

namespace Method

variable {Error State Inner : Type}

/-- Weakest precondition of a method: `ok` and `err` see the state it leaves. -/
def wp (sem : Semantics sig World) (issue : State → sig.Op → World → Prop)
    (ok : Result → State → World → Prop) (err : Error → State → World → Prop)
    (method : Method sig Error State Result) (state : State) (world : World) : Prop :=
  (method state).wp sem issue (fun
    | (.ok result, state) => ok result state
    | (.error error, state) => err error state) world

variable {sem : Semantics sig World} {issue issue' : State → sig.Op → World → Prop}
  {ok ok' : Result → State → World → Prop} {err err' : Error → State → World → Prop}
  {state : State} {world : World}

theorem wp_mono {method : Method sig Error State Result}
    (holds : method.wp sem issue ok err state world)
    (weakerIssue : ∀ state op world, issue state op world → issue' state op world)
    (weakerOk : ∀ result state world, ok result state world → ok' result state world)
    (weakerErr : ∀ error state world, err error state world → err' error state world) :
    method.wp sem issue' ok' err' state world := by
  refine Program.wp_mono holds weakerIssue ?_
  rintro ⟨_ | _, state⟩ world reached
  · exact weakerErr _ state world reached
  · exact weakerOk _ state world reached

theorem wp_post {method : Method sig Error State Result}
    (holds : method.wp sem issue ok err state world)
    (weakerOk : ∀ result state world, ok result state world → ok' result state world)
    (weakerErr : ∀ error state world, err error state world → err' error state world) :
    method.wp sem issue ok' err' state world :=
  wp_mono holds (fun _ _ _ issued => issued) weakerOk weakerErr

theorem wp_and {method : Method sig Error State Result}
    (first : method.wp sem issue ok err state world)
    (second : method.wp sem issue' ok' err' state world) :
    method.wp sem (fun state op world => issue state op world ∧ issue' state op world)
      (fun result state world => ok result state world ∧ ok' result state world)
      (fun error state world => err error state world ∧ err' error state world) state world := by
  refine Program.wp_mono (Program.wp_and first second) (fun _ _ _ issued => issued) ?_
  rintro ⟨_ | _, state⟩ world reached <;> exact reached

theorem wp_of_forall {method : Method sig Error State Result}
    (issued : ∀ state op world, issue state op world)
    (ends : ∀ result state world, ok result state world)
    (fails : ∀ error state world, err error state world) :
    method.wp sem issue ok err state world := by
  refine Program.wp_of_forall issued ?_
  rintro ⟨error | result, state⟩ world
  · exact fails error state world
  · exact ends result state world

@[simp]
theorem wp_pure {result : Result} :
    (pure result : Method sig Error State Result).wp sem issue ok err state world ↔
      ok result state world := Iff.rfl

@[simp]
theorem wp_throw {error : Error} :
    (throw error : Method sig Error State Result).wp sem issue ok err state world ↔
      err error state world := Iff.rfl

@[simp]
theorem wp_bind {method : Method sig Error State Result}
    {next : Result → Method sig Error State Result'}
    {ok : Result' → State → World → Prop} :
    (method >>= next).wp sem issue ok err state world ↔
      method.wp sem issue
        (fun result state world => (next result).wp sem issue ok err state world) err
        state world := by
  change ((method state).bind _).wp sem issue _ world ↔ _
  rw [Program.wp_bind]
  constructor
  · intro holds
    refine Program.wp_mono holds (fun _ _ _ issued => issued) ?_
    rintro ⟨_ | _, state⟩ world reached <;> exact reached
  · intro holds
    refine Program.wp_mono holds (fun _ _ _ issued => issued) ?_
    rintro ⟨_ | _, state⟩ world reached <;> exact reached

@[simp]
theorem wp_get {ok : State → State → World → Prop} :
    (get : Method sig Error State State).wp sem issue ok err state world ↔
      ok state state world := Iff.rfl

@[simp]
theorem wp_set {state' : State} {ok : PUnit → State → World → Prop} :
    (set state' : Method sig Error State PUnit).wp sem issue ok err state world ↔
      ok PUnit.unit state' world := Iff.rfl

@[simp]
theorem wp_modify {f : State → State} {ok : PUnit → State → World → Prop} :
    (modify f : Method sig Error State PUnit).wp sem issue ok err state world ↔
      ok PUnit.unit (f state) world := Iff.rfl

@[simp]
theorem wp_issue {op : sig.Op} {ok : sig.Reply op → State → World → Prop} :
    (Method.issue op : Method sig Error State _).wp sem issue ok err state world ↔
      issue state op world ∧ ∀ reply next, sem.reply op world reply next → ok reply state next :=
  Iff.rfl

theorem wp_tryCatch {method : Method sig Error State Result}
    {handler : Error → Method sig Error State Result} :
    (tryCatch method handler : Method sig Error State Result).wp sem issue ok err state world ↔
      method.wp sem issue ok
        (fun error state world => (handler error).wp sem issue ok err state world) state world := by
  change ((method state).bind _).wp sem issue _ world ↔ _
  rw [Program.wp_bind]
  constructor
  · intro holds
    refine Program.wp_mono holds (fun _ _ _ issued => issued) ?_
    rintro ⟨_ | _, _⟩ world reached <;> exact reached
  · intro holds
    refine Program.wp_mono holds (fun _ _ _ issued => issued) ?_
    rintro ⟨_ | _, _⟩ world reached <;> exact reached

@[simp]
theorem wp_okOr {value : Option Result} {error : Error} :
    (okOr value error : Method sig Error State Result).wp sem issue ok err state world ↔
      match value with
      | some result => ok result state world
      | none => err error state world := by
  cases value <;> rfl

@[simp]
theorem wp_ofExcept {result : Except Error Result} :
    (ofExcept result : Method sig Error State Result).wp sem issue ok err state world ↔
      match result with
      | .ok result => ok result state world
      | .error error => err error state world := by
  cases result <;> rfl

@[simp]
theorem wp_within {inner : Inner} {put : Inner → State → State}
    {method : Method sig Error Inner Result} :
    (within inner put method).wp sem issue ok err state world ↔
      method.wp sem (fun inner op world => issue (put inner state) op world)
        (fun result inner world => ok result (put inner state) world)
        (fun error inner world => err error (put inner state) world) inner world := by
  change (((method inner).rebase _).map _).wp sem issue _ world ↔ _
  rw [Program.wp_map, Program.wp_rebase]
  constructor
  · intro holds
    refine Program.wp_mono holds (fun _ _ _ issued => issued) ?_
    rintro ⟨_ | _, inner⟩ world reached <;> exact reached
  · intro holds
    refine Program.wp_mono holds (fun _ _ _ issued => issued) ?_
    rintro ⟨_ | _, inner⟩ world reached <;> exact reached

@[simp]
theorem wp_attempt {inner : Inner} {method : Method sig Error Inner Result}
    {ok : Except Error Result × Inner → State → World → Prop} :
    (attempt inner method).wp sem issue ok err state world ↔
      method.wp sem (fun _ op world => issue state op world)
        (fun result inner world => ok (.ok result, inner) state world)
        (fun error inner world => ok (.error error, inner) state world) inner world := by
  change (((method inner).rebase _).map _).wp sem issue _ world ↔ _
  rw [Program.wp_map, Program.wp_rebase]
  constructor
  · intro holds
    refine Program.wp_mono holds (fun _ _ _ issued => issued) ?_
    rintro ⟨_ | _, inner⟩ world reached <;> exact reached
  · intro holds
    refine Program.wp_mono holds (fun _ _ _ issued => issued) ?_
    rintro ⟨_ | _, inner⟩ world reached <;> exact reached

@[simp]
theorem wp_call {inner : Inner} {method : Method sig Error Inner Result}
    {ok : Result × Inner → State → World → Prop} :
    (call inner method).wp sem issue ok err state world ↔
      method.wp sem (fun _ op world => issue state op world)
        (fun result inner world => ok (result, inner) state world)
        (fun error _ world => err error state world) inner world := by
  simp only [call, wp_bind, wp_attempt]
  rfl

@[simp]
theorem wp_ite {condition : Prop} [Decidable condition]
    {first second : Method sig Error State Result} :
    (if condition then first else second : Method sig Error State Result).wp
        sem issue ok err state world ↔
      (condition → first.wp sem issue ok err state world) ∧
        (¬condition → second.wp sem issue ok err state world) := by
  by_cases decided : condition <;> simp [decided]

/-- From any state a method keeps a condition of the world: it holds at every
request and at the end. -/
def Keeps (sem : Semantics sig World) (invariant : World → Prop)
    (method : Method sig Error State Result) : Prop :=
  ∀ state world, invariant world →
    method.wp sem (fun _ _ => invariant) (fun _ _ => invariant) (fun _ _ => invariant) state world

section Keeps

variable {invariant : World → Prop}

theorem keeps_pure (result : Result) :
    Keeps sem invariant (pure result : Method sig Error State Result) :=
  fun _ _ holds => holds

theorem keeps_throw (error : Error) :
    Keeps sem invariant (throw error : Method sig Error State Result) :=
  fun _ _ holds => holds

theorem keeps_bind {method : Method sig Error State Result}
    {next : Result → Method sig Error State Result'} (first : Keeps sem invariant method)
    (rest : ∀ result, Keeps sem invariant (next result)) :
    Keeps sem invariant (method >>= next) := by
  intro state world holds
  rw [wp_bind]
  refine wp_post (first state world holds) ?_ (fun _ _ _ kept => kept)
  intro result state world kept
  exact rest result state world kept

theorem keeps_issue (op : sig.Op)
    (step : ∀ world reply next, sem.reply op world reply next → invariant world →
      invariant next) :
    Keeps sem invariant (Method.issue op : Method sig Error State _) := by
  intro state world holds
  rw [wp_issue]
  exact ⟨holds, fun reply next replied => step world reply next replied holds⟩

theorem keeps_okOr (value : Option Result) (error : Error) :
    Keeps sem invariant (okOr value error : Method sig Error State Result) := by
  cases value with
  | none => exact keeps_throw error
  | some value => exact keeps_pure value

theorem keeps_ofExcept (result : Except Error Result) :
    Keeps sem invariant (ofExcept result : Method sig Error State Result) := by
  cases result with
  | error error => exact keeps_throw error
  | ok value => exact keeps_pure value

end Keeps

/-- A method stays in the states that satisfy `good`: they hold at every request
and at the end. -/
def Stays (sem : Semantics sig World) (good : State → Prop)
    (method : Method sig Error State Result) : Prop :=
  ∀ state world, good state →
    method.wp sem (fun state _ _ => good state) (fun _ state _ => good state)
      (fun _ state _ => good state) state world

section Stays

variable {good : State → Prop}

theorem stays_pure (result : Result) :
    Stays sem good (pure result : Method sig Error State Result) :=
  fun _ _ holds => holds

theorem stays_throw (error : Error) :
    Stays sem good (throw error : Method sig Error State Result) :=
  fun _ _ holds => holds

theorem stays_bind {method : Method sig Error State Result}
    {next : Result → Method sig Error State Result'} (first : Stays sem good method)
    (rest : ∀ result, Stays sem good (next result)) : Stays sem good (method >>= next) := by
  intro state world holds
  rw [wp_bind]
  refine wp_post (first state world holds) ?_ (fun _ _ _ stayed => stayed)
  intro result state world stayed
  exact rest result state world stayed

theorem wp_bind_of_stays {method : Method sig Error State Result}
    {next : Result → Method sig Error State Result'} {ok : Result' → State → World → Prop}
    (stays : Stays sem good method) (holds : good state)
    (issued : ∀ state op world, good state → issue state op world)
    (failed : ∀ error state world, good state → err error state world)
    (rest : ∀ result state world, good state → (next result).wp sem issue ok err state world) :
    (method >>= next).wp sem issue ok err state world :=
  wp_bind.mpr (wp_mono (stays state world holds) issued rest failed)

theorem stays_get : Stays sem good (get : Method sig Error State State) :=
  fun _ _ holds => holds

theorem stays_modify {f : State → State} (keeps : ∀ state, good state → good (f state)) :
    Stays sem good (modify f : Method sig Error State PUnit) :=
  fun state _ holds => keeps state holds

theorem stays_issue (op : sig.Op) : Stays sem good (Method.issue op : Method sig Error State _) :=
  fun _ _ holds => ⟨holds, fun _ _ _ => holds⟩

theorem stays_okOr (value : Option Result) (error : Error) :
    Stays sem good (okOr value error : Method sig Error State Result) := by
  cases value with
  | none => exact stays_throw error
  | some value => exact stays_pure value

theorem stays_ofExcept (result : Except Error Result) :
    Stays sem good (ofExcept result : Method sig Error State Result) := by
  cases result with
  | error error => exact stays_throw error
  | ok value => exact stays_pure value

theorem stays_attempt (inner : Inner) (method : Method sig Error Inner Result) :
    Stays sem good (attempt inner method : Method sig Error State _) := by
  intro state world holds
  rw [wp_attempt]
  refine Program.wp_of_forall (fun _ _ _ => holds) ?_
  rintro ⟨_ | _, _⟩ _ <;> exact holds

theorem stays_call (inner : Inner) (method : Method sig Error Inner Result) :
    Stays sem good (call inner method : Method sig Error State _) := by
  refine stays_bind (stays_attempt inner method) ?_
  rintro ⟨error | result, inner⟩
  · exact stays_throw error
  · exact stays_pure (result, inner)

/-- A method of a field leaves the rest to `put`. -/
theorem stays_within {inner : Inner} {put : Inner → State → State}
    {method : Method sig Error Inner Result}
    (keeps : ∀ inner state, good state → good (put inner state)) :
    Stays sem good (within inner put method) := by
  intro state world holds
  rw [wp_within]
  refine Program.wp_of_forall (fun inner _ _ => keeps inner state holds) ?_
  rintro ⟨_ | _, inner⟩ _ <;> exact keeps inner state holds

theorem stays_ite {condition : Prop} [Decidable condition]
    {first second : Method sig Error State Result} (onTrue : Stays sem good first)
    (onFalse : Stays sem good second) : Stays sem good (if condition then first else second) := by
  split
  · exact onTrue
  · exact onFalse

end Stays

/-- Every request of the method is allowed, and the world only moves along `moves`. -/
def Confined (sem : Semantics sig World) (allowed : sig.Op → Prop) (moves : World → World → Prop)
    (method : Method sig Error State Result) : Prop :=
  ∀ state world, method.wp sem (fun _ op _ => allowed op) (fun _ _ next => moves world next)
    (fun _ _ next => moves world next) state world

section Confined

variable {allowed : sig.Op → Prop} {moves : World → World → Prop}

theorem confined_pure [Std.Refl moves] (result : Result) :
    Confined sem allowed moves (pure result : Method sig Error State Result) :=
  fun _ world => Std.Refl.refl world

theorem confined_throw [Std.Refl moves] (error : Error) :
    Confined sem allowed moves (throw error : Method sig Error State Result) :=
  fun _ world => Std.Refl.refl world

theorem confined_get [Std.Refl moves] :
    Confined sem allowed moves (get : Method sig Error State State) :=
  fun _ world => Std.Refl.refl world

theorem confined_modify [Std.Refl moves] (f : State → State) :
    Confined sem allowed moves (modify f : Method sig Error State PUnit) :=
  fun _ world => Std.Refl.refl world

theorem confined_bind [IsTrans World moves] {method : Method sig Error State Result}
    {next : Result → Method sig Error State Result'} (first : Confined sem allowed moves method)
    (rest : ∀ result, Confined sem allowed moves (next result)) :
    Confined sem allowed moves (method >>= next) := by
  intro state world
  rw [wp_bind]
  apply wp_post (first state world)
  · intro result state' middle moved
    apply wp_post (rest result state' middle)
    · exact fun _ _ _ moved' => IsTrans.trans _ _ _ moved moved'
    · exact fun _ _ _ moved' => IsTrans.trans _ _ _ moved moved'
  · exact fun _ _ _ moved => moved

theorem confined_issue {op : sig.Op} (permitted : allowed op)
    (step : ∀ world reply next, sem.reply op world reply next → moves world next) :
    Confined sem allowed moves (Method.issue op : Method sig Error State _) :=
  fun _ world => ⟨permitted, step world⟩

theorem confined_okOr [Std.Refl moves] (value : Option Result) (error : Error) :
    Confined sem allowed moves (okOr value error : Method sig Error State Result) := by
  cases value with
  | none => exact confined_throw error
  | some value => exact confined_pure value

theorem confined_ofExcept [Std.Refl moves] (result : Except Error Result) :
    Confined sem allowed moves (ofExcept result : Method sig Error State Result) := by
  cases result with
  | error error => exact confined_throw error
  | ok value => exact confined_pure value

theorem confined_within {inner : Inner} {put : Inner → State → State}
    {method : Method sig Error Inner Result} (confined : Confined sem allowed moves method) :
    Confined sem allowed moves (within inner put method) := by
  intro state world
  rw [wp_within]
  exact confined inner world

theorem confined_call {inner : Inner} {method : Method sig Error Inner Result}
    (confined : Confined sem allowed moves method) :
    Confined sem allowed moves (call inner method : Method sig Error State _) := by
  intro state world
  rw [wp_call]
  exact confined inner world

theorem confined_ite {condition : Prop} [Decidable condition]
    {first second : Method sig Error State Result} (onTrue : Confined sem allowed moves first)
    (onFalse : Confined sem allowed moves second) :
    Confined sem allowed moves (if condition then first else second) := by
  by_cases decided : condition
  · rwa [if_pos decided]
  · rwa [if_neg decided]

end Confined

theorem wp_returned {method : Method sig Error State Result} {last : World}
    {outcome : Except Error Result} {left : State}
    (holds : method.wp sem issue ok err state world)
    (run : Runs sem (method state) world (.returned (outcome, left)) last) :
    match outcome with
    | .ok result => ok result left last
    | .error error => err error left last := by
  have reached := Program.wp_returned holds run
  cases outcome <;> exact reached

theorem wp_runs {method : Method sig Error State Result}
    (holds : method.wp sem issue ok err state world) :
    method.wp sem issue
      (fun result left last => ok result left last ∧
        Runs sem (method state) world (.returned (.ok result, left)) last) err state world := by
  refine Program.wp_mono (Program.wp_runs holds) (fun _ _ _ issued => issued) ?_
  rintro ⟨_ | _, left⟩ last ⟨reached, run⟩
  · exact reached
  · exact ⟨reached, run⟩

theorem runs_bind {method : Method sig Error State Result}
    {next : Result → Method sig Error State Result'} {last : World} {result : Result'}
    {left : State}
    (run : Runs sem ((method >>= next) state) world (.returned (.ok result, left)) last) :
    ∃ first between middle, Runs sem (method state) world (.returned (.ok first, between)) middle ∧
      Runs sem (next first between) middle (.returned (.ok result, left)) last := by
  obtain ⟨⟨error | first, between⟩, middle, before, after⟩ := Program.runs_bind run
  · cases after
  · exact ⟨first, between, middle, before, after⟩

section Follow

variable {policy : (op : sig.Op) → World → Option (sig.Reply op × World)}

/-- Execute a method with a policy that answers each request it can. -/
def follow (policy : (op : sig.Op) → World → Option (sig.Reply op × World))
    (method : Method sig Error State Result) (state : State) (world : World) :
    Option ((Except Error Result × State) × World) :=
  (method state).follow policy world

theorem follow_view {World' : Type}
    {policy' : (op : sig.Op) → World' → Option (sig.Reply op × World')} (view : World' → World)
    (same : ∀ op world, (policy' op world).map (Prod.map id view) = policy op (view world))
    (method : Method sig Error State Result) (state : State) (world : World') :
    (method.follow policy' state world).map (Prod.map id view) =
      method.follow policy state (view world) :=
  Program.follow_view view same (method state) world

@[simp]
theorem follow_pure {result : Result} :
    (pure result : Method sig Error State Result).follow policy state world =
      some ((.ok result, state), world) := rfl

@[simp]
theorem follow_throw {error : Error} :
    (throw error : Method sig Error State Result).follow policy state world =
      some ((.error error, state), world) := rfl

@[simp]
theorem follow_bind {method : Method sig Error State Result}
    {next : Result → Method sig Error State Result'} :
    (method >>= next).follow policy state world =
      (method.follow policy state world).bind fun
        | ((.ok result, state), world) => (next result).follow policy state world
        | ((.error error, state), world) => some ((.error error, state), world) := by
  refine Program.follow_bind.trans ?_
  refine congrArg _ (funext ?_)
  rintro ⟨⟨_ | _, state⟩, world⟩ <;> rfl

@[simp]
theorem follow_issue {op : sig.Op} :
    (Method.issue op : Method sig Error State _).follow policy state world =
      (policy op world).map fun (reply, next) => ((.ok reply, state), next) := by
  simp only [Method.follow, Method.issue, Program.follow]
  cases policy op world <;> rfl

@[simp]
theorem follow_okOr {value : Option Result} {error : Error} :
    (okOr value error : Method sig Error State Result).follow policy state world =
      some ((match value with | some result => .ok result | none => .error error, state),
        world) := by
  cases value <;> rfl

@[simp]
theorem follow_ofExcept {result : Except Error Result} :
    (ofExcept result : Method sig Error State Result).follow policy state world =
      some ((result, state), world) := by
  cases result <;> rfl

end Follow

theorem wp_dropped {method : Method sig Error State Result} {last : World} {left : State}
    (holds : method.wp sem issue ok err state world)
    (run : Runs sem (method state) world (.dropped left) last) :
    ∃ op middle, issue left op middle ∧ sem.drop op middle last :=
  Program.wp_dropped holds run

end Method

end SortGovernor.Resumption
