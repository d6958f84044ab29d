import SortGovernor.Engine.Charges
import SortGovernor.Runtime.Conservation
import SortGovernor.Runtime.Parts
import SortGovernor.Runtime.ReplayScripts

/-!
# What operations are charged

A worker owns the charges it was given until its job has ended, and a frame that
was read carries its own to whoever takes it.
-/

namespace SortGovernor.Runtime

open SortGovernor.Engine SortGovernor.Resumption

variable {Client Shared : Type} {Actor : Client → Type} {clients : Clients Shared Actor}

namespace Operation

variable {operation operation' : Operation Client}

/-- The result of an operation is charged as it says, or will be. -/
structure Charged (operation : Operation Client) : Prop where
  running : operation.Executing → operation.work.wp anyFile (fun _ _ _ => True)
    (fun ended _ => operation.job.Charged ended.1) ()
  ended : ∀ result, operation.outcome = some result → operation.job.Charged result

theorem charged_of_begun {operation : Operation Client}
    (begun : operation.work = operation.job.body ()) (executing : operation.Executing) :
    operation.Charged := by
  constructor
  · intro _
    rw [begun]
    apply Program.wp_mono operation.job.body_charged (fun _ _ _ => id)
    rintro ⟨error | value, _⟩ _ charged
    · exact operation.job.charged_error error
    · exact charged
  · intro result found
    rw [executing] at found
    cases found

theorem Charged.advances (charged : operation.Charged) (advanced : operation.Advances operation') :
    operation'.Charged := by
  cases advanced with
  | works executing issued replied =>
      have running := charged.running executing
      rw [issued] at running
      exact ⟨fun _ => running.2 _ () ⟨_, _, replied⟩, charged.ended⟩
  | finishes executing ended =>
      have running := charged.running executing
      rw [ended] at running
      constructor
      · exact fun executing => nomatch executing
      · rintro _ ⟨⟩
        exact running
  | dies text =>
      constructor
      · exact fun executing => nomatch executing
      · rintro _ ⟨⟩
        exact operation.job.charged_error _
  | releases | detaches => exact ⟨charged.running, charged.ended⟩

/-- A worker drops its reservations first and its guard last. -/
def Ordered (operation : Operation Client) : Prop :=
  operation.owned <:+ [.reservations, .permit, .guard]

theorem Ordered.advances (ordered : operation.Ordered) (advanced : operation.Advances operation') :
    operation'.Ordered := by
  cases advanced with
  | @releases holding owned ended owns =>
      unfold Ordered at ordered
      rw [owns] at ordered
      exact (List.suffix_cons holding owned).trans ordered
  | _ => exact ordered

theorem Ordered.owned_eq_nil (ordered : operation.Ordered) (unguarded : .guard ∉ operation.owned) :
    operation.owned = [] := by
  by_contra owns
  apply unguarded
  have last := ordered.getLast owns
  have guard : [Holding.reservations, .permit, .guard].getLast (by simp) = .guard := rfl
  rw [guard] at last
  rw [← last]
  exact List.getLast_mem owns

def charges (operation : Operation Client) : List MemoryCharge :=
  (if .reservations ∈ operation.owned then operation.held else []) ++
    match operation.outcome with
    | some result => operation.job.handed result
    | none => []

end Operation

section Runs

variable [DecidableEq Client] {first state : State Shared Actor}
  {allowed : State Shared Actor → Event Client → Prop} {permits : Nat} {world : World Shared}

theorem Reaches.charged (reaches : Reaches clients allowed first state)
    (charged : ∀ operation ∈ first.operations, operation.Charged) :
    ∀ operation ∈ state.operations, operation.Charged := by
  induction reaches with
  | refl => exact charged
  | step _ step _ inductionHypothesis =>
      refine step.each_operation ?_ ?_ ?_ inductionHypothesis
      · exact fun _ _ => Operation.charged_of_begun rfl rfl
      · exact fun _ _ => Operation.charged_of_begun rfl rfl
      · exact fun _ _ advanced charged => charged.advances advanced

theorem Reaches.ordered (reaches : Reaches clients allowed first state)
    (ordered : ∀ operation ∈ first.operations, operation.Ordered) :
    ∀ operation ∈ state.operations, operation.Ordered := by
  induction reaches with
  | refl => exact ordered
  | step _ step _ inductionHypothesis =>
      refine step.each_operation ?_ ?_ ?_ inductionHypothesis
      · exact fun _ _ => List.suffix_refl _
      · exact fun _ _ => List.nil_suffix
      · exact fun _ _ advanced ordered => ordered.advances advanced

omit [DecidableEq Client] in
theorem State.Conserved.idle {state : State Shared Actor} (conserved : state.Conserved permits)
    {scope : ScopeId} (idle : state.pending scope = 0) :
    (∀ call ∈ state.waiting, call.scope ≠ scope) ∧
      ∀ operation ∈ state.operations, operation.scope = some scope →
        ¬operation.Executing ∧ .guard ∉ operation.owned := by
  have counted := conserved.pending scope
  rw [idle] at counted
  have nobody : state.waitingIn scope = 0 := by omega
  have nothing : state.guardsIn scope = 0 := by omega
  have unguarded : ∀ operation ∈ state.operations, operation.scope = some scope →
      .guard ∉ operation.owned := by
    intro operation member inScope guarded
    have counts := List.countP_eq_zero.mp nothing operation member
    exact counts (decide_eq_true ⟨inScope, guarded⟩)
  constructor
  · intro call member same
    exact List.countP_eq_zero.mp nobody call member (decide_eq_true same)
  · intro operation member inScope
    refine ⟨?_, unguarded operation member inScope⟩
    intro executing
    have owned := (conserved.sound operation member).executing executing (by simp [inScope])
    apply unguarded operation member inScope
    simp [owned]

/-- When a scope is idle, nothing is charged for its operations but frames that were
read and not yet taken: each at the size of its row and three times its bytes and
32.  One whose caller is gone only waits to be thrown away. -/
theorem settled_at_idle (reaches : Reaches clients anyStep (.initial permits world) state)
    {scope : ScopeId} (idle : state.pending scope = 0) :
    (∀ call ∈ state.waiting, call.scope ≠ scope) ∧
      ∀ before operation after, state.operations = before ++ operation :: after →
        operation.scope = some scope →
          operation.owned = [] ∧ ∃ result, operation.outcome = some result ∧
            operation.charges = operation.job.handed result ∧ operation.job.Charged result ∧
            (operation.attached = false → ∃ state', Step clients state .dispose state' ∧
              state'.operations = before ++ after) := by
  have conserved := reaches.conserved (State.conserved_initial world)
  obtain ⟨nobody, unguarded⟩ := conserved.idle idle
  refine ⟨nobody, ?_⟩
  intro before operation after split inScope
  have member : operation ∈ state.operations := by simp [split]
  obtain ⟨ended, guard⟩ := unguarded operation member inScope
  have ordered := reaches.ordered (by simp [State.initial]) operation member
  have charged := reaches.charged (by simp [State.initial]) operation member
  have released : operation.owned = [] := ordered.owned_eq_nil guard
  obtain ⟨result, found⟩ := Option.ne_none_iff_exists'.mp ended
  refine ⟨released, result, found, ?_, charged.ended result found, ?_⟩
  · simp [Operation.charges, released, found]
  · exact fun detached => ⟨_, .dispose split detached ended released, rfl⟩

end Runs

/-- A reader drops its read, and the worker reads the frame to its end. -/
def readAndDrop : ReplayScript :=
  appendAndLend ++ [.choose (.move (.reader 0) .nextCommitted), .drive (.reader 0) .seal asleep 200,
    .choose (.acquire 0), .choose (.work 0), .choose (.cancel (.reader 0))] ++
    List.replicate 6 (.choose (.work 0)) ++ List.replicate 3 (.choose (.release 0))

/-- The scope is idle while the frame of a reader that is gone is still charged. -/
theorem settled_at_idle_dropped :
    ∃ state, Reaches byteReplay anyStep byteStart state ∧ state.pending 0 = 0 ∧
      state.operations.flatMap Operation.charges = [⟨1⟩, ⟨38⟩] ∧
      ∃ state', Step byteReplay state .dispose state' ∧ state'.operations = [] := by
  obtain ⟨state, reached, tested⟩ := reaches_of_runReplay readAndDrop (fun state =>
    state.pending 0 = 0 ∧ state.operations.flatMap Operation.charges = [⟨1⟩, ⟨38⟩] ∧
      state.operations.map (fun operation => (operation.scope, operation.attached)) =
        [(some 0, false)]) (by decide +kernel)
  obtain ⟨idle, charges, operations⟩ := of_decide_eq_true tested
  obtain ⟨operation, rest, split, same, none⟩ := List.map_eq_cons_iff.mp operations
  obtain rfl := List.map_eq_nil_iff.mp none
  obtain ⟨inScope, detached⟩ := Prod.mk.inj same
  obtain ⟨-, settled⟩ := settled_at_idle reached idle
  obtain ⟨-, result, -, -, -, disposed⟩ := settled [] operation [] split inScope
  exact ⟨state, reached, idle, charges, disposed detached⟩

end SortGovernor.Runtime
