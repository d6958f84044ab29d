import SortGovernor.Resumption.Logic

/-!
# Which errors a method raises

`restrict` leaves a semantics only its good replies.  `Raises` is the judgement
that tells a method's own errors from those it hands on: it keeps a condition of
the world, a result of it is of a known kind, and so is every error it throws.
-/

namespace SortGovernor.Resumption

variable {sig : Signature} {World Left Result Result' : Type} {sem : Semantics sig World}

/-- A world that gives good replies only. -/
def Semantics.restrict (sem : Semantics sig World) (good : (op : sig.Op) → sig.Reply op → Prop) :
    Semantics sig World where
  reply op world reply next := sem.reply op world reply next ∧ good op reply
  drop := sem.drop

theorem Runs.of_restrict {good : (op : sig.Op) → sig.Reply op → Prop}
    {program : Program sig Left Result} {world last : World} {outcome : Outcome Left Result}
    (run : Runs (sem.restrict good) program world outcome last) :
    Runs sem program world outcome last := by
  induction run with
  | done => exact .done
  | step replied _ inductionHypothesis => exact .step replied.1 inductionHypothesis
  | drop dropped => exact .drop dropped

namespace Method

variable {Error State Inner : Type} {invariant : World → Prop} {raised : Error → Prop}
  {known : Result → Prop} {known' : Result' → Prop}

/-- In a world that satisfies the invariant, the method keeps it, gives a known
result, or throws one of the errors of `raised`. -/
def Raises (sem : Semantics sig World) (invariant : World → Prop) (raised : Error → Prop)
    (known : Result → Prop) (method : Method sig Error State Result) : Prop :=
  ∀ state world, invariant world →
    method.wp sem (fun _ _ _ => True) (fun result _ world => invariant world ∧ known result)
      (fun error _ _ => raised error) state world

theorem raises_pure {result : Result} (holds : known result) :
    Raises sem invariant raised known (pure result : Method sig Error State Result) :=
  fun _ _ kept => ⟨kept, holds⟩

theorem raises_throw {error : Error} (holds : raised error) :
    Raises sem invariant raised known (throw error : Method sig Error State Result) :=
  fun _ _ _ => holds

theorem raises_get :
    Raises sem invariant raised (fun _ => True) (get : Method sig Error State State) :=
  fun _ _ kept => ⟨kept, trivial⟩

theorem raises_modify (f : State → State) :
    Raises sem invariant raised (fun _ => True) (modify f : Method sig Error State PUnit) :=
  fun _ _ kept => ⟨kept, trivial⟩

theorem raises_bind {method : Method sig Error State Result}
    {next : Result → Method sig Error State Result'}
    (first : Raises sem invariant raised known method)
    (rest : ∀ result, known result → Raises sem invariant raised known' (next result)) :
    Raises sem invariant raised known' (method >>= next) := by
  intro state world kept
  rw [wp_bind]
  apply wp_post (first state world kept)
  · exact fun result state world given => rest result given.2 state world given.1
  · exact fun _ _ _ thrown => thrown

theorem raises_issue {op : sig.Op} {known : sig.Reply op → Prop}
    (step : ∀ world reply next, sem.reply op world reply next → invariant world →
      invariant next ∧ known reply) :
    Raises sem invariant raised known (Method.issue op : Method sig Error State _) :=
  fun _ world kept => ⟨trivial, fun reply next replied => step world reply next replied kept⟩

theorem raises_okOr {value : Option Result} {error : Error}
    (absent : value = none → raised error)
    (present : ∀ result, value = some result → known result) :
    Raises sem invariant raised known (okOr value error : Method sig Error State Result) := by
  cases value with
  | none => exact raises_throw (absent rfl)
  | some result => exact raises_pure (present result rfl)

theorem raises_ite {condition : Prop} [Decidable condition]
    {first second : Method sig Error State Result}
    (onTrue : condition → Raises sem invariant raised known first)
    (onFalse : ¬condition → Raises sem invariant raised known second) :
    Raises sem invariant raised known (if condition then first else second) := by
  split
  · exact onTrue ‹_›
  · exact onFalse ‹_›

theorem raises_within {inner : Inner} {put : Inner → State → State}
    {method : Method sig Error Inner Result} (raises : Raises sem invariant raised known method) :
    Raises sem invariant raised known (within inner put method) := by
  intro state world kept
  rw [wp_within]
  exact raises inner world kept

theorem raises_call {inner : Inner} {method : Method sig Error Inner Result}
    (raises : Raises sem invariant raised known method) :
    Raises sem invariant raised (fun given => known given.1)
      (call inner method : Method sig Error State (Result × Inner)) := by
  intro state world kept
  rw [wp_call]
  exact raises inner world kept

end Method

end SortGovernor.Resumption
