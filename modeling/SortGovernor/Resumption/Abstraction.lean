import SortGovernor.Resumption.Logic

/-!
# Abstract worlds and what methods give

A semantics over a smaller world that allows every reply of another is an
abstraction of it, and a precondition shown there holds here.  `Gives` is the
judgement used under such a semantics: a method keeps a condition of its state at
every request and at its end, and a result of it is of a known kind.
-/

namespace SortGovernor.Resumption

variable {sig : Signature} {World World' : Type} {Left Result : Type}

/-- Every reply of the concrete semantics is one of the abstract semantics. -/
def Semantics.Simulates (sem : Semantics sig World) (abstract : Semantics sig World')
    (view : World → World') : Prop :=
  ∀ op world reply next, sem.reply op world reply next →
    abstract.reply op (view world) reply (view next)

namespace Program

variable {sem : Semantics sig World} {abstract : Semantics sig World'} {view : World → World'}

theorem wp_concrete {issue : Left → sig.Op → World' → Prop} {post : Result → World' → Prop}
    (simulates : sem.Simulates abstract view) {program : Program sig Left Result} {world : World}
    (holds : program.wp abstract issue post (view world)) :
    program.wp sem (fun left op world => issue left op (view world))
      (fun result world => post result (view world)) world := by
  induction program generalizing world with
  | done result => exact holds
  | request left op resume inductionHypothesis =>
      refine ⟨holds.1, ?_⟩
      intro reply next replied
      apply inductionHypothesis
      exact holds.2 reply (view next) (simulates op world reply next replied)

end Program

namespace Method

variable {Error State Inner Result' : Type} {sem : Semantics sig World} {allowed : sig.Op → Prop}
  {good : State → Prop} {known : Result → Prop} {known' : Result' → Prop}

/-- From a good state the method issues allowed requests in good states, ends in
a good state and gives a known result. -/
def Gives (sem : Semantics sig World) (allowed : sig.Op → Prop) (good : State → Prop)
    (known : Result → Prop) (method : Method sig Error State Result) : Prop :=
  ∀ state world, good state →
    method.wp sem (fun state op _ => allowed op ∧ good state)
      (fun result state _ => good state ∧ known result) (fun _ state _ => good state) state world

theorem Gives.weaken {method : Method sig Error State Result} {weaker : Result → Prop}
    (gives : Gives sem allowed good known method)
    (weaken : ∀ result, known result → weaker result) :
    Gives sem allowed good weaker method := by
  intro state world holds
  apply wp_post (gives state world holds)
  · exact fun result _ _ given => ⟨given.1, weaken result given.2⟩
  · exact fun _ _ _ stayed => stayed

theorem gives_pure {result : Result} (holds : known result) :
    Gives sem allowed good known (pure result : Method sig Error State Result) :=
  fun _ _ stays => ⟨stays, holds⟩

theorem gives_throw {error : Error} :
    Gives sem allowed good known (throw error : Method sig Error State Result) :=
  fun _ _ stays => stays

theorem gives_get : Gives sem allowed good good (get : Method sig Error State State) :=
  fun _ _ stays => ⟨stays, stays⟩

theorem gives_modify {f : State → State} (keeps : ∀ state, good state → good (f state)) :
    Gives sem allowed good (fun _ => True) (modify f : Method sig Error State PUnit) :=
  fun state _ stays => ⟨keeps state stays, trivial⟩

theorem gives_bind {method : Method sig Error State Result}
    {next : Result → Method sig Error State Result'} (first : Gives sem allowed good known method)
    (rest : ∀ result, known result → Gives sem allowed good known' (next result)) :
    Gives sem allowed good known' (method >>= next) := by
  intro state world holds
  rw [wp_bind]
  apply wp_post (first state world holds)
  · exact fun result state world given => rest result given.2 state world given.1
  · exact fun _ _ _ stayed => stayed

theorem gives_issue {op : sig.Op} {known : sig.Reply op → Prop} (permitted : allowed op)
    (replies : ∀ world reply next, sem.reply op world reply next → known reply) :
    Gives sem allowed good known (Method.issue op : Method sig Error State _) := by
  intro state world stays
  refine ⟨⟨permitted, stays⟩, ?_⟩
  exact fun reply next replied => ⟨stays, replies world reply next replied⟩

theorem gives_okOr {value : Option Result} {error : Error}
    (holds : ∀ result, value = some result → known result) :
    Gives sem allowed good known (okOr value error : Method sig Error State Result) := by
  cases value with
  | none => exact gives_throw
  | some result => exact gives_pure (holds result rfl)

theorem gives_ofExcept {result : Except Error Result}
    (holds : ∀ value, result = .ok value → known value) :
    Gives sem allowed good known (ofExcept result : Method sig Error State Result) := by
  cases result with
  | error error => exact gives_throw
  | ok value => exact gives_pure (holds value rfl)

theorem gives_ite {condition : Prop} [Decidable condition]
    {first second : Method sig Error State Result}
    (onTrue : condition → Gives sem allowed good known first)
    (onFalse : ¬condition → Gives sem allowed good known second) :
    Gives sem allowed good known (if condition then first else second) := by
  split
  · exact onTrue ‹_›
  · exact onFalse ‹_›

theorem gives_set {state' : State} (holds : good state') :
    Gives sem allowed good (fun _ => True) (set state' : Method sig Error State PUnit) :=
  fun _ _ _ => ⟨holds, trivial⟩

theorem gives_attempt {inner : Inner} {method : Method sig Error Inner Result}
    {goodInner : Inner → Prop} (gives : Gives sem allowed goodInner known method)
    (holds : goodInner inner) :
    Gives sem allowed good (fun outcome => goodInner outcome.2 ∧
        ∀ result, outcome.1 = .ok result → known result)
      (attempt inner method : Method sig Error State (Except Error Result × Inner)) := by
  intro state world stays
  rw [wp_attempt]
  apply wp_mono (gives inner world holds)
  · exact fun _ _ _ issued => ⟨issued.1, stays⟩
  · rintro result inner _ ⟨kept, given⟩
    refine ⟨stays, kept, ?_⟩
    rintro _ ⟨⟩
    exact given
  · exact fun error inner _ kept => ⟨stays, kept, fun _ same => by cases same⟩

theorem gives_call {inner : Inner} {method : Method sig Error Inner Result}
    {goodInner : Inner → Prop}
    (gives : Gives sem allowed goodInner known method) (holds : goodInner inner) :
    Gives sem allowed good (fun outcome => goodInner outcome.2 ∧ known outcome.1)
      (call inner method : Method sig Error State (Result × Inner)) := by
  intro state world stays
  rw [wp_call]
  apply wp_mono (gives inner world holds)
  · exact fun _ _ _ issued => ⟨issued.1, stays⟩
  · exact fun _ _ _ given => ⟨stays, given⟩
  · exact fun _ _ _ _ => stays

theorem gives_within {inner : Inner} {put : Inner → State → State}
    {method : Method sig Error Inner Result} {goodInner : Inner → Prop}
    (gives : Gives sem allowed goodInner known method) (holds : goodInner inner)
    (keeps : ∀ inner state, goodInner inner → good state → good (put inner state)) :
    Gives sem allowed good known (within inner put method) := by
  intro state world stays
  rw [wp_within]
  apply wp_mono (gives inner world holds)
  · exact fun inner _ _ issued => ⟨issued.1, keeps inner state issued.2 stays⟩
  · exact fun _ inner _ given => ⟨keeps inner state given.1 stays, given.2⟩
  · exact fun _ inner _ stayed => keeps inner state stayed stays

end Method

end SortGovernor.Resumption
