import SortGovernor.Engine.SortRuns

/-!
# Heap entries and buffered heads

A source has one heap entry while it has a head and none when it is exhausted.
A failed call may leave a head without its entry, but never an entry without
the head it names, so whatever is popped can be taken.
-/

namespace SortGovernor.Engine

open SortGovernor.Resumption SortGovernor.Sorting

variable {Key Value State : Type} {codec : Codec Key Value}

namespace MergeState

def entryKeys (merge : MergeState Key Value) (idx : Nat) : List Key :=
  (merge.heap.filter fun entry => entry.idx = idx).map HeapEntry.key

def headKeys (merge : MergeState Key Value) (idx : Nat) : List Key :=
  ((merge.sources[idx]?).bind MergeSource.head).toList.map RunRow.key

/-- For every index the entries of the heap and the head are related. -/
def Paired (rel : List Key → List Key → Prop) (merge : MergeState Key Value) : Prop :=
  ∀ idx, rel (merge.entryKeys idx) (merge.headKeys idx)

/-- Exactly the sources with a head have an entry, one each, with its key. -/
abbrev Corresponds (merge : MergeState Key Value) : Prop := merge.Paired Eq

/-- Every entry is the only one of its source and names the head of it. -/
abbrev Sound (merge : MergeState Key Value) : Prop := merge.Paired List.Sublist

/-- Between the pop of an entry and the push of the next one of its source. -/
structure Released (rel : List Key → List Key → Prop) (idx : Nat) (merge : MergeState Key Value) :
    Prop where
  absent : merge.entryKeys idx = []
  others : ∀ other, other ≠ idx → rel (merge.entryKeys other) (merge.headKeys other)

theorem headKeys_setSource {merge : MergeState Key Value} {idx : Nat}
    {source old : MergeSource Key Value}
    (found : merge.sources[idx]? = some old) (other : Nat) :
    (merge.setSource idx source).headKeys other =
      if other = idx then source.head.toList.map RunRow.key else merge.headKeys other := by
  have inside : idx < merge.sources.length := (List.getElem?_eq_some_iff.mp found).1
  simp only [headKeys, setSource, List.getElem?_set, inside]
  by_cases same : idx = other
  · simp [same]
  · simp [same, Ne.symm same]

theorem sum_set {values : List Nat} {idx old new : Nat} (found : values[idx]? = some old) :
    (values.set idx new).sum + old = values.sum + new := by
  induction values generalizing idx with
  | nil => cases found
  | cons value values inductionHypothesis =>
      cases idx with
      | zero =>
          cases found
          simp only [List.set_cons_zero, List.sum_cons]
          omega
      | succ idx =>
          have rest := inductionHypothesis found
          simp only [List.set_cons_succ, List.sum_cons]
          omega

theorem rowsLeft_setSource (merge : MergeState Key Value) {idx : Nat}
    (source : MergeSource Key Value) {old : MergeSource Key Value}
    (found : merge.sources[idx]? = some old) :
    (merge.setSource idx source).rowsLeft + (old.head.toList.length + old.reader.remaining) =
      merge.rowsLeft + (source.head.toList.length + source.reader.remaining) := by
  unfold rowsLeft setSource
  rw [List.map_set]
  exact sum_set (by rw [List.getElem?_map, found]; rfl)

theorem Released.mono {rel rel' : List Key → List Key → Prop} {idx : Nat}
    {merge : MergeState Key Value} (released : merge.Released rel idx)
    (weaker : ∀ keys keys', rel keys keys' → rel' keys keys') : merge.Released rel' idx :=
  ⟨released.absent, fun other apart => weaker _ _ (released.others other apart)⟩

theorem Released.sound {idx : Nat} {merge : MergeState Key Value}
    (released : merge.Released List.Sublist idx) : merge.Sound := by
  intro other
  by_cases same : other = idx
  · rw [same, released.absent]
    exact List.nil_sublist _
  · exact released.others other same

theorem Released.setSource {rel : List Key → List Key → Prop} {idx : Nat}
    {merge : MergeState Key Value} {old : MergeSource Key Value}
    (released : merge.Released rel idx) (source : MergeSource Key Value)
    (found : merge.sources[idx]? = some old) : (merge.setSource idx source).Released rel idx := by
  refine ⟨released.absent, fun other apart => ?_⟩
  rw [headKeys_setSource found, if_neg apart]
  exact released.others other apart

theorem Released.paired_of_none {rel : List Key → List Key → Prop} {idx : Nat}
    {merge : MergeState Key Value} {source : MergeSource Key Value} (empty : rel [] [])
    (released : merge.Released rel idx) (found : merge.sources[idx]? = some source)
    (exhausted : source.head = none) : merge.Paired rel := by
  intro other
  by_cases same : other = idx
  · rw [same, released.absent, headKeys, found, Option.bind_some, exhausted]
    exact empty
  · exact released.others other same

theorem Released.paired_of_some {rel : List Key → List Key → Prop} {idx : Nat}
    {merge : MergeState Key Value} {source : MergeSource Key Value} {head : RunRow Key Value}
    (one : rel [head.key] [head.key]) (released : merge.Released rel idx)
    (found : merge.sources[idx]? = some source) (first : source.head = some head) :
    Paired rel { merge with heap := { key := head.key, idx } :: merge.heap } := by
  intro other
  by_cases same : other = idx
  · subst same
    have keys : entryKeys { merge with heap :=
      { key := head.key, idx := other } :: merge.heap } other =
        head.key :: merge.entryKeys other := by
      simp [entryKeys]
    rw [keys, released.absent, headKeys, found, Option.bind_some, first]
    exact one
  · have keys : entryKeys { merge with heap := { key := head.key, idx } :: merge.heap } other =
        merge.entryKeys other := by
      simp [entryKeys, Ne.symm same]
    rw [keys]
    exact released.others other same

theorem eq_of_perm_of_sublist {keys keys' : List Key} {row : Option (RunRow Key Value)}
    (permutation : keys.Perm keys') (inside : keys'.Sublist (row.toList.map RunRow.key)) :
    keys = keys' := by
  cases row with
  | none =>
      obtain rfl := List.sublist_nil.mp inside
      exact permutation.eq_nil
  | some row =>
      obtain rfl | rfl := List.sublist_singleton.mp inside
      · exact permutation.eq_nil
      · exact permutation.eq_singleton

section Popped

variable [LinearOrder Key]

/-- A popped entry names the head of its source. -/
theorem Sound.popped {merge : MergeState Key Value} {entry : HeapEntry Key}
    {others : List (HeapEntry Key)} (sound : merge.Sound)
    (popped : popMin HeapEntry.rank merge.heap = some (entry, others)) :
    ∃ source head, merge.sources[entry.idx]? = some source ∧ source.head = some head ∧
      head.key = entry.key ∧ entryKeys { merge with heap := others } entry.idx = [] := by
  have permutation := popMin_perm _ popped
  have own : (merge.entryKeys entry.idx).Perm
      (entry.key :: entryKeys { merge with heap := others } entry.idx) := by
    have parts := (permutation.filter fun other => other.idx = entry.idx).map HeapEntry.key
    simpa [entryKeys] using parts
  have named := sound entry.idx
  rw [headKeys] at named
  cases found : merge.sources[entry.idx]? with
  | none =>
      rw [found, Option.bind_none] at named
      rw [List.sublist_nil.mp named] at own
      exact absurd own.symm.eq_nil (List.cons_ne_nil _ _)
  | some source =>
      rw [found, Option.bind_some] at named
      cases first : source.head with
      | none =>
          rw [first] at named
          rw [List.sublist_nil.mp named] at own
          exact absurd own.symm.eq_nil (List.cons_ne_nil _ _)
      | some head =>
          rw [first] at named
          obtain empty | whole := List.sublist_singleton.mp named
          · rw [empty] at own
            exact absurd own.symm.eq_nil (List.cons_ne_nil _ _)
          · rw [whole] at own
            have same := own.symm.eq_singleton
            rw [List.cons.injEq] at same
            exact ⟨source, head, rfl, first, same.1.symm, same.2⟩

theorem Paired.released {rel : List Key → List Key → Prop} {merge : MergeState Key Value}
    {entry : HeapEntry Key} {others : List (HeapEntry Key)} (paired : merge.Paired rel)
    (sound : merge.Sound) (popped : popMin HeapEntry.rank merge.heap = some (entry, others)) :
    Released rel entry.idx { merge with heap := others } := by
  obtain ⟨-, -, -, -, -, none⟩ := sound.popped popped
  refine ⟨none, fun other apart => ?_⟩
  have permutation := (popMin_perm _ popped).filter fun entry => entry.idx = other
  rw [List.filter_cons_of_neg (by simpa using Ne.symm apart)] at permutation
  have same : entryKeys { merge with heap := others } other = merge.entryKeys other :=
    eq_of_perm_of_sublist (permutation.map HeapEntry.key).symm (sound other)
  rw [same]
  exact paired other

end Popped

/-- While a merge is suspended or has failed its entries are sound, and at every
suspension point they are related to the heads by `rel`. -/
def Orderly {Result : Type} (codec : Codec Key Value) (rel : List Key → List Key → Prop)
    (method : Async Key Value (MergeState Key Value) Result)
    (ok : Result → MergeState Key Value → World → Prop) (merge : MergeState Key Value)
    (world : World) : Prop :=
  method.wp (sessionSemantics codec)
    (fun merge op _ => merge.Sound ∧ (op.awaits = true → merge.Paired rel)) ok
    (fun abort merge world => Reports abort merge world ∧ merge.Sound) merge world

end MergeState

section Calls

variable [Layout Key Value] {world : World}

theorem RunReader.wp_nextRow_counted {issue : RunReader → Request Key Value → World → Prop}
    {err : Abort → RunReader → World → Prop} {reader : RunReader}
    {ok : Option (RunRow Key Value) → RunReader → World → Prop}
    (issued : ∀ reader op world, issue reader op world)
    (failed : ∀ error reader world, err (.error error) reader world)
    (ended : ok none reader world)
    (read : ∀ row reader' world', reader'.remaining + 1 = reader.remaining →
      ok (some row) reader' world') :
    RunReader.nextRow.wp (sessionSemantics codec) issue ok err reader world := by
  unfold RunReader.nextRow
  refine Method.wp_bind.mpr (Method.wp_get.mpr (Method.wp_ite.mpr ⟨fun _ => ended, fun more => ?_⟩))
  refine Method.wp_bind.mpr (wp_perform_of _ (fun _ => issued _ _ _) (fun _ => issued _ _ _)
    (fun _ _ => failed _ _ _) ?_)
  intro frame fs _
  refine Method.wp_bind.mpr (wp_decode (issued _ _ _) ?_)
  intro decoded _
  refine Method.wp_bind.mpr (wp_propagate.mpr ?_)
  cases decoded with
  | error text => exact failed _ _ _
  | ok decoded =>
      refine Method.wp_bind.mpr (wp_orError_of (failed _ _ _) fun len _ => ?_)
      refine Method.wp_bind.mpr (wp_orError_of (failed _ _ _) fun next _ => ?_)
      refine read _ _ _ ?_
      simp only
      omega

theorem MergeSource.wp_takeHead_counted
    {issue : MergeSource Key Value → Request Key Value → World → Prop}
    {err : Abort → MergeSource Key Value → World → Prop} {source : MergeSource Key Value}
    {row : RunRow Key Value} {ok : RunRow Key Value → MergeSource Key Value → World → Prop}
    (issued : ∀ source op world, source.head = none → issue source op world)
    (failed : ∀ error source world, err (.error error) source world)
    (head : source.head = some row)
    (taken : ∀ source' world', source'.head.toList.length + source'.reader.remaining + 1 =
        source.head.toList.length + source.reader.remaining → ok row source' world') :
    MergeSource.takeHead.wp (sessionSemantics codec) issue ok err source world := by
  unfold MergeSource.takeHead
  refine Method.wp_bind.mpr (Method.wp_get.mpr ?_)
  rw [head]
  refine Method.wp_bind.mpr (Method.wp_modify.mpr ?_)
  refine Method.wp_bind.mpr (Method.wp_get.mpr ?_)
  refine Method.wp_bind.mpr (Method.wp_within.mpr ?_)
  apply RunReader.wp_nextRow_counted
  · exact fun reader op world => issued _ op world rfl
  · exact fun error reader world => failed error _ world
  · refine taken _ _ ?_
    simp [head, Nat.add_comm]
  · intro next reader' world' counted
    refine taken _ _ ?_
    simp only [head, Option.toList_some, List.length_singleton] at counted ⊢
    omega

namespace MergeState

variable {rel : List Key → List Key → Prop} {merge : MergeState Key Value}
  (weaker : ∀ keys keys', rel keys keys' → keys.Sublist keys') (refl : ∀ keys, rel keys keys)

include weaker refl

omit [Layout Key Value] in
theorem orderly_refill {idx : Nat} {source : MergeSource Key Value}
    {ok : Unit → MergeState Key Value → World → Prop} (released : merge.Released rel idx)
    (found : merge.sources[idx]? = some source)
    (done : ∀ merge', merge'.Paired rel → merge'.dedup = merge.dedup →
      merge'.rowsLeft = merge.rowsLeft → ok () merge' world) :
    Orderly codec rel (refill idx) ok merge world := by
  unfold Orderly refill
  refine Method.wp_bind.mpr (wp_source found ?_)
  obtain ⟨_ | head, reader, charge⟩ := source
  · exact done merge (released.paired_of_none (refl _) found rfl) rfl rfl
  · have sound := (released.mono weaker).sound
    refine Method.wp_bind.mpr (wp_reserve ⟨sound, fun awaits => absurd awaits Bool.false_ne_true⟩
      (fun error => ⟨⟨error, rfl⟩, sound⟩) ?_)
    refine Method.wp_bind.mpr (Method.wp_modify.mpr (Method.wp_modify.mpr ?_))
    have inside : idx < merge.sources.length := (List.getElem?_eq_some_iff.mp found).1
    have charged :
      (merge.setSource idx ⟨some head, reader, some ⟨head.retainedBytes⟩⟩).sources[idx]? =
        some ⟨some head, reader, some ⟨head.retainedBytes⟩⟩ := by
      simp [setSource, inside]
    apply done
    · exact (released.setSource _ found).paired_of_some (refl _) charged rfl
    · rfl
    · have kept := rowsLeft_setSource merge ⟨some head, reader, some ⟨head.retainedBytes⟩⟩ found
      simp only [rowsLeft] at kept ⊢
      omega

variable [LinearOrder Key]

/-- One turn of `next_row` takes a row and keeps the entries in order. -/
theorem orderly_takeNext {ok : Option (RunRow Key Value) → MergeState Key Value → World → Prop}
    (paired : merge.Paired rel) (ended : ok none merge world)
    (taken : ∀ row merge' world', merge'.Paired rel → merge'.dedup = merge.dedup →
      merge'.rowsLeft + 1 = merge.rowsLeft → ok (some row) merge' world') :
    Orderly codec rel takeNext ok merge world := by
  have sound : merge.Sound := fun idx => weaker _ _ (paired idx)
  unfold Orderly takeNext
  refine Method.wp_bind.mpr (Method.wp_get.mpr ?_)
  cases popped : popMin HeapEntry.rank merge.heap with
  | none => exact ended
  | some popped' =>
      obtain ⟨entry, others⟩ := popped'
      obtain ⟨source, head, found, first, -, -⟩ := sound.popped popped
      have released := paired.released sound popped
      refine Method.wp_bind.mpr (Method.wp_modify.mpr ?_)
      refine Method.wp_bind.mpr (wp_source found ?_)
      refine Method.wp_bind.mpr (Method.wp_modify.mpr ?_)
      have inside : entry.idx < merge.sources.length := (List.getElem?_eq_some_iff.mp found).1
      have uncharged : (setSource { merge with heap := others } entry.idx
          { source with keyCharge := none }).sources[entry.idx]? = some { source with
            keyCharge := none } := by
        simp [setSource, inside]
      refine Method.wp_bind.mpr (Method.wp_within.mpr ?_)
      apply MergeSource.wp_takeHead_counted
      · intro source' op world' exhausted
        have still := (released.setSource _ found).setSource source' uncharged
        refine ⟨(still.mono weaker).sound, fun _ => still.paired_of_none (refl _) ?_ exhausted⟩
        simp [setSource, inside]
      · intro error source' world'
        have still := (released.setSource _ found).setSource source' uncharged
        exact ⟨⟨error, rfl⟩, (still.mono weaker).sound⟩
      · exact first
      · intro source' world' counted
        have still := (released.setSource _ found).setSource source' uncharged
        have refilled : (setSource (setSource { merge with heap := others } entry.idx
            { source with keyCharge := none }) entry.idx source').sources[entry.idx]? =
              some source' := by
          simp [setSource, inside]
        refine Method.wp_bind.mpr (orderly_refill weaker refl still refilled ?_)
        intro merge' paired' sameDedup sameRows
        refine taken head merge' world' paired' sameDedup ?_
        rw [sameRows]
        have kept := rowsLeft_setSource { merge with heap := others }
          { source with keyCharge := none } found
        have fewer := rowsLeft_setSource _ source' uncharged
        simp only [rowsLeft] at kept fewer counted ⊢
        omega

theorem orderly_nextRowLoop {turns : Nat} (paired : merge.Paired rel)
    (enough : merge.rowsLeft < turns) :
    Orderly codec rel (nextRowLoop turns) (fun _ merge' _ => merge'.Paired rel) merge world := by
  induction turns generalizing merge world with
  | zero => omega
  | succ turns inductionHypothesis =>
      unfold Orderly nextRowLoop
      refine Method.wp_bind.mpr (orderly_takeNext weaker refl paired paired ?_)
      intro row merge' world' paired' sameDedup counted
      refine Method.wp_bind.mpr
        (Method.wp_get.mpr (Method.wp_ite.mpr ⟨fun _ => ?_, fun _ => paired'⟩))
      refine Method.wp_bind.mpr (Method.wp_get.mpr (Method.wp_ite.mpr ⟨fun _ => ?_, fun _ => ?_⟩))
      · exact inductionHypothesis paired' (by omega)
      · have sound : merge'.Sound := fun idx => weaker _ _ (paired' idx)
        refine Method.wp_bind.mpr
          (wp_reserve ⟨sound, fun awaits => absurd awaits Bool.false_ne_true⟩
            (fun error => ⟨⟨error, rfl⟩, sound⟩) ?_)
        exact Method.wp_bind.mpr (Method.wp_modify.mpr paired')

theorem orderly_nextRow (paired : merge.Paired rel) :
    Orderly codec rel nextRow (fun _ merge' _ => merge'.Paired rel) merge world :=
  Method.wp_bind.mpr (Method.wp_get.mpr
    (orderly_nextRowLoop weaker refl paired (Nat.lt_succ_self _)))

end MergeState

end Calls

end SortGovernor.Engine
