import SortGovernor.Sorting.StableSort
import Mathlib.Data.Prod.Lex
import Mathlib.Tactic.Common

/-!
# Merging runs by key and run index

One step of a k-way merge takes the least head, and among equal heads the one
of the earliest run.  A merge of sorted runs is the stable sort of their
concatenation, so neither the number of runs nor the way they are grouped into
intermediate merges shows in the result.
-/

namespace SortGovernor.Sorting

variable {Alpha Key : Type} [LinearOrder Key] (key : Alpha → Key)

/-- `row` is the next row of a merge of `pending`, which leaves `rest`. -/
inductive Takes (row : Alpha) : List (List Alpha) → List (List Alpha) → Prop where
  | head (before : List (List Alpha)) (tail : List Alpha) (after : List (List Alpha)) :
      (∀ run ∈ before, ∀ head ∈ run.head?, key row < key head) →
      (∀ run ∈ after, ∀ head ∈ run.head?, key row ≤ key head) →
      Takes row (before ++ (row :: tail) :: after) (before ++ tail :: after)

/-- `output` is the merge of the runs of `pending`. -/
inductive MergesTo : List (List Alpha) → List Alpha → Prop where
  | nil {pending} : (∀ run ∈ pending, run = []) → MergesTo pending []
  | cons {pending row rest output} :
      Takes key row pending rest → MergesTo rest output → MergesTo pending (row :: output)

variable {key}

theorem Takes.le_head {row : Alpha} {pending rest : List (List Alpha)}
    (taken : Takes key row pending rest) :
    ∀ run ∈ pending, ∀ head ∈ run.head?, key row ≤ key head := by
  rcases taken with ⟨before, tail, after, earlier, later⟩
  intro run member head isHead
  rcases List.mem_append.mp member with inBefore | inRest
  · exact le_of_lt (earlier run inBefore head isHead)
  · rcases List.mem_cons.mp inRest with equal | inAfter
    · subst equal
      simp only [List.head?_cons, Option.mem_def, Option.some.injEq] at isHead
      exact le_of_eq (congrArg key isHead)
    · exact later run inAfter head isHead

theorem Takes.length {row : Alpha} {pending rest : List (List Alpha)}
    (taken : Takes key row pending rest) :
    pending.flatten.length = rest.flatten.length + 1 := by
  rcases taken with ⟨before, tail, after, -, -⟩
  simp only [List.flatten_append, List.flatten_cons, List.length_append, List.length_cons]
  omega

theorem Takes.unique {row row' : Alpha} {pending rest rest' : List (List Alpha)}
    (taken : Takes key row pending rest) (taken' : Takes key row' pending rest') :
    row = row' ∧ rest = rest' := by
  rcases taken with ⟨before, tail, after, earlier, later⟩
  generalize split : before ++ (row :: tail) :: after = pending at taken'
  rcases taken' with ⟨before', tail', after', earlier', later'⟩
  rcases List.append_eq_append_iff.mp split with ⟨between, rfl, same⟩ | ⟨between, rfl, same⟩
  · cases between with
    | nil =>
        cases same
        simp
    | cons run others =>
        cases same
        have less := earlier' (row :: tail) (by simp) row rfl
        have le := later (row' :: tail') (by simp) row' rfl
        exact absurd less (not_lt_of_ge le)
  · cases between with
    | nil =>
        cases same
        simp
    | cons run others =>
        cases same
        have less := earlier (row' :: tail') (by simp) row' rfl
        have le := later' (row :: tail) (by simp) row rfl
        exact absurd less (not_lt_of_ge le)

variable (key) in
/-- Some row can be taken unless every run is empty. -/
theorem exists_takes (pending : List (List Alpha)) :
    (∀ run ∈ pending, run = []) ∨ ∃ row rest, Takes key row pending rest := by
  induction pending with
  | nil => exact .inl (by simp)
  | cons run others inductionHypothesis =>
      cases run with
      | nil =>
          rcases inductionHypothesis with empty | ⟨row, rest, taken⟩
          · exact .inl (by simpa using empty)
          · rcases taken with ⟨before, tail, after, earlier, later⟩
            refine .inr ⟨row, _, Takes.head ([] :: before) tail after ?_ later⟩
            simpa using earlier
      | cons head tail =>
          rcases inductionHypothesis with empty | ⟨row, rest, taken⟩
          · refine .inr ⟨head, _, Takes.head [] tail others (by simp) ?_⟩
            intro run member other isHead
            simp [empty run member] at isHead
          · by_cases order : key head ≤ key row
            · refine .inr ⟨head, _, Takes.head [] tail others (by simp) ?_⟩
              intro run member other isHead
              exact le_trans order (taken.le_head run member other isHead)
            · rcases taken with ⟨before, tail', after, earlier, later⟩
              refine .inr ⟨row, _, Takes.head ((head :: tail) :: before) tail' after ?_ later⟩
              intro run member other isHead
              rcases List.mem_cons.mp member with equal | inBefore
              · subst equal
                simp only [List.head?_cons, Option.mem_def, Option.some.injEq] at isHead
                exact isHead ▸ lt_of_not_ge order
              · exact earlier run inBefore other isHead

variable (key) in
theorem exists_mergesTo (pending : List (List Alpha)) : ∃ output, MergesTo key pending output := by
  generalize size : pending.flatten.length = n
  induction n generalizing pending with
  | zero =>
      refine ⟨[], .nil ?_⟩
      intro run member
      exact List.flatten_eq_nil_iff.mp (List.eq_nil_of_length_eq_zero size) run member
  | succ n inductionHypothesis =>
      rcases exists_takes key pending with empty | ⟨row, rest, taken⟩
      · exact ⟨[], .nil empty⟩
      · have shorter : rest.flatten.length = n := by
          have := taken.length
          omega
        rcases inductionHypothesis rest shorter with ⟨output, merged⟩
        exact ⟨row :: output, .cons taken merged⟩

theorem MergesTo.length {pending : List (List Alpha)} {output : List Alpha}
    (merged : MergesTo key pending output) : output.length = pending.flatten.length := by
  induction merged with
  | nil empty => simp [List.flatten_eq_nil_iff.mpr empty]
  | cons taken _ inductionHypothesis =>
      rw [List.length_cons, inductionHypothesis, taken.length]

/-- A merge starts with whatever row it can take. -/
theorem MergesTo.of_takes {row : Alpha} {pending rest : List (List Alpha)} {output : List Alpha}
    (merged : MergesTo key pending output) (taken : Takes key row pending rest) :
    ∃ output', output = row :: output' ∧ MergesTo key rest output' := by
  cases merged with
  | nil empty =>
      rcases taken with ⟨before, tail, after, -, -⟩
      exact absurd (empty (row :: tail) (by simp)) (List.cons_ne_nil row tail)
  | cons taken' merged =>
      rcases taken.unique taken' with ⟨rfl, rfl⟩
      exact ⟨_, rfl, merged⟩

theorem MergesTo.eq_nil {pending : List (List Alpha)} {output : List Alpha}
    (merged : MergesTo key pending output) (empty : ∀ run ∈ pending, run = []) : output = [] := by
  apply List.eq_nil_of_length_eq_zero
  rw [merged.length, List.flatten_eq_nil_iff.mpr empty, List.length_nil]

/-- The merge of sorted runs is the stable sort of their concatenation. -/
theorem MergesTo.stableSortOf {pending : List (List Alpha)} {output : List Alpha}
    (merged : MergesTo key pending output)
    (sorted : ∀ run ∈ pending, run.Pairwise fun a b => key a ≤ key b) :
    StableSortOf key pending.flatten output := by
  induction merged with
  | nil empty =>
      rw [List.flatten_eq_nil_iff.mpr empty]
      exact StableSortOf.nil
  | @cons pending row rest output taken _ inductionHypothesis =>
      have lowest := taken.le_head
      rcases taken with ⟨before, tail, after, earlier, later⟩
      have sortedRest : ∀ run ∈ before ++ tail :: after,
          run.Pairwise fun a b => key a ≤ key b := by
        intro run member
        rcases List.mem_append.mp member with inBefore | inRest
        · exact sorted run (List.mem_append_left _ inBefore)
        · rcases List.mem_cons.mp inRest with equal | inAfter
          · subst equal
            exact (List.pairwise_cons.mp (sorted (row :: run) (by simp))).2
          · exact sorted run (by simp [inAfter])
      have whole := inductionHypothesis sortedRest
      -- every row of a sorted run is at least its head, hence at least `row`
      have lowestAll : ∀ run ∈ before ++ (row :: tail) :: after, ∀ a ∈ run, key row ≤ key a := by
        intro run member a inRun
        cases run with
        | nil => simp at inRun
        | cons head others =>
            have atHead := lowest _ member head (by simp)
            rcases List.mem_cons.mp inRun with equal | inOthers
            · exact equal ▸ atHead
            · exact le_trans atHead ((List.pairwise_cons.mp (sorted _ member)).1 a inOthers)
      refine ⟨List.pairwise_cons.mpr ⟨?_, whole.sorted⟩, ?_⟩
      · intro a member
        have inRest := whole.mem_iff.mp member
        simp only [List.flatten_append, List.flatten_cons, List.mem_append,
          List.mem_flatten] at inRest
        rcases inRest with ⟨run, inBefore, inRun⟩ | inTail | ⟨run, inAfter, inRun⟩
        · exact lowestAll run (List.mem_append_left _ inBefore) a inRun
        · exact lowestAll (row :: tail) (by simp) a (List.mem_cons_of_mem row inTail)
        · exact lowestAll run (by simp [inAfter]) a inRun
      · intro k
        rw [group_cons, whole.stable k]
        simp only [List.flatten_append, List.flatten_cons, group_append,
          List.cons_append, group_cons]
        split
        · rename_i equal
          -- earlier runs hold only strictly larger keys
          have none : group key k before.flatten = [] := by
            apply group_eq_nil
            intro a member
            rcases List.mem_flatten.mp member with ⟨run, inBefore, inRun⟩
            cases run with
            | nil => simp at inRun
            | cons head others =>
                have atHead := earlier _ inBefore head (by simp)
                have sortedRun := sorted (head :: others) (List.mem_append_left _ inBefore)
                have above : key row < key a := by
                  rcases List.mem_cons.mp inRun with same | inOthers
                  · exact same ▸ atHead
                  · exact lt_of_lt_of_le atHead ((List.pairwise_cons.mp sortedRun).1 a inOthers)
                exact fun same => absurd above (by simp [equal, same])
          simp [none]
        · rfl

variable (key) in
/-- The key and the position of every head, for runs numbered from `n`. -/
def heads (n : Nat) : List (List Alpha) → List (Key × Nat)
  | [] => []
  | [] :: runs => heads (n + 1) runs
  | (row :: _) :: runs => (key row, n) :: heads (n + 1) runs

omit [LinearOrder Key] in
theorem heads_append (n : Nat) (first second : List (List Alpha)) :
    heads key n (first ++ second) = heads key n first ++ heads key (n + first.length) second := by
  induction first generalizing n with
  | nil => rfl
  | cons run runs inductionHypothesis =>
      have next : n + 1 + runs.length = n + (runs.length + 1) := by omega
      cases run <;> simp [heads, inductionHypothesis, next]

variable (key) in
omit [LinearOrder Key] in
theorem mem_heads_of_mem (n : Nat) (before : List (List Alpha)) (row : Alpha) (tail : List Alpha)
    (after : List (List Alpha)) :
    (key row, n + before.length) ∈ heads key n (before ++ (row :: tail) :: after) := by
  rw [heads_append]
  exact List.mem_append_right _ (List.mem_cons_self ..)

omit [LinearOrder Key] in
theorem exists_of_mem_heads {n : Nat} {pending : List (List Alpha)} {entry : Key × Nat}
    (member : entry ∈ heads key n pending) :
    ∃ before row tail after, pending = before ++ (row :: tail) :: after ∧
      entry = (key row, n + before.length) := by
  induction pending generalizing n with
  | nil => simp [heads] at member
  | cons run runs inductionHypothesis =>
      cases run with
      | nil =>
          rcases inductionHypothesis member with ⟨before, row, tail, after, rfl, rfl⟩
          refine ⟨[] :: before, row, tail, after, rfl, ?_⟩
          rw [List.length_cons, Nat.add_right_comm, Nat.add_assoc]
      | cons head others =>
          rcases List.mem_cons.mp member with rfl | inRest
          · exact ⟨[], head, others, runs, rfl, rfl⟩
          · rcases inductionHypothesis inRest with ⟨before, row, tail, after, rfl, rfl⟩
            refine ⟨(head :: others) :: before, row, tail, after, rfl, ?_⟩
            rw [List.length_cons, Nat.add_right_comm, Nat.add_assoc]

omit [LinearOrder Key] in
theorem heads_eq_nil {n : Nat} {pending : List (List Alpha)} (empty : heads key n pending = []) :
    ∀ run ∈ pending, run = [] := by
  intro run member
  rcases List.append_of_mem member with ⟨before, after, rfl⟩
  cases run with
  | nil => rfl
  | cons row tail =>
      have present := mem_heads_of_mem key n before row tail after
      rw [empty] at present
      simp at present

/-- A head of least key, and among those of least position, may be taken. -/
theorem Takes.of_least {before after : List (List Alpha)} {row : Alpha} {tail : List Alpha}
    (least : ∀ entry ∈ heads key 0 (before ++ (row :: tail) :: after),
      toLex (key row, before.length) ≤ toLex entry) :
    Takes key row (before ++ (row :: tail) :: after) (before ++ tail :: after) := by
  refine .head before tail after ?_ ?_
  · intro run member head isHead
    rcases List.append_of_mem member with ⟨left, right, rfl⟩
    cases run with
    | nil => cases isHead
    | cons other others =>
        cases isHead
        have order := least (key head, 0 + left.length) (by
          rw [List.append_assoc]
          exact mem_heads_of_mem key 0 left head others _)
        rcases Prod.Lex.toLex_le_toLex.mp order with less | ⟨-, le⟩
        · exact less
        · simp only [List.length_append, List.length_cons] at le
          omega
  · intro run member head isHead
    rcases List.append_of_mem member with ⟨left, right, rfl⟩
    cases run with
    | nil => cases isHead
    | cons other others =>
        cases isHead
        have order := least (key head, 0 + (before ++ (row :: tail) :: left).length) (by
          have present := mem_heads_of_mem key 0 (before ++ (row :: tail) :: left) head others right
          simpa using present)
        rcases Prod.Lex.toLex_le_toLex.mp order with less | ⟨equal, -⟩
        · exact le_of_lt less
        · exact le_of_eq equal

end SortGovernor.Sorting
