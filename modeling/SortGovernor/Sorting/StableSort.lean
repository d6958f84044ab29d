import Mathlib.Data.List.Forall2
import Mathlib.Data.List.Sort
import Mathlib.Order.Lattice

/-!
# Stable sorting by a key

A stable sort is characterised without positions: its output is sorted by key,
and for every key it has the same subsequence of elements as its input.  The
two conditions determine the output, and they compose: sorting the pieces of a
list and then sorting the concatenation is sorting the list.
-/

namespace SortGovernor.Sorting

variable {Alpha Key : Type} [LinearOrder Key] (key : Alpha → Key)

/-- Order elements by their keys alone. -/
def KeyLe (a b : Alpha) : Prop := key a ≤ key b

instance : DecidableRel (KeyLe key) := fun a b => inferInstanceAs (Decidable (key a ≤ key b))

instance : IsTrans Alpha (KeyLe key) := ⟨fun _ _ _ ab bc => le_trans ab bc⟩

instance : Std.Total (KeyLe key) := ⟨fun a b => le_total (key a) (key b)⟩

def group (k : Key) (elements : List Alpha) : List Alpha :=
  elements.filter fun a => key a = k

@[simp]
theorem group_nil (k : Key) : group key k [] = [] := rfl

@[simp]
theorem group_cons (k : Key) (a : Alpha) (rest : List Alpha) :
    group key k (a :: rest) = if key a = k then a :: group key k rest else group key k rest := by
  by_cases equal : key a = k <;> simp [group, equal]

@[simp]
theorem group_append (k : Key) (first second : List Alpha) :
    group key k (first ++ second) = group key k first ++ group key k second :=
  List.filter_append ..

theorem mem_group {k : Key} {a : Alpha} {elements : List Alpha} :
    a ∈ group key k elements ↔ a ∈ elements ∧ key a = k := by
  simp [group]

theorem group_eq_nil {k : Key} {elements : List Alpha}
    (absent : ∀ a ∈ elements, key a ≠ k) : group key k elements = [] := by
  simpa [group] using absent

theorem perm_of_group_eq {first second : List Alpha}
    (same : ∀ k, group key k first = group key k second) : first.Perm second := by
  induction first generalizing second with
  | nil =>
      cases second with
      | nil => exact List.Perm.refl _
      | cons b rest => simpa using same (key b)
  | cons a rest inductionHypothesis =>
      have atKey := same (key a)
      rw [group_cons, if_pos rfl] at atKey
      rcases List.filter_eq_cons_iff.mp atKey.symm with
        ⟨before, after, split, absent, -, tail⟩
      subst split
      have emptyBefore : group key (key a) before = [] := by
        apply group_eq_nil
        intro b member
        simpa using absent b member
      have same' : ∀ k, group key k rest = group key k (before ++ after) := by
        intro k
        have atK := same k
        by_cases equal : key a = k
        · subst equal
          rw [group_append, emptyBefore, List.nil_append]
          exact tail.symm
        · simpa [equal] using atK
      exact (inductionHypothesis same').cons a |>.trans List.perm_middle.symm

/-- `output` is the stable sort of `input` by `key`. -/
structure StableSortOf (input output : List Alpha) : Prop where
  sorted : output.Pairwise fun a b => key a ≤ key b
  stable : ∀ k, group key k output = group key k input

namespace StableSortOf

variable {key}

theorem perm {input output : List Alpha} (sort : StableSortOf key input output) :
    output.Perm input :=
  perm_of_group_eq key sort.stable

theorem mem_iff {input output : List Alpha} (sort : StableSortOf key input output) {a : Alpha} :
    a ∈ output ↔ a ∈ input :=
  sort.perm.mem_iff

theorem ne_nil {input output : List Alpha} (sort : StableSortOf key input output)
    (some : input ≠ []) : output ≠ [] :=
  fun empty => some (List.nil_perm.mp (empty ▸ sort.perm))

theorem nil : StableSortOf key [] [] := ⟨List.Pairwise.nil, fun _ => rfl⟩

/-- A stable sort is determined by its input. -/
theorem unique {input first second : List Alpha} (left : StableSortOf key input first)
    (right : StableSortOf key input second) : first = second := by
  have same : ∀ k, group key k first = group key k second := fun k =>
    (left.stable k).trans (right.stable k).symm
  have leftSorted := left.sorted
  have rightSorted := right.sorted
  clear left right
  induction first generalizing second with
  | nil =>
      have permutation := perm_of_group_eq key same
      exact permutation.nil_eq
  | cons a rest inductionHypothesis =>
      have permutation := perm_of_group_eq key same
      cases second with
      | nil => exact absurd permutation.eq_nil (List.cons_ne_nil a rest)
      | cons b rest' =>
          have ab : key a ≤ key b := by
            rcases List.mem_cons.mp (permutation.symm.subset (List.mem_cons_self ..)) with
              equal | member
            · exact le_of_eq (congrArg key equal.symm)
            · exact (List.pairwise_cons.mp leftSorted).1 b member
          have ba : key b ≤ key a := by
            rcases List.mem_cons.mp (permutation.subset (List.mem_cons_self ..)) with
              equal | member
            · exact le_of_eq (congrArg key equal.symm)
            · exact (List.pairwise_cons.mp rightSorted).1 a member
          have keys : key b = key a := le_antisymm ba ab
          have heads := same (key a)
          rw [group_cons, group_cons, if_pos rfl, if_pos keys] at heads
          have head : a = b := (List.cons.inj heads).1
          subst head
          have tails : ∀ k, group key k rest = group key k rest' := by
            intro k
            have atK := same k
            rw [group_cons, group_cons] at atK
            by_cases equal : key a = k
            · simpa [equal] using atK
            · simpa [equal] using atK
          rw [inductionHypothesis tails (List.pairwise_cons.mp leftSorted).2
            (List.pairwise_cons.mp rightSorted).2]

theorem map {Beta : Type} {key' : Beta → Key} {f : Alpha → Beta} (keys : ∀ a, key' (f a) = key a)
    {input output : List Alpha} (sort : StableSortOf key input output) :
    StableSortOf key' (input.map f) (output.map f) := by
  refine ⟨List.pairwise_map.mpr (sort.sorted.imp fun le => by rwa [keys, keys]), fun k => ?_⟩
  have groups : ∀ elements : List Alpha,
      group key' k (elements.map f) = (group key k elements).map f := by
    intro elements
    simp only [group, List.filter_map, Function.comp_def, keys]
  rw [groups, groups, sort.stable k]

theorem of_pieces {pieces sorted : List (List Alpha)} {output : List Alpha}
    (each : List.Forall₂ (StableSortOf key) pieces sorted)
    (whole : StableSortOf key sorted.flatten output) :
    StableSortOf key pieces.flatten output := by
  refine ⟨whole.sorted, fun k => (whole.stable k).trans ?_⟩
  clear whole
  induction each with
  | nil => rfl
  | cons head _ inductionHypothesis =>
      simp only [List.flatten_cons, group_append, inductionHypothesis, head.stable k]

theorem of_append {first second first' second' output : List Alpha}
    (left : StableSortOf key first first') (right : StableSortOf key second second')
    (whole : StableSortOf key (first' ++ second') output) :
    StableSortOf key (first ++ second) output := by
  have pieces : List.Forall₂ (StableSortOf key) [first, second] [first', second'] :=
    .cons left (.cons right .nil)
  simpa using of_pieces pieces (by simpa using whole)

theorem of_insertionSort (input : List Alpha) :
    StableSortOf key input (input.insertionSort (KeyLe key)) := by
  refine ⟨List.pairwise_insertionSort (KeyLe key) input, ?_⟩
  intro k
  have oneKey : (group key k input).Pairwise (KeyLe key) := by
    apply List.pairwise_of_forall_mem_list
    intro a memberA b memberB
    have keyA := ((mem_group key).mp memberA).2
    have keyB := ((mem_group key).mp memberB).2
    exact le_of_eq (keyA.trans keyB.symm)
  have embedded := List.sublist_insertionSort oneKey List.filter_sublist
  have filtered := embedded.filter fun a => decide (key a = k)
  have whole : (group key k input).filter (fun a => decide (key a = k)) =
      group key k input := by
    simp [group]
  rw [whole] at filtered
  symm
  apply filtered.eq_of_length
  exact ((List.perm_insertionSort (KeyLe key) input).filter _).length_eq.symm

end StableSortOf

/-- A permutation sorted by `(key, position)` is the stable sort, when the
positions increase along the input. -/
theorem StableSortOf.of_position {position : Alpha → Nat} {input output : List Alpha}
    (increasing : input.Pairwise fun a b => position a < position b)
    (permutation : output.Perm input)
    (sorted : output.Pairwise fun a b =>
      key a < key b ∨ key a = key b ∧ position a ≤ position b) :
    StableSortOf key input output := by
  refine ⟨?_, ?_⟩
  · refine sorted.imp fun related => ?_
    rcases related with less | ⟨equal, -⟩
    · exact le_of_lt less
    · exact le_of_eq equal
  · intro k
    have groups : (group key k output).Perm (group key k input) := permutation.filter _
    have positions : ∀ a b, a ∈ group key k output → b ∈ group key k input →
        position a ≤ position b → position b ≤ position a → a = b := by
      intro a b memberA memberB ab ba
      have a_mem : a ∈ input := permutation.subset ((mem_group key).mp memberA).1
      have b_mem : b ∈ input := ((mem_group key).mp memberB).1
      have same : position a = position b := le_antisymm ab ba
      have distinct : (input.map position).Nodup :=
        List.pairwise_map.mpr (increasing.imp fun less => ne_of_lt less)
      exact List.inj_on_of_nodup_map distinct a_mem b_mem same
    refine @List.Perm.eq_of_pairwise _ (fun a b => position a ≤ position b) _ _
      positions ?_ ?_ groups
    · have within : (group key k output).Pairwise fun a b =>
          key a < key b ∨ key a = key b ∧ position a ≤ position b := sorted.filter _
      refine within.imp_of_mem ?_
      intro a b memberA memberB related
      have keyA := ((mem_group key).mp memberA).2
      have keyB := ((mem_group key).mp memberB).2
      rcases related with less | ⟨-, le⟩
      · exact absurd less (by simp [keyA, keyB])
      · exact le
    · exact (increasing.filter _).imp fun less => le_of_lt less

/-- Drop every element whose key equals the key before it. -/
def collapse (last : Option Key) : List Alpha → List Alpha
  | [] => []
  | a :: rest =>
      if last = some (key a) then collapse last rest else a :: collapse (some (key a)) rest

theorem collapse_cons_of_eq {last : Option Key} {a : Alpha} (rest : List Alpha)
    (repeated : last = some (key a)) : collapse key last (a :: rest) = collapse key last rest :=
  if_pos repeated

theorem collapse_cons_of_ne {last : Option Key} {a : Alpha} (rest : List Alpha)
    (fresh : last ≠ some (key a)) :
    collapse key last (a :: rest) = a :: collapse key (some (key a)) rest :=
  if_neg fresh

/-- `output` holds the first element of every key of `input`, in key order. -/
structure FirstOfGroups (input output : List Alpha) : Prop where
  sorted : output.Pairwise fun a b => key a < key b
  first : ∀ k, group key k output = (group key k input).take 1

theorem collapse_sublist (last : Option Key) (elements : List Alpha) :
    (collapse key last elements).Sublist elements := by
  induction elements generalizing last with
  | nil => exact List.Sublist.refl _
  | cons a rest inductionHypothesis =>
      simp only [collapse]
      split
      · exact (inductionHypothesis last).cons a
      · exact (inductionHypothesis (some (key a))).cons_cons a

theorem collapse_above {elements : List Alpha} {k : Key}
    (sorted : elements.Pairwise fun a b => key a ≤ key b) (above : ∀ a ∈ elements, k ≤ key a) :
    ∀ a ∈ collapse key (some k) elements, k < key a := by
  induction elements with
  | nil => simp [collapse]
  | cons a rest inductionHypothesis =>
      have tail := (List.pairwise_cons.mp sorted).2
      have head := (List.pairwise_cons.mp sorted).1
      simp only [collapse, Option.some.injEq]
      split
      · exact inductionHypothesis tail fun b member => above b (List.mem_cons_of_mem a member)
      · rename_i different
        have less : k < key a :=
          lt_of_le_of_ne (above a (List.mem_cons_self ..)) different
        intro b member
        rcases List.mem_cons.mp member with equal | inTail
        · exact equal ▸ less
        · exact lt_of_lt_of_le less (head b ((collapse_sublist key _ rest).subset inTail))

theorem collapse_sorted {elements : List Alpha} (last : Option Key)
    (sorted : elements.Pairwise fun a b => key a ≤ key b) :
    (collapse key last elements).Pairwise fun a b => key a < key b := by
  induction elements generalizing last with
  | nil => exact List.Pairwise.nil
  | cons a rest inductionHypothesis =>
      have tail := (List.pairwise_cons.mp sorted).2
      simp only [collapse]
      split
      · exact inductionHypothesis last tail
      · refine List.pairwise_cons.mpr ⟨?_, inductionHypothesis _ tail⟩
        exact collapse_above key tail (List.pairwise_cons.mp sorted).1

theorem group_collapse {elements : List Alpha} (last : Option Key)
    (sorted : elements.Pairwise fun a b => key a ≤ key b)
    (above : ∀ l, last = some l → ∀ a ∈ elements, l ≤ key a) (k : Key) :
    group key k (collapse key last elements) =
      if last = some k then [] else (group key k elements).take 1 := by
  induction elements generalizing last with
  | nil => simp [collapse]
  | cons a rest inductionHypothesis =>
      have tail := (List.pairwise_cons.mp sorted).2
      have head := (List.pairwise_cons.mp sorted).1
      simp only [collapse]
      split
      · rename_i repeated
        rw [inductionHypothesis last tail fun l equal b member =>
          above l equal b (List.mem_cons_of_mem a member)]
        by_cases equal : key a = k
        · simp [repeated, equal]
        · simp [repeated, equal]
      · rename_i fresh
        rw [group_cons, inductionHypothesis (some (key a)) tail
          (fun l equal => by cases equal; exact head)]
        by_cases equal : key a = k
        · subst equal
          simp [fresh]
        · have lastNe : last = some k → group key k rest = [] := by
            intro isLast
            apply group_eq_nil
            intro b member same
            have low := above k isLast a (List.mem_cons_self ..)
            have high := head b member
            exact equal (le_antisymm (same ▸ high) low)
          by_cases isLast : last = some k
          · simp [equal, isLast, lastNe isLast]
          · simp [equal, isLast]

theorem FirstOfGroups.of_sort {input output : List Alpha} (sort : StableSortOf key input output) :
    FirstOfGroups key input (collapse key none output) := by
  refine ⟨collapse_sorted key none sort.sorted, ?_⟩
  intro k
  rw [group_collapse key none sort.sorted (by simp) k, sort.stable k]
  simp

/-- What a sort of `input` must emit: its stable sort, or with `dedup` the
first element of every group of it. -/
def reference (dedup : Bool) (input : List Alpha) : List Alpha :=
  let sorted := input.insertionSort (KeyLe key)
  if dedup then collapse key none sorted else sorted

theorem reference_eq {dedup : Bool} {input output : List Alpha}
    (sort : StableSortOf key input output) :
    reference key dedup input = if dedup then collapse key none output else output := by
  rw [reference, StableSortOf.unique (StableSortOf.of_insertionSort input) sort]

theorem reference_congr {dedup : Bool} {input input' : List Alpha}
    (same : ∀ k, group key k input = group key k input') :
    reference key dedup input = reference key dedup input' := by
  have sort : StableSortOf key input' _ := StableSortOf.of_insertionSort input'
  have sort' : StableSortOf key input _ :=
    ⟨sort.sorted, fun k => (sort.stable k).trans (same k).symm⟩
  rw [reference_eq key sort, reference_eq key sort']

theorem collapse_map {Beta : Type} {key' : Beta → Key} {f : Alpha → Beta}
    (keys : ∀ a, key' (f a) = key a) (last : Option Key) (elements : List Alpha) :
    collapse key' last (elements.map f) = (collapse key last elements).map f := by
  induction elements generalizing last with
  | nil => rfl
  | cons a rest inductionHypothesis =>
      simp only [List.map_cons, collapse, keys]
      split
      · exact inductionHypothesis last
      · rw [inductionHypothesis, List.map_cons]

theorem reference_map {Beta : Type} {key' : Beta → Key} {f : Alpha → Beta}
    (keys : ∀ a, key' (f a) = key a) (dedup : Bool) (input : List Alpha) :
    reference key' dedup (input.map f) = (reference key dedup input).map f := by
  have sort : StableSortOf key input _ := StableSortOf.of_insertionSort input
  rw [reference_eq key' (sort.map keys), reference_eq key sort]
  split
  · exact collapse_map key keys none _
  · rfl

theorem reference_stable (input : List Alpha) :
    StableSortOf key input (reference key false input) := by
  have sort : StableSortOf key input _ := StableSortOf.of_insertionSort input
  simpa [reference] using sort

theorem reference_firstOfGroups (input : List Alpha) :
    FirstOfGroups key input (reference key true input) := by
  simpa [reference] using FirstOfGroups.of_sort key (StableSortOf.of_insertionSort input)

end SortGovernor.Sorting
