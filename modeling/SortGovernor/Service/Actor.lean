import SortGovernor.Engine.FileNames
import SortGovernor.Engine.Stream
import SortGovernor.Plan.Planner

/-!
# The governor actor

The actor plans each sort against the current pressure, names its scratch
directory and hands out a lease.  What it shares with the sorts, the descriptor
permits, the byte budget and the pressure, it only reads.
-/

namespace SortGovernor.Service

open SortGovernor.Engine SortGovernor.Plan

/-- A 128-bit UUID. -/
abbrev Uuid := BitVec 128

/-- The last `width` hexadecimal digits of a number. -/
def hexDigits : Nat → Nat → List Char
  | 0, _ => []
  | width + 1, value => hexDigits width (value / 16) ++ [Nat.digitChar (value % 16)]

/-- The text of a UUID: digits in groups of 8, 4, 4, 4 and 12. -/
def Uuid.hyphenated (id : Uuid) : List Char :=
  hexDigits 8 (id.toNat / 16 ^ 24) ++ '-' :: hexDigits 4 (id.toNat / 16 ^ 20) ++
    '-' :: hexDigits 4 (id.toNat / 16 ^ 16) ++ '-' :: hexDigits 4 (id.toNat / 16 ^ 12) ++
    '-' :: hexDigits 12 id.toNat

/-- `Path::join` with a relative name. -/
def joinPath (root name : String) : String :=
  if root.isEmpty || root.back = '/' then root ++ name else root ++ "/" ++ name

/-- `format!("sort-{}-{id:020}")` -/
def scratchName (namespaceId : Uuid) (id : Nat) : String :=
  "sort-" ++ String.ofList (namespaceId.hyphenated) ++ "-" ++ padded 20 id

/-- An admitted sort; `active` is set for an external one, which the governor
counts until the lease is dropped. -/
structure SortLease where
  id : Nat
  plan : SortPlan
  scratchDir : String
  active : Bool
  deriving DecidableEq, Repr

def SortLease.resource (lease : SortLease) : Resource := ⟨lease.id⟩

/-- One reading of what the actor shares with the sorts. -/
structure Readings where
  effectiveTargetBytes : Nat
  residentBytes : Nat
  availablePermits : Nat
  memoryUsed : Nat
  memoryPeak : Nat
  memoryLimit : Nat

structure SorterStats where
  inMemorySorts : Nat
  externalSorts : Nat
  activeExternalSorts : UInt32
  fdPermitsAvailable : Nat
  fdPermitsTotal : Nat
  memoryBytesUsed : Nat
  memoryBytesPeak : Nat
  memoryBytesLimit : Nat

/-- The actor.  `active` is the counter its leases share. -/
structure SorterActor where
  config : SorterConfig
  fdTotal : Nat
  active : UInt32
  scratchRoot : String
  nextId : Nat
  namespaceId : Uuid
  inMemoryCount : Nat
  externalCount : Nat

namespace SorterActor

def new (config : SorterConfig) (fdBudget : Nat) (scratchRoot : String) (namespaceId : Uuid) :
    SorterActor where
  config
  fdTotal := fdBudget
  active := 0
  scratchRoot
  nextId := 0
  namespaceId
  inMemoryCount := 0
  externalCount := 0

def availableFdPermits (readings : Readings) : Nat :=
  (tryFrom u32Max readings.availablePermits).getD u32Max

def snapshot (actor : SorterActor) (readings : Readings) : SorterSnapshot where
  effectiveTargetBytes := readings.effectiveTargetBytes
  residentBytes := readings.residentBytes
  fdHeadroom := availableFdPermits readings
  activeExternalSorts := actor.active.toNat

def stats (actor : SorterActor) (readings : Readings) : SorterStats where
  inMemorySorts := actor.inMemoryCount
  externalSorts := actor.externalCount
  activeExternalSorts := actor.active
  fdPermitsAvailable := availableFdPermits readings
  fdPermitsTotal := actor.fdTotal
  memoryBytesUsed := readings.memoryUsed
  memoryBytesPeak := readings.memoryPeak
  memoryBytesLimit := readings.memoryLimit

def scratchDir (actor : SorterActor) (id : Nat) : String :=
  joinPath actor.scratchRoot (scratchName actor.namespaceId id)

/-- Plan a sort and issue its lease; an exhausted counter refuses it. -/
def admitSort (actor : SorterActor) (spec : SortSpec) (readings : Readings) :
    SorterActor × Except SorterError SortLease :=
  let plan := SortPlanner.plan spec (actor.snapshot readings) actor.config
  let id := actor.nextId
  match checkedAdd u64Max id 1 with
  | none => (actor, .error .runLimit)
  | some next =>
      let actor := { actor with nextId := next }
      let scratchDir := actor.scratchDir id
      match plan with
      | .inMemory =>
          ({ actor with inMemoryCount := actor.inMemoryCount + 1 },
            .ok { id, plan, scratchDir, active := false })
      | .external .. =>
          ({ actor with externalCount := actor.externalCount + 1, active := actor.active + 1 },
            .ok { id, plan, scratchDir, active := true })

/-- The drop of a lease: `fetch_sub(1)` for a counted one. -/
def release (actor : SorterActor) (lease : SortLease) : SorterActor :=
  if lease.active then { actor with active := actor.active - 1 } else actor

end SorterActor

section Names

theorem digitChar_injective {left right : Nat} (first : left < 16) (second : right < 16)
    (same : Nat.digitChar left = Nat.digitChar right) : left = right := by
  have table : ∀ left right : Fin 16, Nat.digitChar left = Nat.digitChar right → left = right := by
    decide
  exact congrArg Fin.val (table ⟨left, first⟩ ⟨right, second⟩ same)

theorem length_hexDigits (width value : Nat) : (hexDigits width value).length = width := by
  induction width generalizing value with
  | zero => rfl
  | succ width inductionHypothesis => simp [hexDigits, inductionHypothesis]

theorem hexDigits_injective {width left right : Nat}
    (same : hexDigits width left = hexDigits width right) :
    left % 16 ^ width = right % 16 ^ width := by
  induction width generalizing left right with
  | zero => simp [Nat.mod_one]
  | succ width inductionHypothesis =>
      obtain ⟨high, low⟩ := List.append_inj' same rfl
      have low := digitChar_injective (Nat.mod_lt _ (by decide)) (Nat.mod_lt _ (by decide))
        (List.singleton_inj.mp low)
      have high := inductionHypothesis high
      rw [Nat.pow_succ', Nat.mod_mul, Nat.mod_mul, low, high]

theorem Uuid.hyphenated_injective {left right : Uuid} (same : left.hyphenated = right.hyphenated) :
    left = right := by
  unfold hyphenated at same
  obtain ⟨same, fifth⟩ := List.append_inj' same (by simp [length_hexDigits])
  obtain ⟨same, fourth⟩ := List.append_inj' same (by simp [length_hexDigits])
  obtain ⟨same, third⟩ := List.append_inj' same (by simp [length_hexDigits])
  obtain ⟨first, second⟩ := List.append_inj' same (by simp [length_hexDigits])
  have first := hexDigits_injective first
  have second := hexDigits_injective (List.cons_inj_right _ |>.mp second)
  have third := hexDigits_injective (List.cons_inj_right _ |>.mp third)
  have fourth := hexDigits_injective (List.cons_inj_right _ |>.mp fourth)
  have fifth := hexDigits_injective (List.cons_inj_right _ |>.mp fifth)
  have small := left.isLt
  have small' := right.isLt
  apply BitVec.eq_of_toNat_eq
  omega

theorem length_hyphenated (id : Uuid) : id.hyphenated.length = 36 := by
  simp [Uuid.hyphenated, length_hexDigits]

theorem joinPath_suffix (root name : String) :
    ∃ front, (joinPath root name).toList = front ++ name.toList := by
  unfold joinPath
  split
  · exact ⟨root.toList, String.toList_append⟩
  · exact ⟨root.toList ++ "/".toList, by rw [String.toList_append, String.toList_append]⟩

theorem length_scratchName (namespaceId : Uuid) {id : Nat} (word : id ≤ u64Max) :
    (scratchName namespaceId id).toList.length = 62 := by
  have digits := @length_padded 20 id (by unfold u64Max at word; omega) (by decide)
  have prefixed : "sort-".toList.length = 5 := rfl
  have dash : "-".toList.length = 1 := rfl
  simp only [scratchName, String.toList_append, String.toList_ofList, List.length_append, digits,
    length_hyphenated, prefixed, dash]

theorem scratchDir_injective {root root' : String} {namespaceId namespaceId' : Uuid} {id id' : Nat}
    (word : id ≤ u64Max) (word' : id' ≤ u64Max)
    (same : joinPath root (scratchName namespaceId id) =
      joinPath root' (scratchName namespaceId' id')) :
    namespaceId = namespaceId' ∧ id = id' := by
  obtain ⟨front, left⟩ := joinPath_suffix root (scratchName namespaceId id)
  obtain ⟨front', right⟩ := joinPath_suffix root' (scratchName namespaceId' id')
  rw [← String.toList_inj, left, right] at same
  have lengths := (length_scratchName namespaceId word).trans
    (length_scratchName namespaceId' word').symm
  obtain ⟨-, names⟩ := List.append_inj' same lengths
  simp only [scratchName, String.toList_append, String.toList_ofList] at names
  have digits := (@length_padded 20 id (by unfold u64Max at word; omega) (by decide)).trans
    (@length_padded 20 id' (by unfold u64Max at word'; omega) (by decide)).symm
  obtain ⟨texts, numbers⟩ := List.append_inj' names digits
  have texts := List.append_cancel_left (List.append_cancel_right texts)
  exact ⟨Uuid.hyphenated_injective texts, padded_injective (String.toList_inj.mp numbers)⟩

end Names

end SortGovernor.Service
