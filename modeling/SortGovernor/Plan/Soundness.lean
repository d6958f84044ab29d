import SortGovernor.Plan.Planner
import Mathlib.Algebra.Order.Monoid.Unbundled.Basic

/-!
# Soundness of the planner

The planner's divisions and clamps have preconditions, `checked` here.  They
hold for every configuration the constructors build, whatever the pressure, and
the plan stays within the configured caps and the pressure it was given.
-/

namespace SortGovernor.Plan

open SortGovernor.Engine

/-- `/`, which panics on a zero divisor. -/
def checkedDiv (value divisor : Nat) : Option Nat :=
  if divisor = 0 then none else some (value / divisor)

/-- `clamp`, which asserts that its bounds are in order. -/
def checkedClamp (low high value : Nat) : Option Nat :=
  if low ≤ high then some (clamp low high value) else none

/-- `div_ceil`, which panics on a zero divisor. -/
def checkedDivCeil (value divisor : Nat) : Option Nat :=
  if divisor = 0 then none else some (divCeil value divisor)

/-- The ranges of `u64` and `u32`. -/
structure SorterSnapshot.Fits (snap : SorterSnapshot) : Prop where
  effectiveTargetBytes : snap.effectiveTargetBytes ≤ u64Max
  residentBytes : snap.residentBytes ≤ u64Max
  fdHeadroom : snap.fdHeadroom ≤ u32Max
  activeExternalSorts : snap.activeExternalSorts ≤ u32Max

namespace SortPlanner

/-- `ration_fan_in` with its panics. -/
def checkedRationFanIn (snap : SorterSnapshot) (cfg : SorterConfig) : Option Nat := do
  let share ← checkedDiv snap.fdHeadroom (min (snap.activeExternalSorts + 1) u32Max)
  checkedClamp 2 cfg.maxFanIn share

/-- `size_run_buffer` with its panics. -/
def checkedSizeRunBuffer (spec : SortSpec) (snap : SorterSnapshot) (cfg : SorterConfig)
    (maxFanIn : Nat) : Option Nat := do
  let twoPassTarget ← checkedDivCeil spec.estimatedBytes (max (min (maxFanIn * maxFanIn) u64Max) 1)
  let memCap := max snap.availableMemoryBytes cfg.minRunBufferBytes
  let buffer ← checkedClamp cfg.minRunBufferBytes cfg.maxRunBufferBytes twoPassTarget
  return (tryFrom usizeMax (min buffer memCap)).getD usizeMax

/-- `plan` with its panics. -/
def checkedPlan (spec : SortSpec) (snap : SorterSnapshot) (cfg : SorterConfig) :
    Option SortPlan := do
  let available := snap.availableMemoryBytes
  if spec.estimatedBytes ≠ 0 ∧ spec.estimatedBytes ≤ cfg.inMemoryCeilingBytes ∧
      available ≥ spec.estimatedBytes then
    return .inMemory
  else
    let maxFanIn ← checkedRationFanIn snap cfg
    return .external (← checkedSizeRunBuffer spec snap cfg maxFanIn) maxFanIn

end SortPlanner

section Soundness

variable {spec : SortSpec} {snap : SorterSnapshot} {cfg : SorterConfig}

theorem clamp_eq {low high value : Nat} (ordered : low ≤ high) :
    clamp low high value = max low (min high value) := by
  unfold clamp
  split
  · omega
  · split <;> omega

theorem checkedPlan_eq (built : cfg.Built) :
    SortPlanner.checkedPlan spec snap cfg = some (SortPlanner.plan spec snap cfg) := by
  obtain ⟨two, -, least, most⟩ := built.bounds
  have ordered : cfg.minRunBufferBytes ≤ cfg.maxRunBufferBytes := by
    rw [least, most]
    decide
  have sorts : min (snap.activeExternalSorts + 1) u32Max ≠ 0 := by
    unfold u32Max
    omega
  have rationed : SortPlanner.checkedRationFanIn snap cfg =
      some (SortPlanner.rationFanIn snap cfg) := by
    simp [SortPlanner.checkedRationFanIn, checkedDiv, sorts, checkedClamp, two,
      SortPlanner.rationFanIn]
  have sized : ∀ fanIn, SortPlanner.checkedSizeRunBuffer spec snap cfg fanIn =
      some (SortPlanner.sizeRunBuffer spec snap cfg fanIn) := by
    intro fanIn
    have divisor : max (min (fanIn * fanIn) u64Max) 1 ≠ 0 := by omega
    simp [SortPlanner.checkedSizeRunBuffer, checkedDivCeil, divisor, checkedClamp, ordered,
      SortPlanner.sizeRunBuffer]
  simp only [SortPlanner.checkedPlan, SortPlanner.plan]
  split
  · rfl
  · rw [rationed, Option.bind_eq_bind, Option.bind_some, sized]
    rfl

theorem rationFanIn_eq (built : cfg.Built) :
    SortPlanner.rationFanIn snap cfg =
      max 2 (min cfg.maxFanIn (snap.fdHeadroom / min (snap.activeExternalSorts + 1) u32Max)) :=
  clamp_eq built.bounds.1

theorem rationFanIn_le_share (built : cfg.Built) (fits : snap.Fits) :
    SortPlanner.rationFanIn snap cfg ≤
      max 2 (snap.fdHeadroom / (snap.activeExternalSorts + 1)) := by
  rw [rationFanIn_eq built]
  by_cases saturated : u32Max < snap.activeExternalSorts + 1
  · have share : snap.fdHeadroom / min (snap.activeExternalSorts + 1) u32Max ≤ 1 := by
      rw [Nat.min_eq_right (by omega)]
      apply Nat.div_le_of_le_mul
      have headroom := fits.fdHeadroom
      omega
    omega
  · rw [Nat.min_eq_left (Nat.le_of_not_lt saturated)]
    omega

theorem rationFanIn_mono {snap' : SorterSnapshot} (built : cfg.Built)
    (sorts : snap.activeExternalSorts ≤ snap'.activeExternalSorts)
    (headroom : snap'.fdHeadroom ≤ snap.fdHeadroom) :
    SortPlanner.rationFanIn snap' cfg ≤ SortPlanner.rationFanIn snap cfg := by
  rw [rationFanIn_eq built, rationFanIn_eq built]
  have share : snap'.fdHeadroom / min (snap'.activeExternalSorts + 1) u32Max ≤
      snap.fdHeadroom / min (snap.activeExternalSorts + 1) u32Max := by
    apply Nat.div_le_div headroom
    · omega
    · unfold u32Max
      omega
  omega

theorem divCeil_anti {value divisor divisor' : Nat} (positive : 0 < divisor)
    (smaller : divisor ≤ divisor') : divCeil value divisor' ≤ divCeil value divisor := by
  have covered : value ≤ divCeil value divisor * divisor := le_divCeil_mul positive
  apply Nat.le_of_lt_succ
  apply Nat.div_lt_of_lt_mul
  have more : divCeil value divisor * divisor ≤ divCeil value divisor * divisor' :=
    Nat.mul_le_mul_left _ smaller
  rw [Nat.mul_succ, Nat.mul_comm divisor']
  omega

theorem sizeRunBuffer_eq (built : cfg.Built) {fanIn : Nat} (two : 2 ≤ fanIn)
    (bounded : fanIn ≤ 64) :
    SortPlanner.sizeRunBuffer spec snap cfg fanIn =
      min (max cfg.minRunBufferBytes
        (min cfg.maxRunBufferBytes (divCeil spec.estimatedBytes (fanIn * fanIn))))
        (max snap.availableMemoryBytes cfg.minRunBufferBytes) := by
  obtain ⟨-, -, least, most⟩ := built.bounds
  have ordered : cfg.minRunBufferBytes ≤ cfg.maxRunBufferBytes := by
    rw [least, most]
    decide
  have positive : 0 < fanIn * fanIn := Nat.mul_pos (by omega) (by omega)
  have square : fanIn * fanIn ≤ 64 * 64 := Nat.mul_le_mul bounded bounded
  have divisor : max (min (fanIn * fanIn) u64Max) 1 = fanIn * fanIn := by
    unfold u64Max
    omega
  simp only [SortPlanner.sizeRunBuffer, divisor, clamp_eq ordered]
  rw [tryFrom, if_pos, Option.getD_some]
  rw [least, most, usizeMax, u64Max]
  omega

theorem sizeRunBuffer_anti {snap' : SorterSnapshot} (built : cfg.Built) {fanIn fanIn' : Nat}
    (memory : snap'.availableMemoryBytes = snap.availableMemoryBytes) (two : 2 ≤ fanIn')
    (smaller : fanIn' ≤ fanIn) (bounded : fanIn ≤ 64) :
    SortPlanner.sizeRunBuffer spec snap cfg fanIn ≤
      SortPlanner.sizeRunBuffer spec snap' cfg fanIn' := by
  rw [sizeRunBuffer_eq built (two.trans smaller) bounded,
    sizeRunBuffer_eq built two (smaller.trans bounded), memory]
  have target : divCeil spec.estimatedBytes (fanIn * fanIn) ≤
      divCeil spec.estimatedBytes (fanIn' * fanIn') :=
    divCeil_anti (Nat.mul_pos (by omega) (by omega)) (Nat.mul_le_mul smaller smaller)
  omega

theorem plan_external {runBufferBytes maxFanIn : Nat}
    (planned : SortPlanner.plan spec snap cfg = .external runBufferBytes maxFanIn) :
    maxFanIn = SortPlanner.rationFanIn snap cfg ∧
      runBufferBytes = SortPlanner.sizeRunBuffer spec snap cfg maxFanIn := by
  simp only [SortPlanner.plan] at planned
  split at planned
  · cases planned
  · obtain ⟨rfl, rfl⟩ := SortPlan.external.inj planned
    exact ⟨rfl, rfl⟩

/-- The caps a planned external sort keeps. -/
structure Capped (spec : SortSpec) (snap : SorterSnapshot) (cfg : SorterConfig)
    (runBufferBytes maxFanIn : Nat) : Prop where
  two : 2 ≤ maxFanIn
  fanIn : maxFanIn ≤ cfg.maxFanIn
  share : maxFanIn ≤ max 2 (snap.fdHeadroom / (snap.activeExternalSorts + 1))
  floor : cfg.minRunBufferBytes ≤ runBufferBytes
  ceiling : runBufferBytes ≤ cfg.maxRunBufferBytes
  memory : runBufferBytes ≤ max snap.availableMemoryBytes cfg.minRunBufferBytes
  runs : runBufferBytes < cfg.maxRunBufferBytes →
    runBufferBytes < max snap.availableMemoryBytes cfg.minRunBufferBytes →
    spec.estimatedBytes ≤ runBufferBytes * (maxFanIn * maxFanIn)

theorem capped_of_external (built : cfg.Built) (fits : snap.Fits) {runBufferBytes maxFanIn : Nat}
    (planned : SortPlanner.plan spec snap cfg = .external runBufferBytes maxFanIn) :
    Capped spec snap cfg runBufferBytes maxFanIn := by
  obtain ⟨rfl, rfl⟩ := plan_external planned
  obtain ⟨two, small⟩ : 2 ≤ SortPlanner.rationFanIn snap cfg ∧
      SortPlanner.rationFanIn snap cfg ≤ 64 := rationFanIn_bounds built
  obtain ⟨least, -, floor, ceiling⟩ := built.bounds
  have ordered : cfg.minRunBufferBytes ≤ cfg.maxRunBufferBytes := by
    rw [floor, ceiling]
    decide
  have sized := @sizeRunBuffer_eq spec snap cfg built _ two small
  have positive : 0 < SortPlanner.rationFanIn snap cfg * SortPlanner.rationFanIn snap cfg :=
    Nat.mul_pos (by omega) (by omega)
  have covered : spec.estimatedBytes ≤ _ * _ := le_divCeil_mul positive
  constructor
  · exact two
  · exact clamp_le least
  · exact rationFanIn_le_share built fits
  · omega
  · omega
  · omega
  · intro belowCeiling belowMemory
    apply covered.trans
    apply Nat.mul_le_mul_right
    omega

/-- The planner never panics, keeps a sort in memory only where it fits, and
caps every other one; its fan-in follows the descriptors and the sorts in flight,
and its run buffer the fan-in. -/
theorem plan_sound (built : cfg.Built) (fits : snap.Fits) :
    SortPlanner.checkedPlan spec snap cfg = some (SortPlanner.plan spec snap cfg) ∧
      (SortPlanner.plan spec snap cfg = .inMemory → spec.estimatedBytes ≠ 0 ∧
        spec.estimatedBytes ≤ cfg.inMemoryCeilingBytes ∧
        spec.estimatedBytes ≤ snap.availableMemoryBytes) ∧
      ∀ runBufferBytes maxFanIn,
        SortPlanner.plan spec snap cfg = .external runBufferBytes maxFanIn →
        Capped spec snap cfg runBufferBytes maxFanIn ∧
          (∀ spec' snap' runBufferBytes' maxFanIn',
            SortPlanner.plan spec' snap' cfg = .external runBufferBytes' maxFanIn' →
            snap.activeExternalSorts ≤ snap'.activeExternalSorts →
            snap'.fdHeadroom ≤ snap.fdHeadroom → maxFanIn' ≤ maxFanIn) ∧
          ∀ snap' runBufferBytes' maxFanIn',
            SortPlanner.plan spec snap' cfg = .external runBufferBytes' maxFanIn' →
            snap'.availableMemoryBytes = snap.availableMemoryBytes →
            maxFanIn' ≤ maxFanIn → runBufferBytes ≤ runBufferBytes' := by
  refine ⟨checkedPlan_eq built, ?_, ?_⟩
  · intro planned
    simp only [SortPlanner.plan] at planned
    split at planned
    · assumption
    · cases planned
  · intro runBufferBytes maxFanIn planned
    refine ⟨capped_of_external built fits planned, ?_, ?_⟩
    · intro spec' snap' runBufferBytes' maxFanIn' planned' sorts headroom
      obtain ⟨rfl, -⟩ := plan_external planned
      obtain ⟨rfl, -⟩ := plan_external planned'
      exact rationFanIn_mono built sorts headroom
    · intro snap' runBufferBytes' maxFanIn' planned' memory smaller
      obtain ⟨fanIn, rfl⟩ := plan_external planned
      obtain ⟨fanIn', rfl⟩ := plan_external planned'
      have low := (@rationFanIn_bounds snap' cfg built).1
      have high := (@rationFanIn_bounds snap cfg built).2
      exact sizeRunBuffer_anti built memory (fanIn' ▸ low) smaller (fanIn ▸ high)

/-- No descriptors, every sort in flight and the largest estimate. -/
theorem plan_sound_extreme :
    SortPlanner.checkedPlan ⟨u64Max⟩ ⟨0, u64Max, 0, u32Max⟩ .default =
        some (.external (1024 * 1024) 2) ∧
      Capped ⟨u64Max⟩ ⟨0, u64Max, 0, u32Max⟩ .default (1024 * 1024) 2 := by
  obtain ⟨returns, -, external⟩ := @plan_sound ⟨u64Max⟩ ⟨0, u64Max, 0, u32Max⟩ .default .default
    ⟨by decide, by decide, by decide, by decide⟩
  exact ⟨returns, (external _ _ (by decide)).1⟩

end Soundness

end SortGovernor.Plan
