import SortGovernor.Engine.Basic
import Mathlib.Order.Nat

/-!
# The in-memory-vs-external decision

Given the estimate of a sort, one view of the memory and descriptor pressure and
the configured caps, the planner chooses a plan.  It is a pure function.
-/

namespace SortGovernor.Plan

open SortGovernor.Engine

/-- Process-lifetime caps for the planner. -/
structure SorterConfig where
  inMemoryCeilingBytes : Nat
  maxFanIn : Nat
  minRunBufferBytes : Nat
  maxRunBufferBytes : Nat
  deriving DecidableEq, Repr

/-- `clamp(low, high)` -/
def clamp (low high value : Nat) : Nat :=
  if value < low then low else if high < value then high else value

namespace SorterConfig

def default : SorterConfig where
  inMemoryCeilingBytes := 8 * 1024 * 1024
  maxFanIn := 64
  minRunBufferBytes := 1024 * 1024
  maxRunBufferBytes := 256 * 1024 * 1024

/-- Caps from the soft file-descriptor limit of the process. -/
def fromFdLimit (softFdLimit : Nat) : SorterConfig :=
  let usable := softFdLimit - 96
  { default with maxFanIn := clamp 2 64 (usable / 8) }

/-- The configurations the constructors build. -/
inductive Built : SorterConfig → Prop where
  | default : Built default
  | fromFdLimit (softFdLimit : Nat) : Built (fromFdLimit softFdLimit)

end SorterConfig

/-- A point-in-time view of the memory and descriptor pressure. -/
structure SorterSnapshot where
  effectiveTargetBytes : Nat
  residentBytes : Nat
  fdHeadroom : Nat
  activeExternalSorts : Nat
  deriving DecidableEq, Repr

def SorterSnapshot.availableMemoryBytes (snap : SorterSnapshot) : Nat :=
  snap.effectiveTargetBytes - snap.residentBytes

/-- The part of a sort request the planner reads. -/
structure SortSpec where
  estimatedBytes : Nat
  deriving DecidableEq, Repr

/-- `div_ceil` -/
def divCeil (value divisor : Nat) : Nat := (value + divisor - 1) / divisor

namespace SortPlanner

/-- Share the available descriptors across the sorts in flight. -/
def rationFanIn (snap : SorterSnapshot) (cfg : SorterConfig) : Nat :=
  let share := snap.fdHeadroom / min (snap.activeExternalSorts + 1) u32Max
  clamp 2 cfg.maxFanIn share

/-- A run buffer for at most `max_fan_in²` runs, within the memory available. -/
def sizeRunBuffer (spec : SortSpec) (snap : SorterSnapshot) (cfg : SorterConfig)
    (maxFanIn : Nat) : Nat :=
  let twoPassTarget := divCeil spec.estimatedBytes (max (min (maxFanIn * maxFanIn) u64Max) 1)
  let memCap := max snap.availableMemoryBytes cfg.minRunBufferBytes
  let buffer := min (clamp cfg.minRunBufferBytes cfg.maxRunBufferBytes twoPassTarget) memCap
  (tryFrom usizeMax buffer).getD usizeMax

/-- Decide whether a sort stays in memory or spills, and how. -/
def plan (spec : SortSpec) (snap : SorterSnapshot) (cfg : SorterConfig) : SortPlan :=
  let available := snap.availableMemoryBytes
  if spec.estimatedBytes ≠ 0 ∧ spec.estimatedBytes ≤ cfg.inMemoryCeilingBytes ∧
      available ≥ spec.estimatedBytes then
    .inMemory
  else
    let maxFanIn := rationFanIn snap cfg
    .external (sizeRunBuffer spec snap cfg maxFanIn) maxFanIn

end SortPlanner

section Facts

variable {spec : SortSpec} {snap : SorterSnapshot} {cfg : SorterConfig}

theorem clamp_le {low high value : Nat} (ordered : low ≤ high) : clamp low high value ≤ high := by
  unfold clamp
  split
  · exact ordered
  · split <;> omega

theorem le_clamp {low high value : Nat} (ordered : low ≤ high) : low ≤ clamp low high value := by
  unfold clamp
  split
  · exact Nat.le_refl _
  · split <;> omega

theorem le_of_clamp_lt {low high value : Nat} (below : clamp low high value < high) :
    value ≤ clamp low high value := by
  unfold clamp at below ⊢
  split at below
  · rw [if_pos ‹_›]
    omega
  · rw [if_neg ‹_›]
    split at below <;> split <;> omega

theorem SorterConfig.Built.bounds (built : cfg.Built) :
    2 ≤ cfg.maxFanIn ∧ cfg.maxFanIn ≤ 64 ∧ cfg.minRunBufferBytes = 1024 * 1024 ∧
      cfg.maxRunBufferBytes = 256 * 1024 * 1024 := by
  cases built with
  | default => decide
  | fromFdLimit softFdLimit => exact ⟨le_clamp (by decide), clamp_le (by decide), rfl, rfl⟩

theorem rationFanIn_bounds (built : cfg.Built) :
    2 ≤ SortPlanner.rationFanIn snap cfg ∧ SortPlanner.rationFanIn snap cfg ≤ 64 := by
  obtain ⟨two, bounded, -⟩ := built.bounds
  exact ⟨le_clamp two, (clamp_le two).trans bounded⟩

theorem le_divCeil_mul {value divisor : Nat} (positive : 0 < divisor) :
    value ≤ divCeil value divisor * divisor := by
  have step := Nat.div_add_mod (value + divisor - 1) divisor
  have rest := Nat.mod_lt (value + divisor - 1) positive
  have comm := Nat.mul_comm divisor ((value + divisor - 1) / divisor)
  unfold divCeil
  omega

/-- A run buffer below both caps is large enough for `max_fan_in²` runs. -/
theorem plan_buffer {runBufferBytes maxFanIn : Nat} (built : cfg.Built)
    (planned : SortPlanner.plan spec snap cfg = .external runBufferBytes maxFanIn)
    (configured : runBufferBytes < cfg.maxRunBufferBytes)
    (available : runBufferBytes < snap.availableMemoryBytes) :
    0 < runBufferBytes ∧ 2 ≤ maxFanIn ∧
      spec.estimatedBytes ≤ runBufferBytes * (maxFanIn * maxFanIn) := by
  obtain ⟨two, bounded, least, most⟩ := built.bounds
  simp only [SortPlanner.plan] at planned
  split at planned
  · cases planned
  obtain ⟨sized, rfl⟩ := SortPlan.external.inj planned
  obtain ⟨low, high⟩ : 2 ≤ SortPlanner.rationFanIn snap cfg ∧
      SortPlanner.rationFanIn snap cfg ≤ 64 := rationFanIn_bounds built
  have square : SortPlanner.rationFanIn snap cfg * SortPlanner.rationFanIn snap cfg ≤ 64 * 64 :=
    Nat.mul_le_mul high high
  have positive : 0 < SortPlanner.rationFanIn snap cfg * SortPlanner.rationFanIn snap cfg :=
    Nat.mul_pos (by omega) (by omega)
  have divisor : max (min (SortPlanner.rationFanIn snap cfg * SortPlanner.rationFanIn snap cfg)
      u64Max) 1 = SortPlanner.rationFanIn snap cfg * SortPlanner.rationFanIn snap cfg := by
    unfold u64Max
    omega
  have covered : spec.estimatedBytes ≤ _ * _ := le_divCeil_mul positive
  simp only [SortPlanner.sizeRunBuffer, divisor] at sized
  generalize divCeil spec.estimatedBytes _ = target at sized covered
  have ordered : cfg.minRunBufferBytes ≤ cfg.maxRunBufferBytes := by
    rw [least, most]
    decide
  have floor := @le_clamp _ _ target ordered
  have ceiling := @clamp_le _ _ target ordered
  have small : min (clamp cfg.minRunBufferBytes cfg.maxRunBufferBytes target)
      (max snap.availableMemoryBytes cfg.minRunBufferBytes) ≤ usizeMax := by
    apply (Nat.min_le_left _ _).trans (ceiling.trans _)
    rw [most]
    decide
  rw [tryFrom, if_pos small, Option.getD_some] at sized
  -- the memory available does not decide, so the buffer is the clamped target
  have clamped : runBufferBytes = clamp cfg.minRunBufferBytes cfg.maxRunBufferBytes target := by
    omega
  subst clamped
  have raised := le_of_clamp_lt configured
  refine ⟨by omega, low, covered.trans (Nat.mul_le_mul_right _ raised)⟩

end Facts

end SortGovernor.Plan
