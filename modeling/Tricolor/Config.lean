import Tricolor.Layout

/-!
# Configuration

The tuning parameters of a heap. `Config.validate` names the first setting that
cannot be used: all but the number of spare arenas must be positive, and the
huge threshold must fit an arena, so that whatever is not huge can be placed in
one.
-/

namespace Tricolor

/-- The tuning parameters of a heap. -/
structure Config where
  /-- percentage of the live size after a cycle at which the next one starts -/
  pause : Nat := 200
  /-- percentage applied to `stepSize` to get the budget of one step -/
  stepMultiplier : Nat := 200
  /-- bytes of allocation between two steps -/
  stepSize : Nat := 1024
  /-- entries the store buffer holds before it is drained -/
  storeBufferLength : Nat := 128
  /-- objects traversed in one propagation step -/
  greyBatch : Nat := 32
  /-- buckets of the intern table swept in one step -/
  stringsPerStep : Nat := 40
  /-- objects larger than this, header included, are huge blocks -/
  hugeThreshold : Nat := 65536
  /-- empty arenas kept for reuse -/
  spareArenas : Nat := 1
  deriving DecidableEq, Repr

/-- The settings that must be positive, in the order in which they are checked. -/
inductive Setting where
  | pause
  | stepMultiplier
  | stepSize
  | storeBufferLength
  | greyBatch
  | stringsPerStep
  | hugeThreshold
  deriving DecidableEq, Repr

namespace Setting

/-- The settings in the order in which they are checked. -/
def all : List Setting :=
  [pause, stepMultiplier, stepSize, storeBufferLength, greyBatch, stringsPerStep, hugeThreshold]

/-- The name under which users know the setting. -/
def name : Setting → String
  | pause => "pause"
  | stepMultiplier => "step_multiplier"
  | stepSize => "step_size"
  | storeBufferLength => "store_buffer_len"
  | greyBatch => "grey_batch"
  | stringsPerStep => "strings_per_step"
  | hugeThreshold => "huge_threshold"

/-- The value of a setting. -/
def value (config : Config) : Setting → Nat
  | pause => config.pause
  | stepMultiplier => config.stepMultiplier
  | stepSize => config.stepSize
  | storeBufferLength => config.storeBufferLength
  | greyBatch => config.greyBatch
  | stringsPerStep => config.stringsPerStep
  | hugeThreshold => config.hugeThreshold

end Setting

/-- Why a configuration cannot be used. -/
inductive ConfigError where
  /-- a setting that must be positive is zero -/
  | zero (setting : Setting)
  /-- the huge threshold is larger than what an arena can hold -/
  | hugeThreshold (threshold max : Nat)
  deriving DecidableEq, Repr

/-- The text of a configuration error. -/
def ConfigError.message : ConfigError → String
  | zero setting => s!"`{setting.name}` must be greater than zero"
  | hugeThreshold threshold max =>
    s!"huge threshold {threshold} exceeds the {max} bytes available in an arena"

namespace Config

/-- The largest usable huge threshold: all cells of an arena that hold objects. -/
def maxHugeThreshold : Nat := usableCells * cellBytes

/-- Accepts a configuration or names its first unusable setting. -/
def validate (config : Config) : Except ConfigError Unit :=
  match Setting.all.find? (fun setting => setting.value config == 0) with
  | some setting => .error (.zero setting)
  | none =>
    if maxHugeThreshold < config.hugeThreshold then
      .error (.hugeThreshold config.hugeThreshold maxHugeThreshold)
    else
      .ok ()

/-- The work that one incremental step may do. -/
def stepBudget (config : Config) : Nat :=
  saturatingMul config.stepSize config.stepMultiplier / 100

end Config

end Tricolor
