import ComputedFields.Function.Aggregate
import ComputedFields.Function.Dates
import ComputedFields.Function.Logic
import ComputedFields.Function.Math
import ComputedFields.Function.Reference
import ComputedFields.Function.Strings
import ComputedFields.Function.Travel

/-!
# `ComputedFields.Function.Catalog` — the functions of every formula
-/

namespace ComputedFields.Function

/-- The functions that a formula may call unless it is given others, in the order in which they are
listed. -/
def catalog : Registry where
  definitions :=
    Math.definitions ++ Strings.definitions ++ Dates.definitions ++ Logic.definitions
      ++ Aggregate.definitions ++ Travel.definitions ++ Reference.definitions
  distinct := by decide +kernel

end ComputedFields.Function
