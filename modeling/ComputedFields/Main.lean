import ComputedFields.CommandLine
import Std.Time.DateTime.Timestamp

/-!
# `ComputedFields.Main` — the program

It hands its arguments and the clock to `CommandLine.run`, and prints what comes back.
-/

open ComputedFields in
/-- Evaluates the formulas of the command line. -/
def main (arguments : List String) : IO UInt32 := do
  let now ← Std.Time.Timestamp.now
  let outcome := CommandLine.run (utf8 "computed-fields") (arguments.map utf8)
    now.toMillisecondsSinceUnixEpoch.toInt
  (← IO.getStdout).write ⟨outcome.output.toArray⟩
  (← IO.getStderr).write ⟨outcome.errors.toArray⟩
  return outcome.code.toUInt32
