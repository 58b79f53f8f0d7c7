import ComputedFields.Evaluation.Report
import ComputedFields.Suggestion

/-!
# `ComputedFields.CommandLine` — formulas on the command line

The program evaluates the formulas that are its arguments in a sample context, or a few formulas of
its own when there are none, and ends with what it would suggest.

* `CommandLine.parse` — what the arguments ask for;
* `CommandLine.run` — what is printed for them.
-/

namespace ComputedFields

namespace CommandLine

/-- What the arguments ask for. -/
inductive Request where
  | evaluate (options : Options) (formulas : List Text)
  | help
  | noTimeout
  deriving Inhabited

/-- The integer at the start of an argument, zero if there is none. -/
def leadingInteger (s : Text) : Int :=
  match s.trimStart with
  | [] => 0
  | b :: rest =>
    if b == '-'.toUInt8 then -(Text.numeral (rest.takeWhile Text.digit) : Int)
    else if b == '+'.toUInt8 then Text.numeral (rest.takeWhile Text.digit)
    else Text.numeral ((b :: rest).takeWhile Text.digit)

/-- What the arguments ask for, read from the left; the first one that asks for help or lacks its
value decides. -/
def parse (options : Options) (formulas : List Text) : List Text → Request
  | [] => .evaluate options formulas
  | a :: rest =>
    if a = utf8 "--strict" then parse { options with strict := true } formulas rest
    else if a = utf8 "--verbose" then parse options formulas rest
    else if a = utf8 "--timeout-ms" then
      match rest with
      | [] => .noTimeout
      | n :: rest => parse { options with timeout := some (leadingInteger n) } formulas rest
    else if a = utf8 "--help" ∨ a = utf8 "-h" then .help
    else parse options (formulas ++ [a]) rest

/-- The formulas that are shown when none is given. -/
def samples : List Text :=
  [utf8 "price * quantity", utf8 "Round(price / 3, 2)", utf8 "\"Status: \" + Upper(status)",
    utf8 "Duration(start, end, \"days\")", utf8 "Distance(@Paris, @London)",
    utf8 "Count(siblings, \"status\", \"done\")", utf8 "SumField(siblings, \"amount\")",
    utf8 "quantity > 3 ? \"bulk\" : \"single\"", utf8 "10 / 0"]

/-- A place of the sample context. -/
def place (id label : String) (latitude longitude : Float) : Mention :=
  { id := utf8 id, type := utf8 "place", label := utf8 label
    properties :=
      [(utf8 "latitude", .number latitude), (utf8 "longitude", .number longitude)] }

/-- A sibling of the sample context. -/
def sibling (status : String) (amount : Float) : Value :=
  .object [(utf8 "fields",
    .object [(utf8 "amount", .number amount), (utf8 "status", .text (utf8 status))])]

/-- The context in which formulas of the command line are evaluated. -/
def sampleContext (now : Instant) : Context :=
  { fields := Table.ofList
      [(utf8 "price", .number 12.5), (utf8 "quantity", .number 4),
        (utf8 "status", .text (utf8 "open")), (utf8 "start", .text (utf8 "2024-03-01")),
        (utf8 "end", .text (utf8 "2024-03-09"))]
    mentions :=
      [place "place-1" "Paris" 48.8566 2.3522, place "place-2" "London" 51.5074 (-0.1278)]
    siblings := [sibling "done" 20, sibling "open" 35]
    now }

/-- A formula and the report on it, as they are printed. -/
def reportText (source : Text) (report : Report) : Text :=
  let outcome := match report.error? with
    | none => utf8 "  (" ++ report.kind.name ++ utf8 ")"
    | some error =>
      utf8 "  [" ++ utf8 (report.code?.elim "ERROR" ErrorCode.name) ++ utf8 "] " ++ error
  source ++ utf8 "\n  = " ++ report.display ++ outcome ++ utf8 "\n"

/-- How the program is called. -/
def usage (program : Text) : Text :=
  utf8 "usage: " ++ program
    ++ utf8 " [--strict] [--timeout-ms N] [--verbose] [formula ...]\n"

/-- What the program prints and its exit code. -/
structure Outcome where
  code : UInt8 := 0
  output : Text := []
  errors : Text := []

/-- What the program does with its arguments. -/
def run (program : Text) (arguments : List Text) (now : Instant) : Outcome :=
  match parse {} [] arguments with
  | .help => { errors := usage program }
  | .noTimeout => { code := 2, errors := usage program }
  | .evaluate options formulas =>
    let formulas := if formulas.isEmpty then samples else formulas
    let context := sampleContext now
    let evaluator : Evaluator := { options }
    let reports := formulas.flatMap fun source =>
      reportText source (evaluator.evaluate (m := Id) none source context).run
    let suggestions := context.suggestions.flatMap (' '.toUInt8 :: ·)
    { output := reports ++ utf8 "\nsuggestions:" ++ suggestions ++ utf8 "\n" }

end CommandLine

end ComputedFields
