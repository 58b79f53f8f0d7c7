import ComputedFields.Context

/-!
# `ComputedFields.Suggestion` — formulas to offer in a context

The current time and date are always on offer; with two places there is the way between the first
two, with two numeric fields their sum and average, and with siblings their count.
-/

namespace ComputedFields

/-- A call of a function with its arguments as they are written. -/
def callText (function : Text) (arguments : List Text) : Text :=
  function ++ '('.toUInt8 :: Text.join (utf8 ", ") arguments ++ [')'.toUInt8]

namespace Context

/-- The entities that are places. -/
def places (context : Context) : List Mention :=
  context.mentions.filter (·.hasType (utf8 "place"))

/-- The names of the fields that hold numbers. -/
def numericFields (context : Context) : List Text :=
  (context.fields.filter fun (_, v) => v.kind == .number).map (·.1)

/-- The formulas between the first two places. -/
def placeSuggestions (context : Context) : List Text :=
  match context.places with
  | a :: b :: _ =>
    let places := ['@'.toUInt8 :: a.label, '@'.toUInt8 :: b.label]
    [callText (utf8 "Route") places, callText (utf8 "Distance") places]
  | _ => []

/-- The formulas over all numeric fields. -/
def numberSuggestions (context : Context) : List Text :=
  let names := context.numericFields
  if 2 ≤ names.length then [callText (utf8 "Sum") names, callText (utf8 "Average") names] else []

/-- The formulas on offer in a context. -/
def suggestions (context : Context) : List Text :=
  [callText (utf8 "Now") [], callText (utf8 "Today") []]
    ++ context.placeSuggestions ++ context.numberSuggestions
    ++ if context.siblings.isEmpty then [] else [callText (utf8 "Count") [utf8 "siblings"]]

end Context

end ComputedFields
