import ComputedFields.Function.Arguments

/-!
# `ComputedFields.Function.Strings` — functions on texts

Every argument is taken as it is displayed.
-/

namespace ComputedFields.Function.Strings

/-- The arguments one after the other. -/
def concat : Builtin := fun arguments _ => pure (.text (arguments.flatMap Value.display))

/-- A function of the first argument's text. -/
def onText (f : Text → Text) : Builtin := fun arguments _ =>
  pure (.text (f (textArgument arguments 0)))

/-- The number of items of an array, and of characters of all else. -/
def length : Builtin := fun arguments _ =>
  match argument arguments 0 with
  | .array items => pure (count items.length)
  | v => pure (count v.display.characters)

/-- The first text with every occurrence of the second replaced by the third. -/
def replace : Builtin := fun arguments _ =>
  pure (.text (Text.replaceAll (textArgument arguments 1) (textArgument arguments 2)
    (textArgument arguments 0)))

/-- The functions on texts. -/
def definitions : List Definition :=
  [define "Concat" .string "Concatenate strings"
      "Concat(\"Hello\", \" \", \"World\") → \"Hello World\""
      [variadic "strings" "string[]" "Strings to join"] "string" concat,
    define "Upper" .string "Convert to uppercase" "Upper(\"hello\") → \"HELLO\""
      [required "text" "string" "Text to convert"] "string" (onText Text.upper),
    define "Lower" .string "Convert to lowercase" "Lower(\"HELLO\") → \"hello\""
      [required "text" "string" "Text to convert"] "string" (onText Text.lower),
    define "Length" .string "Length of string or array" "Length(\"hello\") → 5"
      [required "value" "string|array" "String or array"] "number" length,
    define "Trim" .string "Remove leading/trailing whitespace" "Trim(\"  hello  \") → \"hello\""
      [required "text" "string" "Text to trim"] "string" (onText Text.trim),
    define "Replace" .string "Replace occurrences in string"
      "Replace(\"hello\", \"l\", \"w\") → \"hewwo\""
      [required "text" "string" "Source text", required "search" "string" "Text to find",
        required "replace" "string" "Replacement"] "string" replace]

end ComputedFields.Function.Strings
