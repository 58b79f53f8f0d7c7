import ComputedFields.Function.Arguments

/-!
# `ComputedFields.Function.Reference` — functions on what the note holds
-/

namespace ComputedFields.Function.Reference

/-- The field that the argument names, or null. -/
def field : Builtin := fun arguments context =>
  pure ((Table.find? (textArgument arguments 0) context.fields).getD .null)

/-- The mentioned entity whose label is the argument, or null. -/
def mention : Builtin := fun arguments context =>
  pure (context.mentionValue (textArgument arguments 0))

/-- The mentioned entities of a type. -/
def mentionsOfType : Builtin := fun arguments context =>
  pure (.array ((context.mentions.filter (·.hasType (textArgument arguments 0))).map Mention.value))

/-- The functions on what the note holds. -/
def definitions : List Definition :=
  [define "Get" .reference "Get a field value from current block" "Get(\"status\")"
      [required "fieldName" "string" "Field name"] "any" field,
    define "Mention" .reference "Get a mentioned entity by label" "Mention(\"paris\")"
      [required "label" "string" "Entity label"] "entity" mention,
    define "MentionsOfType" .reference "Get all mentions of a specific type"
      "MentionsOfType(\"place\")" [required "type" "string" "Entity type"] "entity[]"
      mentionsOfType]

end ComputedFields.Function.Reference
