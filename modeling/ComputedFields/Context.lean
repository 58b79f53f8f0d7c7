import ComputedFields.Value.Basic

/-!
# `ComputedFields.Context` — what a formula may read

A formula is evaluated for a block of a note: it reads the block's fields, the entities that the
note mentions, the records beside the block, and the instant that counts as now.

* `Mention.value` — a mentioned entity as an object;
* `Context.mention?` — the entity with a given label.
-/

namespace ComputedFields

/-- An entity that a note mentions. -/
structure Mention where
  id : Text := []
  type : Text := []
  label : Text := []
  resolved : Bool := true
  properties : Table Value := []

/-- An entity as a value. -/
def Mention.value (m : Mention) : Value :=
  .object
    [(utf8 "id", .text m.id), (utf8 "label", .text m.label),
      (utf8 "properties", .object m.properties), (utf8 "resolved", .boolean m.resolved),
      (utf8 "type", .text m.type)]

/-- The entity is of a type, whose letter case is disregarded. -/
def Mention.hasType (m : Mention) (type : Text) : Bool := Text.sameLetters m.type type

/-- What a formula may read. -/
structure Context where
  fields : Table Value := []
  mentions : List Mention := []
  siblings : List Value := []
  settings : Table Value := []
  strand : Text := []
  block : Text := []
  now : Instant := 0

namespace Context

/-- The first entity with a label, whose letter case is disregarded. -/
def mention? (context : Context) (label : Text) : Option Mention :=
  context.mentions.find? fun m => Text.sameLetters m.label label

/-- The value of the entity with a label, or null. -/
def mentionValue (context : Context) (label : Text) : Value :=
  (context.mention? label).elim .null Mention.value

/-- The context with a field set. -/
def setField (context : Context) (name : Text) (v : Value) : Context :=
  { context with fields := Table.insert name v context.fields }

end Context

end ComputedFields
