import ComputedFields.Calendar.Iso
import ComputedFields.Function.Arguments
import ComputedFields.Number.Binary

/-!
# `ComputedFields.Function.Travel` — functions on places

Routes and forecasts come from services that are not connected, so `Route` and `Weather` return what
was asked for with blanks in place of the answer. Distances are great circles on a sphere.
-/

namespace ComputedFields.Function.Travel

/-- A place on the globe, in degrees. -/
structure Coordinates where
  latitude : Float
  longitude : Float

/-- The coordinates among the entries of an object. -/
def coordinates? (v : Value) : Option Coordinates :=
  match v.find? (utf8 "latitude"), v.find? (utf8 "longitude") with
  | some (.number latitude), some (.number longitude) => some ⟨latitude, longitude⟩
  | _, _ => none

/-- The place that a value stands for: an object with coordinates in itself or in its `properties`,
or the label of an entity that is a place. -/
def locate (context : Context) : Value → Option Coordinates
  | .text label =>
    match context.mention? label with
    | some m => if m.hasType (utf8 "place") then coordinates? (.object m.properties) else none
    | none => none
  | .object entries =>
    coordinates? (.object entries)
      <|> ((Value.object entries).find? (utf8 "properties")).bind coordinates?
  | _ => none

/-- The mean radius of the earth in kilometres. -/
def earthRadius : Float := 6371.0

/-- One degree in radians. -/
def degree : Float := 3.14159265358979323846 / 180.0

/-- The great-circle distance of two places in kilometres, by the haversine formula. -/
def greatCircle (a b : Coordinates) : Float :=
  let dlat := (b.latitude - a.latitude) * degree
  let dlng := (b.longitude - a.longitude) * degree
  let h := Float.sin (dlat / 2) * Float.sin (dlat / 2)
    + Float.cos (a.latitude * degree) * Float.cos (b.latitude * degree) * Float.sin (dlng / 2)
      * Float.sin (dlng / 2)
  earthRadius * 2 * Float.atan2 h.sqrt (1 - h).sqrt

/-- The distance of two places to a tenth of a kilometre; zero when one of them is not known. -/
def distance : Builtin := fun arguments context =>
  match locate context (argument arguments 0), locate context (argument arguments 1) with
  | some a, some b => pure (.number (Number.roundedTo (greatCircle a b) 1))
  | _, _ => pure (.number 0)

/-- The name of a place: the label of an object that has one, or the text of the value. -/
def placeName (v : Value) : Text := ((v.find? (utf8 "label")).getD v).display

/-- An object with texts for its values. -/
def record (entries : List (String × Text)) : Value :=
  .object (entries.map fun (key, s) => (utf8 key, .text s))

/-- A route without an answer. -/
def route : Builtin := fun arguments _ =>
  pure (record
    [("distance", utf8 "-- km"), ("duration", utf8 "-- min"),
      ("from", placeName (argument arguments 0)),
      ("message",
        utf8 "Route API not configured. Connect a routing service for real routes."),
      ("mode", textArgumentOr arguments 2 (utf8 "drive")),
      ("to", placeName (argument arguments 1))])

/-- A forecast without an answer, for the date that is given or else for today. -/
def weather : Builtin := fun arguments context => do
  let t ←
    if (argument arguments 1).truthy then (argument arguments 1).toInstant else pure context.now
  pure (record
    [("condition", utf8 "Unknown"), ("date", Calendar.writeIsoDate t),
      ("message",
        utf8 "Weather API not configured. Connect a forecast service for real forecasts."),
      ("place", placeName (argument arguments 0)), ("temperature", utf8 "--°")])

/-- The functions on places. -/
def definitions : List Definition :=
  [{ define "Route" .travel "Calculate route between two places (requires external API)"
        "Route(@home, @office)"
        [required "from" "place" "Starting location", required "to" "place" "Destination",
          defaulted "mode" "string" "Travel mode (drive/walk/transit)" "drive"] "object" route with
      deferred := true },
    { define "Weather" .travel "Get weather forecast for a place and date"
        "Weather(@paris, @friday)"
        [required "place" "place" "Location", optional "date" "date" "Date for forecast"] "object"
        weather with
      deferred := true },
    define "Distance" .travel "Calculate straight-line distance between coordinates"
      "Distance(@paris, @london)"
      [required "from" "place" "Starting point", required "to" "place" "End point"] "number"
      distance]

end ComputedFields.Function.Travel
