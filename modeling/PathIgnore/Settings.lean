import PathIgnore.Json

/-!
# Settings

What can be set about how paths are checked, and the JSON form of it.
-/

namespace PathIgnore

/-- What can be set about how paths are checked. -/
structure Settings where
  /-- The name of the directories whose whole content is ignored. -/
  metadataName : Text
  /-- Whether the rules of a directory are kept once they have been loaded. -/
  keepRules : Bool
  deriving DecidableEq, Repr

namespace Settings

/-- The settings that hold unless others are chosen. -/
def standard : Settings where
  metadataName := ".git".toList
  keepRules := true

/-- The key of the metadata name. -/
def metadataNameKey : Text := "metadata_dir_name".toList

/-- The key of whether rules are kept. -/
def keepRulesKey : Text := "cache_rule_sets".toList

/-- The settings with a metadata name read from JSON. -/
def withMetadataName? (settings : Settings) : Json → Option Settings
  | .string (some name) => some { settings with metadataName := name }
  | _ => none

/-- The settings with a choice to keep rules read from JSON. -/
def withKeepRules? (settings : Settings) : Json → Option Settings
  | .bool keep => some { settings with keepRules := keep }
  | _ => none

/-- The settings with one member of an object read. A member with another key changes nothing; its
key must have a text all the same. -/
def withMember? (settings : Settings) : Option Text × Json → Option Settings
  | (none, _) => none
  | (some key, value) =>
    if key = metadataNameKey then settings.withMetadataName? value
    else if key = keepRulesKey then settings.withKeepRules? value
    else some settings

/-- How often a key stands in an object. -/
def countKey (key : Text) (members : List (Option Text × Json)) : Nat :=
  members.countP (·.1 = some key)

/-- The settings that a JSON value holds: an object, in which each key stands at most once, or an
array of the values in the order of the keys. What is missing is as in the standard settings. -/
def ofJson? : Json → Option Settings
  | .object members =>
    if 1 < countKey metadataNameKey members || 1 < countKey keepRulesKey members then none
    else members.foldlM withMember? standard
  | .array [] => some standard
  | .array [name] => standard.withMetadataName? name
  | .array [name, keep] => do (← standard.withMetadataName? name).withKeepRules? keep
  | _ => none

/-- The settings that a JSON text holds. -/
def parse? (text : Text) : Option Settings :=
  (Json.parse? text).bind ofJson?

/-- The settings as a JSON object. -/
def toJson (settings : Settings) : Text :=
  ['\x7b'] ++ Json.encodeText metadataNameKey ++ [':'] ++ Json.encodeText settings.metadataName ++
    [','] ++ Json.encodeText keepRulesKey ++ [':'] ++
    (if settings.keepRules then "true".toList else "false".toList) ++ ['\x7d']

end Settings

end PathIgnore
