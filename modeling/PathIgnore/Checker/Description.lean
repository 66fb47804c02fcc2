import PathIgnore.Checker
import PathIgnore.WorkTree

/-!
# Descriptions of checkers

A checker for a tree on a disk, described on one line: each part by its name, with braces around the
fields of a record.
-/

namespace PathIgnore

/-- A record as a description writes it: its name and its fields. -/
def describeRecord (name : String) (fields : List (String × Text)) : Text :=
  let field (entry : String × Text) : Text := entry.1.toList ++ ": ".toList ++ entry.2
  name.toList ++ " \x7b ".toList ++ List.intercalate ", ".toList (fields.map field) ++
    " \x7d".toList

/-- The tree as a description writes it. -/
def WorkTree.describe (tree : WorkTree) : Text :=
  describeRecord "FsRepository"
    [("root", Text.Quoted.encodePath tree.root),
      ("rule_file_name", Text.Quoted.encode tree.ruleFileName)]

/-- The settings as a description writes them. -/
def Settings.describe (settings : Settings) : Text :=
  describeRecord "ResolverOptions"
    [("metadata_dir_name", Text.Quoted.encode settings.metadataName),
      ("cache_rule_sets", Event.flagText settings.keepRules)]

/-- A checker that has loaded nothing yet, as a description writes it. `watched` says whether
somebody is told of its visits. -/
def Checker.describe (checker : Checker) (tree : WorkTree) (watched : Bool) : Text :=
  let fresh := describeRecord "RuleSetCache" [("entries", ['\x7b', '\x7d'])]
  let store : Text := match checker.store with
    | some _ => "Some(".toList ++ fresh ++ [')']
    | none => "None".toList
  describeRecord "Resolver"
    [("root", Text.Quoted.encodePath checker.root), ("provider", tree.describe),
      ("options", checker.settings.describe), ("cache", store),
      ("observer", Event.flagText watched)]

end PathIgnore
