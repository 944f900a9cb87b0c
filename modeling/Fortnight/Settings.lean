import Fortnight.Error
import Fortnight.Wire.Period
import Fortnight.Yaml.Decoder

/-!
# Settings

The rule for when periods fall due can be set in a YAML file. A file that says
nothing about it leaves the standard rule in place.
-/

namespace Fortnight

structure Settings where
  finalize : FinalizeRule
  deriving DecidableEq

namespace Settings

def standard : Settings := ⟨.standard⟩

/-- Reads the members of the file. Those of unknown names are passed over unread. -/
def ofMembers (s : Yaml.Surroundings) : (found : Option FinalizeRule) →
    List (Yaml.Node × Yaml.Node) → Yaml.Decoding Settings
  | found, [] => return ⟨found.getD .standard⟩
  | found, (k, v) :: rest => do
    if (← Yaml.scalarText s k) = "finalize" then
      if found.isSome then throw (.repeatedField "finalize")
      ofMembers s (some (← FinalizeRule.shapes.ofNode s (Yaml.maxDepth - 1) v)) rest
    else ofMembers s found rest

/-- The settings in a document. One without content leaves everything as it is by itself. -/
def ofDocument (d : Yaml.Document) : Except DecodeError Settings :=
  match d.root? with
  | none => .ok standard
  | some root =>
    match root with
    | .scalar _ true "" => .ok standard
    | .mapping _ members => (ofMembers (.ofRoot root) none members).run' 0
    | _ => .error .unreadableText

/-- The settings in the text of the file at `path`, if there is such a file. -/
def load (path : String) : Option String → Except Error Settings
  | none => .error (.settingsNotFound path)
  | some text =>
    match Yaml.Document.ofText? text with
    | none => .error (.settingsMalformed path "the text is not YAML")
    | some document =>
      match ofDocument document with
      | .ok settings => .ok settings
      | .error e => .error (.settingsMalformed path e.message)

end Settings

end Fortnight
