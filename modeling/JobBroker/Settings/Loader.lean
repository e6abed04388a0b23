import JobBroker.Settings.Directory
import JobBroker.Settings.Environment
import JobBroker.Settings.Layer
import JobBroker.Settings.Toml.Document

/-!
# Loading settings

Settings come from three files, of which each may be absent, and from the environment. The later
files win over the earlier ones, and the environment over the files.
-/

namespace JobBroker

/-- Where settings are looked for: the files of a directory by name, and the environment. -/
structure SettingsSources where
  file? : String → Option String
  /-- The variables of the environment with their values. -/
  bindings : List (String × String)

/-- Why settings cannot be used. -/
inductive SettingsError
  /-- A file is not well formed, or a setting cannot be what it is. -/
  | unreadable
  | problem (problem : Settings.Problem)
deriving DecidableEq, Repr

namespace SettingsSources

/-- A directory with the given files, and the environment. -/
def ofFiles (files bindings : List (String × String)) : SettingsSources :=
  ⟨Directory.file? files, bindings⟩

/-- The name of the environment that the broker runs in. -/
def environment (s : SettingsSources) : String :=
  (Environment.get? s.bindings "FOREMAN_ENVIRONMENT").getD "development"

/-- The names of the files. A file that has nothing before `.toml` is no settings file. -/
def fileNames (s : SettingsSources) : List String :=
  let stems := ["default", s.environment, "local"]
  (stems.filter fun stem => stem.toList.getLast?.any (· ≠ '/')).map (· ++ ".toml")

/-- The layers, the strongest last. -/
def layers? (s : SettingsSources) : Option (List Setting) := do
  let files ← (s.fileNames.filterMap s.file?).mapM Toml.ofText?
  return files ++ [Environment.layer s.bindings]

/-- The settings, with the name of the environment filled in. -/
def load (s : SettingsSources) : Except SettingsError Settings :=
  match s.layers? >>= fun layers => Settings.read .lenient (Setting.merge layers) with
  | none => .error .unreadable
  | some settings =>
    let settings := { settings with app.environment := s.environment }
    match settings.problem? with
    | some p => .error (.problem p)
    | none => .ok settings

end SettingsSources

end JobBroker
