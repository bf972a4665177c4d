import Lineage.Consolidation
import Lineage.Path
import Lineage.Toml.Assembly
import Lineage.Toml.Quoted
import Lineage.Whitelist

/-!
# Settings

Which properties answers may show, how far consolidation searches, and where graphs are kept.
Settings are read from three sections of a TOML document, each of which may be left out; unknown
keys are passed over (`Settings.read?`). They are written in one fixed form (`Settings.write`),
except for a search depth beyond what a TOML integer can hold.
-/

namespace Lineage

structure Settings where
  whitelist : Whitelist := .standard
  depths : SearchDepths := {}
  /-- The directory of the graphs, as configured. -/
  stateDirectory : String := ".lineafold"
  /-- The directory that a relative state directory is seen from. -/
  projectRoot : String := ""
deriving DecidableEq

/-- Why settings could not be read or written. -/
inductive SettingsError where
  | file (cause : FileError)
  /-- Text that does not give settings. -/
  | malformed
  /-- A search depth that no TOML integer can hold. -/
  | unwritable
deriving DecidableEq, Repr

def SettingsError.message : SettingsError → String
  | file cause => "IO error: " ++ cause.message
  | malformed => "Parse error"
  | unwritable => "Serialize error"

namespace Settings

/-- The state directory as it is to be used. -/
def resolvedStateDirectory (s : Settings) : String := Path.join s.projectRoot s.stateDirectory

/-! ## Reading -/

/-- The entries of a section. Besides a table a section may be an array, which gives the values of
its fields in order; a date has no entries. -/
def sectionEntries? (fields : List String) : Toml → Option Toml.Entries
  | .table _ entries => some entries
  | .arr items => some (fields.zip items)
  | .tables elements => some (fields.zip (elements.map (.table .header)))
  | .dateTime => some []
  | _ => none

def asString? : Toml → Option String
  | .str s => some s
  | _ => none

def asDepth? : Toml → Option Nat
  | .int (.ofNat n) => some n
  | _ => none

def asWhitelist? : Toml → Option Whitelist
  | .arr items => (items.mapM asString?).map Whitelist.ofKeys
  | _ => none

/-- The value under a key, if it is there. -/
def entry? {α : Type} (read : Toml → Option α) (key : String) (standard : α)
    (entries : Toml.Entries) : Option α :=
  match entries.lookup key with
  | none => some standard
  | some value => read value

/-- A whitelist section has to list its attributes. -/
def whitelistOf? (value : Toml) : Option Whitelist := do
  let entries ← sectionEntries? ["attributes"] value
  (entries.lookup "attributes").bind asWhitelist?

def depthsOf? (value : Toml) : Option SearchDepths := do
  let entries ← sectionEntries? ["table_search_depth", "schema_search_depth"] value
  let standard : SearchDepths := {}
  return {
    table := ← entry? asDepth? "table_search_depth" standard.table entries
    schema := ← entry? asDepth? "schema_search_depth" standard.schema entries }

def stateDirectoryOf? (value : Toml) : Option String := do
  let entries ← sectionEntries? ["state_dir"] value
  let standard : Settings := {}
  entry? asString? "state_dir" standard.stateDirectory entries

def read? (text : String) : Option Settings := do
  let entries ← Toml.read? text
  let standard : Settings := {}
  return {
    whitelist := ← entry? whitelistOf? "whitelist" standard.whitelist entries
    depths := ← entry? depthsOf? "consolidation" standard.depths entries
    stateDirectory := ← entry? stateDirectoryOf? "storage" standard.stateDirectory entries }

/-! ## Writing -/

/-- An item of an array on a line of its own. -/
def writeItem (key : String) : List Char :=
  ' ' :: ' ' :: ' ' :: ' ' :: Toml.quote key ++ [',', '\n']

/-- An array: on one line up to one item, else each item on a line of its own. -/
def writeKeys : List String → List Char
  | [] => ['[', ']']
  | [key] => '[' :: Toml.quote key ++ [']']
  | keys =>
    '[' :: '\n' :: keys.flatMap writeItem ++ [']']

def writeText (s : Settings) : List Char :=
  "[whitelist]\nattributes = ".toList ++ writeKeys s.whitelist.keys ++
  "\n\n[consolidation]\ntable_search_depth = ".toList ++ Nat.toDigits 10 s.depths.table ++
  "\nschema_search_depth = ".toList ++ Nat.toDigits 10 s.depths.schema ++
  "\n\n[storage]\nstate_dir = ".toList ++ Toml.quote s.stateDirectory ++ ['\n']

def write (s : Settings) : Except SettingsError String :=
  if s.depths.table < Toml.int64Limit && s.depths.schema < Toml.int64Limit then
    .ok (String.ofList s.writeText)
  else .error .unwritable

/-! ## Files -/

section Files

variable {m : Type → Type} [Monad m] [Files m]

/-- Reads settings from a file, the directory of which becomes the project root. -/
def load (path : String) : m (Except SettingsError Settings) := do
  match ← Files.read path with
  | .error e => return .error (.file e)
  | .ok text => match read? text with
    | none => return .error .malformed
    | some s => return .ok { s with projectRoot := (Path.parent? path).getD s.projectRoot }

def save (s : Settings) (path : String) : m (Except SettingsError Unit) := do
  match s.write with
  | .error e => return .error e
  | .ok text => return (← Files.write path text).mapError .file

end Files

end Settings

end Lineage
