/-!
# Command-line arguments

A command line is read on two levels, that of the program and that of the command, each with its
options. Options may be long (`--graph main`, `--graph=main`) or short (`-g main`, `-gmain`, several
flags in one word), each at most once on a level; behind `--` everything is positional. The options
common to all commands may stand on either level, and the level of the command has precedence
(`Invocation.parse`).
-/

namespace Lineage.CommandLine

inductive Command where
  /-- Takes in the events of a file. -/
  | ingest (events : String)
  | consolidate (columnIn columnOut process : String)
  | query (guid graph scope view : String) (json : Bool)
  /-- Makes synthetic lineage. -/
  | mock (tables columns : Nat)
  | dump (graph : String) (output : Option String)
  | export (graph : String)
deriving DecidableEq, Repr

structure Invocation where
  config : Option String
  stateDirectory : Option String
  verbose : Bool
  command : Command
deriving DecidableEq, Repr

/-- Why there is no command to run. -/
inductive Stop where
  | usage
  | help
  | version
deriving DecidableEq, Repr

def helpLines : List String :=
  ["Usage: lineafold [OPTIONS] <COMMAND>",
    "",
    "Commands:",
    "  ingest <EVENTS>",
    "  consolidate <COLUMN_IN> <COLUMN_OUT> <PROCESS>",
    "  query [-g <GRAPH>] [--scope <SCOPE>] [--view <VIEW>] [--json] <GUID>",
    "  mock [--tables <TABLES>] [--columns <COLUMNS>]",
    "  dump [-o <OUTPUT>] <GRAPH>",
    "  export <GRAPH>",
    "",
    "Options:",
    "  -c, --config <CONFIG>",
    "  -s, --state-dir <STATE_DIR>",
    "  -v, --verbose",
    "  -h, --help",
    "  -V, --version"]

/-- What a stop prints; arguments that are out of order are shown the help. -/
def Stop.lines : Stop → List String
  | usage | help => helpLines
  | version => ["lineafold 0.1.0"]

def Stop.exitCode : Stop → UInt32
  | usage => 2
  | help | version => 0

/-! ## Options -/

inductive ValueKind where
  | text
  /-- Text that is not empty. -/
  | path
  | count
deriving DecidableEq, Repr

structure OptionSpec where
  long : String
  short : Option Char := none
  /-- None for a flag. -/
  value : Option ValueKind := none
deriving DecidableEq, Repr

/-- What may stand on a level. -/
structure Level where
  options : List OptionSpec
  positionals : List ValueKind
  /-- Whether the version can be asked for. -/
  hasVersion : Bool := false
  /-- Whether the first word ends the level. -/
  endsAtWord : Bool := false

/-- What stands on a level. -/
structure Found where
  options : List (String × String) := []
  positionals : List String := []

def countLimit : Nat := Nat.pow 2 64

/-- An unsigned number, which may have a plus in front. -/
def count? (text : String) : Option Nat :=
  let digits := match text.toList with
    | '+' :: rest => rest
    | cs => cs
  if digits ≠ [] && digits.all Char.isDigit then
    (some (Nat.ofDigitChars 10 digits 0)).filter (· < countLimit)
  else none

def ValueKind.accepts (k : ValueKind) (value : String) : Bool :=
  match k with
  | text => true
  | path => !value.isEmpty
  | count => (count? value).isSome

def Found.addOption (found : Found) (o : OptionSpec) (value : String) : Except Stop Found :=
  let accepted := o.value.all fun k => k.accepts value
  if !accepted || (found.options.lookup o.long).isSome then .error .usage
  else .ok { found with options := found.options ++ [(o.long, value)] }

def Found.addPositional (found : Found) (level : Level) (value : String) : Except Stop Found :=
  match level.positionals[found.positionals.length]? with
  | some k =>
    if k.accepts value then .ok { found with positionals := found.positionals ++ [value] }
    else .error .usage
  | none => .error .usage

/-! ## Words -/

inductive Word where
  | escape
  | long (name : String) (value : Option String)
  /-- The letters behind one dash. -/
  | cluster (letters : List Char)
  | plain

def Word.of (arg : String) : Word :=
  match arg.toList with
  | ['-', '-'] => escape
  | '-' :: '-' :: cs =>
    match cs.dropWhile (· ≠ '=') with
    | [] => long (String.ofList cs) none
    | _ :: value => long (String.ofList (cs.takeWhile (· ≠ '='))) (some (String.ofList value))
  | '-' :: c :: cs => cluster (c :: cs)
  | _ => plain

/-- Whether a word can be the value of the option before it. -/
def isValue (arg : String) : Bool :=
  match Word.of arg with
  | .plain => true
  | _ => false

/-- Reads the letters behind a dash. The last one may leave an option that still needs its value. -/
def readCluster (level : Level) : List Char → Found → Except Stop (Found × Option OptionSpec)
  | [], found => .ok (found, none)
  | c :: cs, found =>
    if c = 'h' then .error .help
    else if c = 'V' && level.hasVersion then .error .version
    else match level.options.find? fun o => o.short == some c with
      | none => .error .usage
      | some o =>
        if o.value.isNone then do
          let found ← found.addOption o ""
          readCluster level cs found
        else match cs with
          | [] => .ok (found, some o)
          | '=' :: cs => (found.addOption o (String.ofList cs)).map (·, none)
          | cs => (found.addOption o (String.ofList cs)).map (·, none)

/-- Reads a long option; one that takes a value and brings none still needs it. -/
def readLong (level : Level) (name : String) (value : Option String) (found : Found) :
    Except Stop (Found × Option OptionSpec) :=
  if name = "help" && value.isNone then .error .help
  else if name = "version" && level.hasVersion && value.isNone then .error .version
  else match level.options.find? fun o => o.long == name with
    | none => .error .usage
    | some o => match o.value, value with
      | none, none => (found.addOption o "").map (·, none)
      | none, some _ => .error .usage
      | some _, some v => (found.addOption o v).map (·, none)
      | some _, none => .ok (found, some o)

/-- Reads the words of a level, and yields those that are left. -/
def readLevel (level : Level) : List String → Found → Except Stop (Found × List String)
  | [], found => .ok (found, [])
  | arg :: rest, found =>
    match Word.of arg with
    | .plain =>
      if level.endsAtWord then .ok (found, arg :: rest)
      else do
        let found ← found.addPositional level arg
        readLevel level rest found
    | .escape => do
      let found ← rest.foldlM (fun (found : Found) v => found.addPositional level v) found
      return (found, [])
    | .long name value => do
      let (found, pending) ← readLong level name value found
      match pending, rest with
      | none, rest => readLevel level rest found
      | some _, [] => throw .usage
      | some o, v :: rest =>
        if isValue v then do
          let found ← found.addOption o v
          readLevel level rest found
        else throw .usage
    | .cluster letters => do
      let (found, pending) ← readCluster level letters found
      match pending, rest with
      | none, rest => readLevel level rest found
      | some _, [] => throw .usage
      | some o, v :: rest =>
        if isValue v then do
          let found ← found.addOption o v
          readLevel level rest found
        else throw .usage

/-! ## Commands -/

/-- The options that stand on either level. -/
def commonOptions : List OptionSpec :=
  [{ long := "config", short := some 'c', value := some .path },
    { long := "state-dir", short := some 's', value := some .path },
    { long := "verbose", short := some 'v' }]

def programLevel : Level where
  options := commonOptions
  positionals := []
  hasVersion := true
  endsAtWord := true

def commandLevel? (name : String) : Option Level :=
  let level (options : List OptionSpec) (positionals : List ValueKind) : Option Level :=
    some { options := commonOptions ++ options, positionals }
  match name with
  | "ingest" => level [] [.path]
  | "consolidate" => level [] [.text, .text, .text]
  | "query" =>
    level [{ long := "graph", short := some 'g', value := some .text },
      { long := "scope", value := some .text }, { long := "view", value := some .text },
      { long := "json" }] [.text]
  | "mock" =>
    level [{ long := "tables", value := some .count },
      { long := "columns", value := some .count }] []
  | "dump" => level [{ long := "output", short := some 'o', value := some .path }] [.text]
  | "export" => level [] [.text]
  | _ => none

def Found.option? (found : Found) (name : String) : Option String := found.options.lookup name

def Found.countOr (found : Found) (name : String) (standard : Nat) : Nat :=
  ((found.option? name).bind count?).getD standard

/-- The command that a level gives, if it has all its positionals. -/
def command? (name : String) (found : Found) : Option Command :=
  match name, found.positionals with
  | "ingest", [events] => some (.ingest events)
  | "consolidate", [columnIn, columnOut, process] => some (.consolidate columnIn columnOut process)
  | "query", [guid] =>
    some (.query guid ((found.option? "graph").getD "main")
      ((found.option? "scope").getD "ultimate-source")
      ((found.option? "view").getD "column-view") (found.option? "json").isSome)
  | "mock", [] => some (.mock (found.countOr "tables" 10) (found.countOr "columns" 4))
  | "dump", [graph] => some (.dump graph (found.option? "output"))
  | "export", [graph] => some (.export graph)
  | _, _ => none

/-- Help may be asked for by name, about one command at most. -/
def readHelp : List String → Stop
  | [] => .help
  | [name] => if name = "help" || (commandLevel? name).isSome then .help else .usage
  | _ => .usage

def Invocation.parse (args : List String) : Except Stop Invocation := do
  let (outer, rest) ← readLevel programLevel args {}
  match rest with
  | [] => throw .usage
  | name :: rest =>
    if name = "help" then throw (readHelp rest)
    let some level := commandLevel? name | throw .usage
    let (inner, _) ← readLevel level rest {}
    let some command := command? name inner | throw .usage
    return {
      config := (inner.option? "config").or (outer.option? "config")
      stateDirectory := (inner.option? "state-dir").or (outer.option? "state-dir")
      verbose := (inner.option? "verbose").isSome || (outer.option? "verbose").isSome
      command }

end Lineage.CommandLine
