import IncludeBlock.Options
import IncludeBlock.Organize
import IncludeBlock.Scan
import IncludeBlock.Weight

/-!
# The command line

The commands organize a document, scan directories into a snapshot, and weigh
files. A run is a function of the words of the command line, the environment
and the disk; it gives what is printed, the exit code and the new disk.
-/

namespace IncludeBlock

/-- Why a command failed. -/
inductive CommandError where
  | failure (cause : Failure)
  | missingArgument (what : String)
  | unknownCommand (name : String)
deriving DecidableEq, Repr

def CommandError.message : CommandError → String
  | failure cause => "incorg error: " ++ cause.message
  | missingArgument what => "Missing argument: " ++ what
  | unknownCommand name => "Unknown command `" ++ name ++ "`"

/-- What a run leaves behind. -/
structure Outcome where
  code : Nat := 0
  out : String := ""
  err : String := ""
  disk : Disk
deriving Inhabited

namespace Command

def options : List OptionSpec :=
  [⟨"help", some 'h', false, false⟩, ⟨"verbose", some 'v', false, false⟩,
    ⟨"config", some 'c', true, false⟩, ⟨"snapshot", some 's', true, false⟩,
    ⟨"policy", some 'p', true, false⟩, ⟨"order", some 'o', true, false⟩,
    ⟨"actions", some 'a', true, false⟩, ⟨"no-search", none, false, false⟩,
    ⟨"include", some 'I', true, true⟩]

def usage : List String :=
  ["Usage: incorg organize <request.json> | scan <out> <root>..."
      ++ " | weight <snapshot> <file>...",
    "",
    "Options:",
    "    -h, --help          Show help",
    "    -v, --verbose       Increased vebosity",
    "    -c, --config FILE   Read settings from FILE instead of the user config",
    "    -s, --snapshot FILE Use a saved snapshot instead of scanning",
    "    -p, --policy POLICY Coverage policy: minimal-entries or minimal-depth",
    "    -o, --order ORDER   Order: specific-first, general-first,"
      ++ " keep-current or",
    "                        alphabetical",
    "    -a, --actions LIST  Comma separated actions:",
    "                        sort,add,remove,resolve,rename",
    "        --no-search     Do not search the disk for unresolved includes",
    "    -I, --include DIR   Search root used when scanning",
    ""]

/-- Lines, each with its end. -/
def unlines (lines : List String) : String :=
  String.join (lines.map (· ++ "\n"))

/-- The line of the log for an error; what a message has on further lines is
moved in. -/
def logLine (message : String) : String :=
  let lines := (Text.pieces '\n' message.toList).map String.ofList
  "incorg_terminal: " ++ "\n    ".intercalate lines ++ "\n"

/-- What a run leaves behind that fails. -/
def failed (e : CommandError) (d : Disk) : Outcome :=
  { code := 1, err := logLine e.message, disk := d }

/-- A value of an option put into settings by a reader. -/
def override {α : Type} (s : Settings) (value : Option String)
    (read : String → Except Failure α) (set : Settings → α → Settings) :
    Except Failure Settings :=
  match value with
  | some v => do return set s (← read v)
  | none => .ok s

/-- The settings of a run: those of the file that is asked for or of the user,
where a broken file of the user counts as none, with the options in front. -/
def settings (args : Arguments) (env : Environment) (d : Disk) :
    Except Failure Settings := do
  let config ← match args.value? "config" with
    | some path => Config.load d ⟨path⟩
    | none => .ok ((Config.loadDefault d env).toOption.getD {})
  let s ← override config.settings (args.value? "policy") Policy.parse
    fun s policy => { s with policy }
  let s ← override s (args.value? "order") Order.parse
    fun s order => { s with order }
  let s ← override s (args.value? "actions") Actions.parse
    fun s actions => { s with actions }
  return if args.isGiven "no-search" then { s with searchUnresolved := false }
    else s

/-- The word at a place behind the command. -/
def argument (args : Arguments) (place : Nat) (what : String) :
    Except CommandError String :=
  match args.free[place]? with
  | some word => .ok word
  | none => .error (.missingArgument what)

def organize (args : Arguments) (env : Environment) (d : Disk) :
    Except CommandError Outcome := do
  let path ← argument args 1 "request file"
  let go : Except Failure OrganizeResult := do
    let request ← OrganizeRequest.load d ⟨path⟩
    let s ← settings args env d
    let (snapshot, _) ← match args.value? "snapshot" with
      | some file => Snapshot.load d ⟨file⟩ {}
      | none => Snapshot.scan d [request.projectRoot] request.searchRoots {}
    return ((Organizer.mk (.new snapshot.toSource) s).organize d request).1
  let result ← go.mapError .failure
  return {
    out := result.render
    err := unlines <|
      result.dropped.map ("dropped: " ++ ·.directive) ++
      result.unresolved.map ("unresolved: " ++ ·.directive) ++
      result.uncoverable.map ("uncoverable: " ++ ·.text)
    disk := d }

def scan (args : Arguments) (d : Disk) : Except CommandError Outcome := do
  let out ← argument args 1 "output file"
  let _ ← argument args 2 "root directory"
  let (snapshot, _) ← (Snapshot.scan d ((args.free.drop 2).map Path.mk)
    ((args.values "include").map Path.mk) {}).mapError .failure
  match snapshot.save d ⟨out⟩ with
  | (disk, .ok ()) =>
      return { out := s!"Saved {snapshot.arena.size} files to {out}\n", disk }
  | (disk, .error e) => return failed (.failure e) disk

def weigh (args : Arguments) (d : Disk) : Except CommandError Outcome := do
  let path ← argument args 1 "snapshot file"
  let _ ← argument args 2 "file"
  let (snapshot, _) ← (Snapshot.load d ⟨path⟩ {}).mapError .failure
  let (_, lines) := (args.free.drop 2).foldl (fun (x, lines) file =>
    let (report, x) := Index.report x d (d.canonical ⟨file⟩)
    (x, lines ++ [report.text])) (Index.new snapshot.toSource, [])
  return { out := unlines lines, disk := d }

/-- Runs the command that the first word names. -/
def dispatch (args : Arguments) (name : String) (env : Environment)
    (d : Disk) : Except CommandError Outcome :=
  match name with
  | "organize" => organize args env d
  | "scan" => scan args d
  | "weight" => weigh args d
  | _ => .error (.unknownCommand name)

def run (words : List String) (env : Environment) (d : Disk) : Outcome :=
  match Arguments.read options words with
  | .error e =>
      { out := "Unable to parse options: " ++ e.message ++ "\n", disk := d }
  | .ok args =>
      match args.isGiven "help", args.free with
      | false, name :: _ =>
          match dispatch args name env d with
          | .ok outcome => outcome
          | .error e => failed e d
      | _, _ => { err := unlines usage, disk := d }

end Command

end IncludeBlock
