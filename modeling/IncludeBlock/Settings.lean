import IncludeBlock.Cover.Policy
import IncludeBlock.Disk.Edit
import IncludeBlock.Json.Printer
import IncludeBlock.Ordering
import IncludeBlock.Snapshot.File

/-!
# Settings

What a user may choose, and the file it is kept in. A settings file is looked
for in the directory for settings or else below the home directory; if there
is none, every setting has its default.
-/

namespace IncludeBlock

/-- What a pass is allowed to change. -/
structure Actions where
  /-- Put entries in order and group them. -/
  sort : Bool := true
  /-- Add entries for required files that nothing reaches. -/
  add : Bool := true
  /-- Drop entries that are redundant or repeated. -/
  remove : Bool := true
  /-- Search the disk for files that are not known. -/
  resolve : Bool := true
  /-- Write every spelling anew, and not only missing ones. -/
  rename : Bool := true
deriving DecidableEq, Repr, Inhabited

namespace Actions

def all : Actions := {}

def none : Actions := ⟨false, false, false, false, false⟩

/-- The actions with the named one allowed too. -/
def allow? (a : Actions) (name : String) : Option Actions :=
  match Text.lower name with
  | "all" => some all
  | "sort" => some { a with sort := true }
  | "add" => some { a with add := true }
  | "remove" => some { a with remove := true }
  | "resolve" => some { a with resolve := true }
  | "rename" => some { a with rename := true }
  | _ => Option.none

/-- The names in a list with commas; blanks around a name do not count. -/
def namesIn (s : String) : List String :=
  ((Text.pieces ',' s.toList).map fun cs => String.ofList (Text.trimChars cs)).filter
    (· != "")

/-- The actions that a list of names allows. -/
def parse (s : String) : Except Failure Actions :=
  (namesIn s).foldlM (fun a name =>
    match a.allow? name with
    | some a => .ok a
    | Option.none => .error (.unknownAction name)) none

def toJson (a : Actions) : Json :=
  .record [("sort", .bool a.sort), ("add", .bool a.add),
    ("remove", .bool a.remove), ("resolve", .bool a.resolve),
    ("rename", .bool a.rename)]

def ofJson : Json.Decoder Actions := fun v => do
  let [sort, add, remove, resolve, rename] ←
    v.fields? ["sort", "add", "remove", "resolve", "rename"] | Option.none
  let flag := Json.orDefault true Json.asBool
  return ⟨← flag sort, ← flag add, ← flag remove, ← flag resolve, ← flag rename⟩

end Actions

/-- What a user may choose. -/
structure Settings where
  policy : Policy := .minimalEntries
  order : Order := .specificFirst
  actions : Actions := .all
  /-- Files below this directory belong to the system. -/
  systemRoot : Path := ⟨"/usr/"⟩
  /-- Include the public header instead of a private one that it forwards
  to. -/
  preferPublic : Bool := true
  /-- Search the disk for entries whose file is not known. -/
  searchUnresolved : Bool := true
deriving DecidableEq, Repr, Inhabited

namespace Settings

def toJson (s : Settings) : Json :=
  .record [("policy", .ofString s.policy.settingName),
    ("order", .ofString s.order.settingName),
    ("organize_actions", s.actions.toJson),
    ("system_root", .ofString s.systemRoot.text),
    ("prefer_public_headers", .bool s.preferPublic),
    ("search_unresolved", .bool s.searchUnresolved)]

def ofJson : Json.Decoder Settings := fun v => do
  let [policy, order, actions, systemRoot, preferPublic, searchUnresolved] ←
    v.fields? ["policy", "order", "organize_actions", "system_root",
      "prefer_public_headers", "search_unresolved"] | none
  let d : Settings := {}
  return {
    policy := ← Json.orDefault d.policy
      (Json.asChoice Policy.ofSettingName?) policy
    order := ← Json.orDefault d.order (Json.asChoice Order.ofSettingName?) order
    actions := ← Json.orDefault d.actions Actions.ofJson actions
    systemRoot := ← Json.orDefault d.systemRoot Json.asPath systemRoot
    preferPublic := ← Json.orDefault d.preferPublic Json.asBool preferPublic
    searchUnresolved :=
      ← Json.orDefault d.searchUnresolved Json.asBool searchUnresolved }

end Settings

/-! ## The settings file -/

/-- The variables of the environment that tell where settings are kept. -/
structure Environment where
  configHome : Option String
  home : Option String
deriving DecidableEq, Repr, Inhabited

/-- Settings with the file that they come from, if they come from one. -/
structure Config where
  settings : Settings := {}
  source : Option Path := none
deriving DecidableEq, Repr, Inhabited

namespace Config

/-- Where a user's settings are kept. -/
def defaultPath? (env : Environment) : Option Path :=
  let base : Option Path := match env.configHome with
    | some dir => some (Path.mk dir)
    | none => env.home.map fun home => Path.join ⟨home⟩ ".config"
  base.map fun dir => (dir.join "incorg").join "config.json"

def load (d : Disk) (p : Path) : Except Failure Config := do
  return { settings := ← d.readAs Settings.ofJson p, source := some p }

/-- Reads a user's settings; without a file they are the defaults. -/
def loadDefault (d : Disk) (env : Environment) : Except Failure Config :=
  match (defaultPath? env).filter d.pathExists with
  | some p => load d p
  | none => .ok {}

def fileText (s : Settings) : String :=
  s.toJson.pretty

/-- Writes settings to a file, with the directories it lies in. -/
def save (d : Disk) (p : Path) (s : Settings) : Disk × Except Failure Unit :=
  d.saving p (Text.encode (fileText s))

end Config

end IncludeBlock
