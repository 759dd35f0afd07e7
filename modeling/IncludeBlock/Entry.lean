import IncludeBlock.Json.Decode

/-!
# Include entries

An entry is one include of a document, written there or about to be added. It
stands for the file it includes: entries are compared by that file alone, and
neither spelling nor position plays a part.
-/

namespace IncludeBlock

/-- One include. -/
structure Entry where
  /-- The included file, the empty path if it is not found yet. -/
  file : Path := Path.empty
  /-- The text between the quotes or brackets, empty if it is still to come. -/
  spelling : String := ""
  /-- Written with quotes, and with brackets otherwise. -/
  isLocal : Bool := false
  /-- The line in the document, if the entry stands in it. -/
  line : Option Nat := none
  /-- Entries of one group stand together, without a blank line. -/
  group : Nat := 0
  /-- Added by the organizer. -/
  isNew : Bool := false
deriving DecidableEq, Repr, Inhabited

namespace Entry

/-- An entry that includes a known file. -/
def resolved (file : Path) (spelling : String) (line : Option Nat)
    (isLocal : Bool) : Entry :=
  { file, spelling, line, isLocal }

/-- An entry whose file is not known. -/
def unresolved (spelling : String) (line : Option Nat) (isLocal : Bool) :
    Entry :=
  { spelling, line, isLocal }

/-- A new entry for a file, with everything else to be filled in. -/
def synthesized (file : Path) : Entry :=
  { file, isNew := true }

def isResolved (e : Entry) : Bool :=
  !e.file.isEmpty

def textEndsWith (s t : String) : Bool :=
  t.toList.isSuffixOf s.toList

def textStartsWith (s t : String) : Bool :=
  t.toList.isPrefixOf s.toList

/-- Includes of generated meta-object code belong to the build and are left
alone. -/
def isMoc (e : Entry) : Bool :=
  textEndsWith e.spelling ".moc" ||
    (textStartsWith e.spelling "moc_" && textEndsWith e.spelling ".cpp")

def directive (e : Entry) : String :=
  if e.isLocal then "#include \"" ++ e.spelling ++ "\""
  else "#include <" ++ e.spelling ++ ">"

/-- How an entry is named in a message. -/
def display (e : Entry) : String :=
  if e.isResolved then e.file.text else e.spelling ++ " (unresolved)"

/-- What an entry is sorted by: its file, or its spelling if that is not
known. -/
def sortKey (e : Entry) : String :=
  if e.isResolved then e.file.text else e.spelling

/-- Entries are the same if they include the same file. -/
def same (a b : Entry) : Bool :=
  a.file == b.file

/-- The lines of a list of entries behind one of the group `last`: a blank
line wherever the group changes. -/
def renderAfter : Option Nat → List Entry → String
  | _, [] => ""
  | last, e :: es =>
      (if last.any (· != e.group) then "\n" else "")
        ++ e.directive ++ "\n" ++ renderAfter (some e.group) es

/-- The include block of a list of entries. -/
def renderBlock (es : List Entry) : String :=
  renderAfter none es

/-! ## As JSON -/

/-- An entry as an object of all its fields. -/
def toJson (e : Entry) : Json :=
  .record [
    ("resolved_file", .ofString e.file.text),
    ("spelling", .ofString e.spelling),
    ("is_local", .bool e.isLocal),
    ("source_line", (e.line.map Json.natural).getD .null),
    ("group_index", .natural e.group),
    ("is_new", .bool e.isNew)]

def ofJson : Json.Decoder Entry := fun v => do
  let [file, spelling, isLocal, line, group, isNew] ← v.fields?
    ["resolved_file", "spelling", "is_local", "source_line", "group_index",
      "is_new"] | none
  return {
    file := ← Json.orDefault Path.empty Json.asPath file
    spelling := ← Json.orDefault "" Json.asString spelling
    isLocal := ← Json.orDefault false Json.asBool isLocal
    line := ← Json.orDefault none (Json.asOption Json.asWord) line
    group := ← Json.orDefault 0 Json.asWord group
    isNew := ← Json.orDefault false Json.asBool isNew }

end Entry

end IncludeBlock
