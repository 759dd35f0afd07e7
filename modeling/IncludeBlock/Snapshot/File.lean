import IncludeBlock.Disk.Edit
import IncludeBlock.Failure
import IncludeBlock.Json.Printer
import IncludeBlock.Json.Reader
import IncludeBlock.Snapshot.Basic
import IncludeBlock.Snapshot.Binary
import IncludeBlock.Snapshot.Readable

/-!
# Snapshot files

A file whose name has the extension `json` holds the readable form of a graph
and any other file the binary form. The version is not kept: a snapshot that is
read gets a new one.
-/

namespace IncludeBlock

namespace Disk

/-- The bytes behind a path that can be opened: those of a file, or none for a
directory, which can be opened but not read. -/
def open? (d : Disk) (p : Path) : Except Failure (Option (List UInt8)) :=
  match d.locate p with
  | some (_, .file bytes) => .ok (some bytes)
  | some (_, .directory) => .ok none
  | _ => .error .io

def readJson (d : Disk) (p : Path) : Except Failure Json := do
  match (← d.open? p).bind Json.parse? with
  | some v => return v
  | none => throw .json

/-- Reads a file of JSON as something. -/
def readAs {α : Type} (d : Disk) (decode : Json.Decoder α) (p : Path) :
    Except Failure α := do
  match decode (← d.readJson p) with
  | some a => return a
  | none => throw .json

/-- Writes a file with the directories it lies in. -/
def saving (d : Disk) (p : Path) (bytes : List UInt8) :
    Disk × Except Failure Unit :=
  match d.save p bytes with
  | (d', true) => (d', .ok ())
  | (d', false) => (d', .error .io)

end Disk

namespace Snapshot

/-- Whether a file of this name holds the readable form. -/
def isReadable (p : Path) : Bool :=
  p.extension?.any (Text.sameLetters · "json")

/-- The bytes of a graph in a file of the given name. -/
def bytesFor (p : Path) (a : Arena) : List UInt8 :=
  if isReadable p then Text.encode a.layout.toJson.compact
  else Binary.layout a.layout

def readArena (d : Disk) (p : Path) : Except Failure Arena :=
  if isReadable p then
    d.readAs (fun v => (Layout.ofJson v).bind Layout.toArena?) p
  else do
    match (← d.open? p).bind Binary.ofBytes? |>.bind Layout.toArena? with
    | some a => return a
    | none => throw .binary

def load (d : Disk) (p : Path) (v : Versions) :
    Except Failure (Snapshot × Versions) := do
  return stamped (← readArena d p) v

/-- Writes a snapshot, with the directories it lies in. -/
def save (d : Disk) (p : Path) (s : Snapshot) : Disk × Except Failure Unit :=
  d.saving p (bytesFor p s.arena)

end Snapshot

end IncludeBlock
