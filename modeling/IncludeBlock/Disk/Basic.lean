import IncludeBlock.Path
import IncludeBlock.Sorting
import IncludeBlock.Text.Utf8

/-!
# Disks

A disk is a value: which node stands at which place, and the directory that
relative paths start from. A path is looked up name by name from the root or
from that directory, so a node whose directory is missing cannot be reached.
Symbolic links are followed on the way, up to a fixed number for one path.
-/

namespace IncludeBlock

/-- A place on a disk: the names that lead to it from the root. -/
abbrev Location := List String

/-- What can stand at a place. The target of a link is kept as written. -/
inductive Node where
  | file (bytes : List UInt8)
  | directory
  | link (target : Path)
deriving DecidableEq, Inhabited

namespace Node

/-- Whether a node is a directory itself, and not a link to one. -/
def isDirectory : Node → Bool
  | directory => true
  | _ => false

/-- Whether a node is a symbolic link. -/
def isLink : Node → Bool
  | link _ => true
  | _ => false

end Node

/-- A disk: its nodes, of which the first one at a place counts, and the
directory where relative paths start. -/
structure Disk where
  nodes : List (Location × Node)
  workingDirectory : Location
  /-- What the system says a directory measures. -/
  directorySize : Location → Nat := fun _ => 4096
deriving Inhabited

/-- Where the look-up of a path ends: at a node, or at a free place in a
directory. -/
inductive Target where
  | present (place : Location) (node : Node)
  | vacant (place : Location)
deriving DecidableEq

namespace Disk

def empty : Disk := { nodes := [], workingDirectory := [] }

instance : EmptyCollection Disk := ⟨empty⟩

/-- The node at a place; the root is always a directory. -/
def node? (d : Disk) (place : Location) : Option Node :=
  if place = [] then some .directory
  else (d.nodes.find? (fun a => a.1 == place)).map (·.2)

/-- The path of a place, from the root. -/
def pathOf (place : Location) : Path :=
  if place = [] then ⟨"/"⟩ else ⟨String.join (place.map ("/" ++ ·))⟩

/-! ## Looking up a path -/

/-- The names of a path, with an empty one wherever separators meet. -/
def namesOf (p : Path) : List String :=
  (Path.namePieces p.text.toList).map String.ofList

/-- Whether the system takes a path at all: it is neither empty nor too long
and has no zero character. -/
def isUsable (p : Path) : Bool :=
  !p.isEmpty && Text.byteLength p.text < 4096 && !p.text.toList.contains '\x00'

/-- Follows names from the directory at a place. `onLink` goes on from a link,
whose own place in the names is taken by its target; the last name is only
followed through a link if `through` is set. -/
def descend (d : Disk) (through : Bool)
    (onLink : Location → List String → Option Target) :
    Location → List String → Option Target
  | place, [] => (d.node? place).map (.present place)
  | place, n :: rest =>
      if n = "" ∨ n = "." then d.descend through onLink place rest
      else if n = ".." then d.descend through onLink place.dropLast rest
      else
        match d.node? (place ++ [n]) with
        | none => if rest = [] then some (.vacant (place ++ [n])) else none
        | some .directory => d.descend through onLink (place ++ [n]) rest
        | some (.file bytes) =>
            if rest = [] then some (.present (place ++ [n]) (.file bytes))
            else none
        | some (.link target) =>
            -- At the end of the names a link may itself be what is meant.
            if rest = [] ∧ through = false then
              some (.present (place ++ [n]) (.link target))
            else
              onLink (if target.isAbsolute then [] else place)
                (namesOf target ++ rest)

/-- Follows names through at most `links` links. -/
def followWithin (d : Disk) (through : Bool) :
    (links : Nat) → Location → List String → Option Target
  | 0 => d.descend through fun _ _ => none
  | links + 1 => d.descend through (d.followWithin through links)

/-- The number of links that one look-up may go through. -/
def maxLinks : Nat := 40

/-- Where the look-up of a path ends, if it gets there. -/
def lookup (d : Disk) (through : Bool) (p : Path) : Option Target :=
  if isUsable p then
    d.followWithin through maxLinks
      (if p.isAbsolute then [] else d.workingDirectory) (namesOf p)
  else none

/-! ## Questions about a path -/

/-- The node that a path leads to, with its place. -/
def locate (d : Disk) (p : Path) : Option (Location × Node) :=
  match d.lookup true p with
  | some (.present place node) => some (place, node)
  | _ => none

/-- Whether a path leads to a node. -/
def pathExists (d : Disk) (p : Path) : Bool :=
  (d.locate p).isSome

/-- The bytes of the file that a path leads to. -/
def read? (d : Disk) (p : Path) : Option (List UInt8) :=
  match d.locate p with
  | some (_, .file bytes) => some bytes
  | _ => none

/-- Whether a path leads to a file. -/
def isFile (d : Disk) (p : Path) : Bool :=
  (d.read? p).isSome

/-- Whether a path leads to a directory. -/
def isDirectory (d : Disk) (p : Path) : Bool :=
  match d.locate p with
  | some (_, .directory) => true
  | _ => false

/-- What the system says that a path measures: the bytes of a file, or the size
of a directory. A path that leads nowhere counts as no bytes. -/
def byteSize (d : Disk) (p : Path) : Nat :=
  match d.locate p with
  | some (_, .file bytes) => bytes.length
  | some (place, .directory) => d.directorySize place
  | _ => 0

/-- The path from the root, free of links, of what a path leads to. -/
def canonical? (d : Disk) (p : Path) : Option Path :=
  (d.locate p).map fun a => pathOf a.1

/-- The canonical path of what exists; any other path as it is. -/
def canonical (d : Disk) (p : Path) : Path :=
  (d.canonical? p).getD p

/-! ## Directories -/

/-- The name of a place that lies directly in the directory at `place`. -/
def nameIn (place : Location) (other : Location) : Option String :=
  match other.getLast? with
  | some n => if other.dropLast = place then some n else none
  | none => none

/-- The entries of the directory at a place, with ascending names. -/
def entries (d : Disk) (place : Location) : List (String × Node) :=
  let names := (d.nodes.filterMap fun a => nameIn place a.1).eraseDups
  (Sorting.sortBy (fun m n => !decide (n < m)) names).filterMap fun n =>
    (d.node? (place ++ [n])).map fun node => (n, node)

/-- No node of the disk is a symbolic link. -/
def LinkFree (d : Disk) : Prop :=
  ∀ a ∈ d.nodes, a.2.isLink = false

instance (d : Disk) : Decidable d.LinkFree :=
  inferInstanceAs (Decidable (∀ a ∈ d.nodes, a.2.isLink = false))

end Disk

end IncludeBlock
