import IncludeBlock.Disk.Basic

/-!
# Walking a directory

A walk visits a path and, if it leads to a directory, everything below it,
each directory before what it holds. Links are followed; a link back to a
directory that the walk is in is passed over, and so is one that leads
nowhere. So of the directories on the way down, each is entered through a link
at most once, and between two links the way only goes deeper into the disk:
a walk ends. A directory is entered by its path, so nothing below it is visited
if this has become too long for the system.
-/

namespace IncludeBlock

/-- A step of a walk: the path by which a node was reached, and whether it is
a file. -/
structure Visit where
  path : Path
  isFile : Bool
deriving DecidableEq, Repr

namespace Disk

/-- What the walk finds at an entry of a directory: the node that it is or
leads to. Links to a directory in `open_` are left out. -/
def resolveEntry (d : Disk) (open_ : List Location) (dir : Location)
    (path : Path) (entry : String × Node) : Option (Location × Node) :=
  if entry.2.isLink then
    match d.locate path with
    | some (place, .directory) =>
        if place ∈ open_ then none else some (place, .directory)
    | found => found
  else some (dir ++ [entry.1], entry.2)

/-- The visits below a directory, at most `depth` levels down. `arrange` puts
the entries of a directory in order and `open_` are the directories that the
walk is in. -/
def visitsBelow (d : Disk)
    (arrange : List (String × Node) → List (String × Node)) :
    (depth : Nat) → List Location → Location → Path → List Visit
  | 0, _, _, _ => []
  | depth + 1, open_, dir, path =>
      (arrange (d.entries dir)).flatMap fun entry =>
        let next := path.join entry.1
        match d.resolveEntry open_ dir next entry with
        | some (place, .directory) =>
            ⟨next, false⟩ ::
              if isUsable next then
                d.visitsBelow arrange depth (place :: open_) place next
              else []
        | some (_, .file _) => [⟨next, true⟩]
        | _ => []

/-- The visits of a walk from a path, at most `depth` levels down; nothing if
the path leads nowhere. -/
def walk (d : Disk) (arrange : List (String × Node) → List (String × Node))
    (depth : Nat) (root : Path) : Option (List Visit) :=
  match d.locate root with
  | some (place, .directory) =>
      some (⟨root, false⟩ :: d.visitsBelow arrange depth [place] place root)
  | some (_, .file _) => some [⟨root, true⟩]
  | _ => none

/-- The entries as they come: with ascending names. -/
def byName (entries : List (String × Node)) : List (String × Node) :=
  entries

/-- The entries with all that are no directories themselves in front. -/
def filesFirst (entries : List (String × Node)) : List (String × Node) :=
  entries.filter (fun e => !e.2.isDirectory) ++
    entries.filter (fun e => e.2.isDirectory)

/-- A number of levels that no walk goes beyond. A disk has one directory more
than nodes, its root; as many links can be followed on the way down, and
before, between and behind them as many names. -/
def levels (d : Disk) : Nat :=
  (d.nodes.length + 2) * (d.nodes.length + 1)

end Disk

end IncludeBlock
