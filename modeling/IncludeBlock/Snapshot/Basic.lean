import IncludeBlock.Snapshot.Arena
import IncludeBlock.Source

/-!
# Snapshots

A snapshot is an include graph with a version. Versions are drawn from one
supply, each number once, so that two snapshots of the same version other than
zero have the same graph up to stubs that were added without a new version. The
empty snapshot has version zero.
-/

namespace IncludeBlock

/-- The supply of versions: the next one to be handed out. -/
structure Versions where
  next : Nat := 1
deriving DecidableEq, Repr, Inhabited

/-- A version that was not handed out before. -/
def Versions.draw (v : Versions) : Nat × Versions :=
  (v.next, ⟨v.next + 1⟩)

/-- An include graph with its version. -/
structure Snapshot where
  arena : Arena
  version : Nat
deriving Inhabited

namespace Snapshot

def empty : Snapshot := ⟨.empty, 0⟩

/-- A graph with a new version. -/
def stamped (a : Arena) (v : Versions) : Snapshot × Versions :=
  (⟨a, v.draw.1⟩, v.draw.2)

def insertFile (s : Snapshot) (f : Path) (size : Nat) (v : Versions) :
    Snapshot × Versions :=
  stamped (s.arena.insertFile f size).2 v

def addInclude (s : Snapshot) (source target : Path) (v : Versions) :
    Snapshot × Versions :=
  stamped (s.arena.addInclude source target) v

/-- The slot of a path; a new stub leaves the version as it is, for in a linked
graph no answer about a file changes. -/
def getOrAdd (s : Snapshot) (f : Path) : Nat × Snapshot :=
  let (i, a) := s.arena.getOrAdd f
  (i, { s with arena := a })

/-- The snapshot of a table of files with their sizes and includes. -/
def ofRows (rows : List (Path × Nat × List Path)) (v : Versions) :
    Snapshot × Versions :=
  rows.foldl (fun (s, v) r =>
    r.2.2.foldl (fun (s, v) target => s.addInclude r.1 target v)
      (s.insertFile r.1 r.2.1 v)) (empty, v)

/-- What a snapshot answers about files. -/
def toSource (s : Snapshot) : Source where
  version := s.version
  rows := s.arena.slots.mapValues fun f _ =>
    ⟨s.arena.knows f, s.arena.byteSize? f, (s.arena.includes f).toList⟩

end Snapshot

end IncludeBlock
