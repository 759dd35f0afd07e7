import IncludeBlock.Disk.Walk
import IncludeBlock.Ordering
import IncludeBlock.Text.Capital

/-!
# Spellings and files

Finding the file that a spelling means, and the shortest spelling that means a
file.
-/

namespace IncludeBlock

namespace Resolution

/-- How many levels a search goes down. -/
def maxDepth : Nat := 64

/-- Whether a visit is a file whose last components are those of a path. -/
def matchesSpelling (wanted : Path) (v : Visit) : Bool :=
  v.isFile && v.path.endsWith wanted

/-- The file that a spelling means: the first one below the first root whose
path ends in all of its components. Blanks around the spelling do not count,
and a spelling that does not end in a name means nothing. -/
def resolve (d : Disk) (spelling : String) (roots : List Path) : Option Path :=
  let wanted : Path := ⟨Text.trim spelling⟩
  if wanted.fileName?.isNone then none
  else
    roots.findSome? fun root =>
      ((d.walk Disk.filesFirst maxDepth root).bind
        (·.find? (matchesSpelling wanted))).map
          fun v => d.canonical v.path

/-- The roots that a path lies below. -/
def rootsOf (p : Path) (roots : List Path) : List Path :=
  roots.filter p.isWithin

/-- The number of components of the deepest root that a path lies below. -/
def deepest (p : Path) (roots : List Path) : Nat :=
  (rootsOf p roots).foldl (fun n root => max n root.components.length) 0

def spell (cs : List Component) : String :=
  String.ofList (Text.unpieces '/' (cs.map fun c => c.text.toList))

/-- The spelling of a file below the deepest of the roots that it lies below,
or its bare name if there is none or nothing would be left. -/
def shortestSpelling (file : Path) (roots : List Path) : String :=
  match rootsOf file roots, file.components.drop (deepest file roots) with
  | _ :: _, c :: cs => spell (c :: cs)
  | _, _ => file.fileName?.getD file.text

/-- Whether a path has a component that begins as the directories of the
framework do. -/
def isFrameworkDirectory (dir : Path) : Bool :=
  dir.components.any fun c => Entry.textStartsWith c.text "Qt"

/-- The files in the directory of a path that may be its public header: those
named as its stem is, up to the case of letters, and not just so. -/
def publicCandidates (d : Disk) (file dir : Path) (stem : String) :
    List Path :=
  match d.locate dir with
  | some (place, .directory) =>
      ((d.entries place).filter fun entry =>
        !(dir.join entry.1).sameAs file && d.isFile (dir.join entry.1) &&
          entry.1 != stem && Text.sameLetters entry.1 stem).map
        fun entry => dir.join entry.1
  | _ => []

/-- The public header that forwards to a private one of the framework: the
only one in its directory with the same name in other letters. A private
header has no capitals in its name. -/
def publicHeader? (d : Disk) (file : Path) : Option Path := do
  let dir ← file.parent?
  let stem ← file.stem?
  if isFrameworkDirectory dir && !stem.toList.any Text.isCapital then
    match publicCandidates d file dir stem with
    | [header] => some (d.canonical header)
    | _ => none
  else none

/-- The public header of a file, or the file itself. -/
def publicForm (d : Disk) (file : Path) : Path :=
  (publicHeader? d file).getD file

end Resolution

end IncludeBlock
