import IncludeBlock.FileMap
import IncludeBlock.FileSet

/-!
# What is known of files

A source answers three questions about a file: whether it was read, how big it
is and what it includes. It answers for finitely many files; of every other
file it knows nothing. The files that an include pulls in are those reachable
over the includes of files that were read.
-/

namespace IncludeBlock

/-- What is known of one file. -/
structure SourceRow where
  known : Bool
  size? : Option Nat
  includes : List Path
deriving DecidableEq, Repr, Inhabited

/-- The answers about all files, with a version that changes when they do;
version zero tells nothing. -/
structure Source where
  rows : FileMap SourceRow
  version : Nat

namespace Source

def row (s : Source) (f : Path) : SourceRow :=
  (s.rows.get? f).getD ⟨false, none, []⟩

def knows (s : Source) (f : Path) : Bool := (s.row f).known

/-- The size of a file, if the source has it. -/
def size? (s : Source) (f : Path) : Option Nat := (s.row f).size?

def includes (s : Source) (f : Path) : List Path := (s.row f).includes

/-- The edges that lead on from a file: a file that was not read is a leaf,
whatever it is said to include. -/
def next (s : Source) (f : Path) : List Path :=
  if s.knows f then s.includes f else []

/-! ## Reachable files -/

/-- A path of one or more includes leads from one file to another. -/
inductive Reaches (s : Source) : Path → Path → Prop where
  | step {f g : Path} (h : g ∈ s.next f) : Reaches s f g
  | trans {f g k : Path} (h : g ∈ s.next f) (t : Reaches s g k) : Reaches s f k

/-- One path of includes may follow another. -/
theorem Reaches.append {s : Source} {f g k : Path} (h : s.Reaches f g)
    (t : s.Reaches g k) : s.Reaches f k := by
  induction h with
  | step h => exact .trans h t
  | trans h _ ih => exact .trans h (ih t)

/-- Adds to `seen` the files of `todo` and all that they reach without passing
through `seen`, in at most `fuel` steps; each step settles one file. -/
def gather (s : Source) : (fuel : Nat) → List Path → FileSet → FileSet
  | 0, _, seen => seen
  | _, [], seen => seen
  | fuel + 1, f :: todo, seen =>
      -- What a settled file leads to is settled or still in `todo`.
      if f ∈ seen then s.gather fuel todo seen
      else s.gather fuel (s.next f ++ todo) (seen.insert f)

/-- The number of includes in all rows. -/
def includeCount (s : Source) : Nat :=
  (s.rows.toList.flatMap fun a => a.2.includes).length

/-- The files that a file pulls in, without itself. Every include is put on
the list of things to do at most once, and those of `f` once more. -/
def closure (s : Source) (f : Path) : FileSet :=
  (s.gather ((s.next f).length + s.includeCount) (s.next f) ∅).erase f

end Source

end IncludeBlock
