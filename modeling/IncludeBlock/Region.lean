import IncludeBlock.Disk.Basic
import IncludeBlock.Source

/-!
# Expanding a region

A file is expanded together with all that it pulls in and that has not been
expanded before; these files are its region. An include that leaves the region
leads to a file whose expansion is remembered, which is taken as it stands.

Files of a region that pull in each other form a component, and all of them
pull in the same. The components come sinks first: what a component includes
lies in itself, in an earlier component or outside of the region, so that its
reach is put together from what is finished.
-/

namespace IncludeBlock

/-- The greatest weight; sums stop there. -/
def maxWeight : Nat := Nat.pow 2 64 - 1

/-- A file expanded into all it pulls in. -/
structure Expansion where
  /-- The size of the file. -/
  own : Nat
  /-- The size of the file and of everything it pulls in. -/
  weight : Nat
  /-- What the file pulls in, never the file itself. -/
  closure : FileSet
deriving DecidableEq

instance : Inhabited Expansion := ⟨⟨0, 0, ∅⟩⟩

namespace Index

/-- The size of a file: what the source says, or else the size on disk. -/
def sizeOf (s : Source) (d : Disk) (f : Path) : Nat :=
  match (if s.knows f then s.size? f else none) with
  | some size => size
  | none => d.byteSize f

/-- The sum of weights, no more than the greatest weight. -/
def total (own : Nat) (weights : List Nat) : Nat :=
  weights.foldl (fun sum w => min maxWeight (sum + w)) own

end Index

/-! ## Finding a region -/

/-- A file that is expanded. -/
structure RegionFile where
  /-- The size of the file. -/
  own : Nat
  /-- The includes of files that were not expanded before. -/
  inner : List Path
  /-- The includes of files that were, with their expansions. -/
  outer : List (Path × Expansion)

/-- Files that are expanded together. -/
structure Region where
  files : FileMap RegionFile

namespace Region

/-- A file with its includes parted into new and remembered ones. -/
def fileOf (s : Source) (d : Disk) (memo : FileMap Expansion) (f : Path) :
    RegionFile where
  own := Index.sizeOf s d f
  inner := (s.next f).filter (!memo.contains ·)
  outer := (s.next f).filterMap fun g => (memo.get? g).map (g, ·)

/-- The files of a list that were not found before, each of them once. -/
def fresh (found : FileSet) : List Path → List Path
  | [] => []
  | f :: fs =>
      if f ∈ found then fresh found fs
      else f :: fresh (found.insert f) fs

/-- Adds the files of a queue to a region, with all that they pull in and that
is not remembered, in at most `fuel` steps. Files are `found` when they come
into the queue; each step settles the first one there. -/
def search (s : Source) (d : Disk) (memo : FileMap Expansion) :
    (fuel : Nat) → (queue : List Path) → (found : FileSet) → Region → Region
  | 0, _, _, r => r
  | _, [], _, r => r
  | fuel + 1, f :: queue, found, r =>
      let a := fileOf s d memo f
      let new := fresh found a.inner
      search s d memo fuel (queue ++ new) (found.insertMany new)
        ⟨r.files.insert f a⟩

/-- The region of a file. Apart from the file itself, a file comes into the
queue by one of the includes in the rows, and each of these is seen once. -/
def of (s : Source) (d : Disk) (memo : FileMap Expansion) (root : Path) :
    Region :=
  search s d memo (1 + s.includeCount) [root] (.ofList [root]) ⟨∅⟩

def inner (r : Region) (f : Path) : List Path :=
  ((r.files.get? f).map (·.inner)).getD []

def outer (r : Region) (f : Path) : List (Path × Expansion) :=
  ((r.files.get? f).map (·.outer)).getD []

/-! ## Components -/

/-- The includes that stay in a region, as a source of their own. -/
def graph (r : Region) : Source :=
  ⟨r.files.mapValues fun _ a => ⟨true, none, a.inner⟩, 0⟩

/-- Divides files into components, in at most `fuel` steps: what the first file
pulls in without being pulled in by it comes before its component, and what it
does not pull in comes behind. -/
def divide (r : Region) : (fuel : Nat) → List Path → List (List Path)
  | 0, _ => []
  | _, [] => []
  | fuel + 1, f :: fs =>
      let ahead := r.graph.closure f
      let isBack := fun g => decide (f ∈ r.graph.closure g)
      let below := fs.filter fun g => g ∈ ahead && !isBack g
      let back := fs.filter fun g => g ∈ ahead && isBack g
      let rest := fs.filter fun g => !decide (g ∈ ahead)
      r.divide fuel below ++ (f :: back) :: r.divide fuel rest

/-- The components of a region, sinks first. -/
def components (r : Region) : List (List Path) :=
  r.divide r.files.size r.files.keys

/-! ## What components reach -/

/-- A finished component, with all that each of its files pulls in. -/
structure Component where
  members : List Path
  reach : FileSet

/-- What a file of a finished component pulls in. -/
def reachOf (done : List Component) (f : Path) : FileSet :=
  ((done.find? fun c => decide (f ∈ c.members)).map (·.reach)).getD ∅

/-- Whether the files of a component pull in themselves. -/
def isCycle (r : Region) (members : List Path) : Bool :=
  decide (1 < members.length)
    || members.any fun f => decide (f ∈ r.inner f)

/-- What the files of a component pull in: themselves if they lie on a cycle,
and what they include outside of it with what that pulls in, which is finished
or remembered. -/
def reach (r : Region) (done : List Component) (members : List Path) :
    FileSet :=
  let leaving := fun f => (r.inner f).filter fun g => !decide (g ∈ members)
  .ofList <|
    (if r.isCycle members then members else [])
      ++ members.flatMap fun f =>
        (leaving f).flatMap (fun g => g :: (reachOf done g).toList)
          ++ (r.outer f).flatMap fun a => a.1 :: a.2.closure.toList

/-- Finishes components one by one. -/
def condense (r : Region) (done : List Component)
    (components : List (List Path)) : List Component :=
  components.foldl
    (fun done members => done ++ [⟨members, r.reach done members⟩]) done

/-! ## Expansions -/

/-- The size of a file that is expanded now or is remembered. -/
def ownOf (r : Region) (memo : FileMap Expansion) (f : Path) : Nat :=
  match r.files.get? f with
  | some a => a.own
  | none => ((memo.get? f).map (·.own)).getD 0

def expansionOf (r : Region) (memo : FileMap Expansion)
    (done : List Component) (f : Path) : Expansion :=
  let closure := (reachOf done f).erase f
  let own := r.ownOf memo f
  { own, closure
    weight := Index.total own (closure.toList.map (r.ownOf memo)) }

/-- The expansions of all files of a region, by its components. -/
def expansions (r : Region) (memo : FileMap Expansion)
    (components : List (List Path)) : FileMap Expansion :=
  let done := r.condense [] components
  r.files.mapValues fun f _ => r.expansionOf memo done f

/-- What is remembered once a file is expanded; nothing that was remembered
before is changed. -/
def remember (s : Source) (d : Disk) (memo : FileMap Expansion) (f : Path) :
    FileMap Expansion :=
  if memo.contains f then memo
  else
    let r := of s d memo f
    memo.fill (r.expansions memo r.components)

end Region

end IncludeBlock
