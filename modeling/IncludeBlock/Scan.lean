import IncludeBlock.Directive
import IncludeBlock.Disk.Walk
import IncludeBlock.Failure
import IncludeBlock.Snapshot.Basic

/-!
# Scanning source files

A scan reads every source file below some directories, and every file that an
include of such a file leads to, and gives the graph of their includes.
-/

namespace IncludeBlock

namespace Scan

def sourceExtensions : List String :=
  ["h", "hh", "hpp", "hxx", "h++", "inl", "ipp", "tcc", "c", "cc", "cpp",
    "cxx", "c++", "m", "mm"]

/-- Whether a path looks like a source file. Files without extension do, for
standard headers have none. -/
def isSource (p : Path) : Bool :=
  match p.extension? with
  | some extension => sourceExtensions.any (Text.sameLetters extension)
  | none => true

/-- The path that a directive leads to: next to the including file if it is
quoted, and else below the first search root that has it. -/
def resolveDirective (d : Disk) (including : Path) (directive : Directive)
    (searchRoots : List Path) : Option Path :=
  let beside :=
    if directive.isQuoted then
      including.parent?.toList.map (·.join directive.spelling)
    else []
  (beside ++ searchRoots.map (·.join directive.spelling)).find? d.isFile

def directivesIn (bytes : List UInt8) : List Directive :=
  Directive.parse (Text.decodeLossy bytes)

/-- The source files that a walk visits; here an extension has to be there. -/
def sourcesBelow (d : Disk) (visits : List Visit) : List Path :=
  (visits.map (·.path)).filter fun p =>
    d.isFile p && p.extension?.isSome && isSource p

/-- The source files below directories, each of which must exist. -/
def sources (d : Disk) (roots : List Path) : Except Failure (List Path) := do
  let found ← roots.mapM fun root =>
    match d.walk Disk.byName d.levels root with
    | some visits => .ok (sourcesBelow d visits)
    | none => .error .walk
  return found.flatten

/-- Where a scan stands. -/
structure State where
  snapshot : Snapshot
  versions : Versions
  /-- The files that were taken up, by their canonical paths. -/
  seen : FileSet

/-- Records a file that was read and what its directives lead to; gives the
paths to take up next. -/
def record (d : Disk) (searchRoots : List Path) (path file : Path)
    (bytes : List UInt8) (s : State) : State × List Path :=
  let (snapshot, versions) :=
    s.snapshot.insertFile file bytes.length s.versions
  (directivesIn bytes).foldl (fun (s, later) directive =>
    match resolveDirective d path directive searchRoots with
    | none => (s, later)
    | some target =>
        -- The graph names files by canonical paths; the queue keeps the path
        -- by which a file was reached, for its own includes go by that.
        let (snapshot, versions) :=
          s.snapshot.addInclude file (d.canonical target) s.versions
        ({ s with snapshot, versions },
          if d.canonical target ∉ s.seen ∧ isSource target then
            later ++ [target]
          else later))
    ({ snapshot, versions, seen := s.seen.insert file }, [])

/-- Takes up the paths of a queue, in at most `fuel` steps. A file is taken up
once, by whatever paths it is reached. -/
def run (d : Disk) (searchRoots : List Path) :
    (fuel : Nat) → List Path → State → State
  | 0, _, s => s
  | _, [], s => s
  | fuel + 1, path :: queue, s =>
      let file := d.canonical path
      if file ∈ s.seen then run d searchRoots fuel queue s
      else
        match d.read? path with
        | none =>
            run d searchRoots fuel queue { s with seen := s.seen.insert file }
        | some bytes =>
            let (s, later) := record d searchRoots path file bytes s
            run d searchRoots fuel (queue ++ later) s

/-- The number of directives in all files of a disk; a scan puts no more paths
than that into its queue. -/
def directiveCount (d : Disk) : Nat :=
  (d.nodes.flatMap fun a =>
    match a.2 with
    | .file bytes => directivesIn bytes
    | _ => []).length

end Scan

/-- Scans the source files below `roots` and all that they include. -/
def Snapshot.scan (d : Disk) (roots searchRoots : List Path) (v : Versions) :
    Except Failure (Snapshot × Versions) := do
  let queue ← Scan.sources d roots
  let s := Scan.run d searchRoots (queue.length + Scan.directiveCount d) queue
    ⟨.empty, v, ∅⟩
  return (s.snapshot, s.versions)

end IncludeBlock
