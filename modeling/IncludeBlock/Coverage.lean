import IncludeBlock.Entry
import IncludeBlock.Index

/-!
# Coverage

A coverage map relates the entries of a block to the required files they reach.
Both directions of the relation are kept, and every change updates both: a
required file is in the coverage of an entry exactly when the entry is among
its coverers. Entries stand for their files.
-/

namespace IncludeBlock

/-- Which entries reach which required files. -/
structure CoverageMap where
  coverageOf : FileMap FileSet
  coveredBy : FileMap FileSet
  required : FileSet

namespace CoverageMap

/-- The required files that a file reaches, itself included. -/
def coverageFor (c : Catalog) (file : Path) (required : FileSet) : FileSet :=
  required.filter (c.covers file)

@[simp] theorem mem_coverageFor {c : Catalog} {file r : Path}
    {required : FileSet} :
    r ∈ coverageFor c file required ↔ r ∈ required ∧ c.covers file r = true :=
  FileSet.mem_filter

/-- Adds an entry to the coverers of a file. -/
def addCoverer (file : Path) (m : FileMap FileSet) (r : Path) :
    FileMap FileSet :=
  m.insert r (((m.get? r).getD ∅).insert file)

/-- Adds an entry, unless there is one for the file. -/
def addEntry (c : Catalog) (m : CoverageMap) (file : Path) : CoverageMap :=
  if m.coverageOf.contains file then m
  else
    let coverage := coverageFor c file m.required
    { m with
      coverageOf := m.coverageOf.insert file coverage
      coveredBy := coverage.toList.foldl (addCoverer file) m.coveredBy }

/-- The map of the entries that include `candidates`; empty paths are no
files. -/
def build (c : Catalog) (candidates required : List Path) : CoverageMap :=
  (candidates.filter (!·.isEmpty)).foldl (addEntry c)
    ⟨∅, ∅, .ofList (required.filter (!·.isEmpty))⟩

/-! ## Questions -/

/-- The entries, by their files. -/
def entries (m : CoverageMap) : List Path := m.coverageOf.keys

def hasEntry (m : CoverageMap) (file : Path) : Bool :=
  m.coverageOf.contains file

/-- The required files that no entry reaches. -/
def uncovered (m : CoverageMap) : FileSet :=
  m.required.filter fun r => !m.coveredBy.contains r

/-- The entries that are the only ones to reach some required file. -/
def exclusive (m : CoverageMap) : FileSet :=
  .ofList <| m.coveredBy.toList.flatMap fun a =>
    if a.2.size = 1 then a.2.toList else []

def isSound (m : CoverageMap) : Bool :=
  m.required.toList.all m.coveredBy.contains

/-! ## Removing -/

/-- Takes an entry away from the coverers of a file, which stays in the map
even if it has none left. -/
def dropCoverer (file : Path) (m : FileMap FileSet) (r : Path) :
    FileMap FileSet :=
  match m.get? r with
  | some coverers => m.insert r (coverers.erase file)
  | none => m

/-- Takes one entry away; gives the required files it reached. -/
def detach (m : CoverageMap) (file : Path) : CoverageMap × List Path :=
  match m.coverageOf.get? file with
  | none => (m, [])
  | some coverage =>
      ({ m with
          coverageOf := m.coverageOf.erase file
          coveredBy := coverage.toList.foldl (dropCoverer file) m.coveredBy },
        coverage.toList)

/-- Takes entries away one after the other; gives all the required files they
reached. -/
def detachAll (m : CoverageMap) (files : List Path) : CoverageMap × List Path :=
  files.foldl (fun (m, touched) file =>
    let (m, reached) := m.detach file
    (m, touched ++ reached)) (m, [])

/-- Removes entries, and then the required files that are left without any
coverer from the covered ones. Gives those files in ascending order. -/
def removeEntries (m : CoverageMap) (files : List Path) :
    CoverageMap × List Path :=
  -- No file counts as lost before all of the entries are away.
  let (m, touched) := m.detachAll (FileSet.ofList (files.filter m.hasEntry)).toList
  let lost := (FileSet.ofList touched).toList.filter fun r =>
    ((m.coveredBy.get? r).all FileSet.isEmpty)
  ({ m with coveredBy := lost.foldl FileMap.erase m.coveredBy }, lost)

def removeEntry (m : CoverageMap) (file : Path) : CoverageMap × List Path :=
  m.removeEntries [file]

/-- Removes a required file from the coverage of an entry. -/
def dropCovered (r : Path) (m : FileMap FileSet) (file : Path) :
    FileMap FileSet :=
  match m.get? file with
  | some coverage => m.insert file (coverage.erase r)
  | none => m

/-- Gives up a required file. -/
def forget (m : CoverageMap) (r : Path) : CoverageMap where
  required := m.required.erase r
  coveredBy := m.coveredBy.erase r
  coverageOf :=
    (((m.coveredBy.get? r).getD ∅).toList).foldl (dropCovered r) m.coverageOf

end CoverageMap

end IncludeBlock
