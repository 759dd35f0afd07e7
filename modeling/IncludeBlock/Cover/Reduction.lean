import IncludeBlock.Cover.Policy
import IncludeBlock.Cover.Selection

/-!
# Reducing a coverage map

A reduction chooses the entries a block should have and leaves the map with
just these. It tells which entries are to be dropped, which files need a new
entry, and which required files nothing can reach.
-/

namespace IncludeBlock

/-- The outcome of a reduction. -/
structure Reduction where
  drop : FileSet
  add : FileSet
  uncoverable : FileSet
deriving DecidableEq, Inhabited

namespace Cover

/-- The required files that nothing can reach: no entry does, and they cannot
have one. -/
def uncoverable (c : Catalog) (m : CoverageMap) : FileSet :=
  m.uncovered.filter (!c.isResolvable ·)

def accepted (c : Catalog) : Policy → CoverageMap → FileSet
  | .minimalEntries, m => minimalEntries c m
  | .minimalDepth, m => minimalDepth c m

/-- The map without the files that nothing can reach, which must not hold up
the choice. -/
def settle (c : Catalog) (m : CoverageMap) : CoverageMap :=
  (uncoverable c m).toList.foldl CoverageMap.forget m

/-- The entries of a map that are not wanted. -/
def unwanted (m : CoverageMap) (wanted : FileSet) : FileSet :=
  (FileSet.ofList m.entries).diff wanted

/-- The wanted files that have no entry. -/
def missing (m : CoverageMap) (wanted : FileSet) : FileSet :=
  wanted.filter (!m.hasEntry ·)

/-- The map with exactly the wanted entries, and the required files that have
lost their last coverer. -/
def exchange (c : Catalog) (m : CoverageMap) (wanted : FileSet) :
    CoverageMap × List Path :=
  -- New entries come first, so no file is without a coverer in between.
  let m' := (missing m wanted).toList.foldl (CoverageMap.addEntry c) m
  m'.removeEntries (unwanted m wanted).toList

/-- Gives a required file that lost its last coverer an entry of its own. -/
def promote (c : Catalog) (m : CoverageMap) (r : Reduction) (file : Path) :
    CoverageMap × Reduction :=
  (m.addEntry c file,
    if file ∈ r.drop then { r with drop := r.drop.erase file }
    else { r with add := r.add.insert file })

/-- Reduces a map to the entries that a policy wants. -/
def reduce (c : Catalog) (policy : Policy) (m : CoverageMap) :
    CoverageMap × Reduction :=
  let n := settle c m
  let wanted := accepted c policy n
  let (k, lost) := exchange c n wanted
  lost.foldl (fun (k, r) file => promote c k r file)
    (k, ⟨unwanted n wanted, missing n wanted, uncoverable c m⟩)

end Cover

end IncludeBlock
