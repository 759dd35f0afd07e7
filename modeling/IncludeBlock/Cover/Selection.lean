import IncludeBlock.Coverage
import IncludeBlock.Sorting

/-!
# Selecting few entries

The choice of the fewest entries that reach every required file, made step by
step. Whatever must be chosen is chosen first; then the file that reaches the
most required files not yet reached; and at the end every file that the others
make up for is taken out again.
-/

namespace IncludeBlock.Cover

/-- What may be chosen: files with the required files they reach. -/
abbrev Universe := FileMap FileSet

/-- The entries of a map and every required file that can have an entry of its
own, each with what it reaches. -/
def choices (c : Catalog) (m : CoverageMap) : Universe :=
  m.required.toList.foldl (fun u r =>
    if u.contains r || !c.isResolvable r then u
    else u.insert r (CoverageMap.coverageFor c r m.required)) m.coverageOf

def reach (u : Universe) (f : Path) : FileSet :=
  (u.get? f).getD ∅

/-- The files that reach a required file. -/
def coverers (u : Universe) (r : Path) : List Path :=
  u.keys.filter fun f => r ∈ reach u f

/-- The required files that can be reached at all. -/
def coverable (u : Universe) : FileSet :=
  .ofList (u.toList.flatMap fun a => a.2.toList)

/-- The number of files in `left` that a file reaches. -/
def gain (u : Universe) (left : FileSet) (f : Path) : Nat :=
  (left.filter (· ∈ reach u f)).size

/-- A file that leaves no choice: the only one that reaches some file in
`left`, the first of which decides. -/
def forced? (u : Universe) (left : FileSet) : Option Path :=
  left.toList.findSome? fun r =>
    match coverers u r with
    | [f] => some f
    | _ => none

/-- Whether `f` is better to choose than `g`: it reaches more of what is left,
or else is lighter, or else has an entry already, or else comes first. -/
def isBetter (c : Catalog) (m : CoverageMap) (u : Universe) (left : FileSet)
    (f g : Path) : Bool :=
  let i := gain u left f
  let j := gain u left g
  let v := c.weight f
  let w := c.weight g
  let old := m.hasEntry f
  let old' := m.hasEntry g
  i > j || (i == j && (v < w || (v == w &&
    ((old && !old') || (old == old' && f < g)))))

/-- The best file to choose, among those not yet selected that reach some of
what is left. -/
def best? (c : Catalog) (m : CoverageMap) (u : Universe)
    (selected left : FileSet) : Option Path :=
  Sorting.leastBy? (isBetter c m u left) <|
    u.keys.filter fun f => f ∉ selected ∧ 0 < gain u left f

/-- The next file to choose: one that must be chosen, or else the best one. -/
def next? (c : Catalog) (m : CoverageMap) (u : Universe)
    (selected left : FileSet) : Option Path :=
  (forced? u left).or (best? c m u selected left)

/-- Chooses files until nothing is left to reach, in at most `fuel` steps. -/
def choose (c : Catalog) (m : CoverageMap) (u : Universe) :
    (fuel : Nat) → (selected left : FileSet) → FileSet
  | 0, selected, _ => selected
  | fuel + 1, selected, left =>
      if left.isEmpty then selected
      else
        match next? c m u selected left with
        | none => selected
        | some f =>
            choose c m u fuel (selected.insert f) (left.diff (reach u f))

/-- What a choice of files reaches. -/
def reached (u : Universe) (selected : FileSet) : FileSet :=
  .ofList (selected.toList.flatMap fun f => (reach u f).toList)

/-- Whether the other selected files reach all that `f` reaches. -/
def isRedundant (u : Universe) (selected : FileSet) (f : Path) : Bool :=
  (reach u f).toList.all fun r =>
    selected.toList.any fun g => g != f && decide (r ∈ reach u g)

/-- Whether `f` is to be taken out before `g`: files that had to be chosen from
the start come last, and heavy files before light ones. -/
def leavesBefore (c : Catalog) (seeds : FileSet) (f g : Path) : Bool :=
  let s := decide (f ∈ seeds)
  let t := decide (g ∈ seeds)
  let v := c.weight f
  let w := c.weight g
  (!s && t) || (s == t && (v > w || (v == w && !decide (g < f))))

/-- Goes through files once and takes out each that is redundant at its
turn. -/
def sweep (u : Universe) (fs : List Path) (selected : FileSet) : FileSet :=
  fs.foldl (fun s f => if isRedundant u s f then s.erase f else s) selected

/-- The selection without what is redundant. -/
def prune (c : Catalog) (u : Universe) (seeds selected : FileSet) : FileSet :=
  sweep u (Sorting.sortBy (leavesBefore c seeds) selected.toList) selected

/-- The files that can be reached but are not reached by the entries that must
be kept. -/
def unsettled (c : Catalog) (m : CoverageMap) : FileSet :=
  (coverable (choices c m)).diff (reached (choices c m) m.exclusive)

/-- The files chosen from the start and by the loop. The only coverer of a file
is chosen from the start, whatever it weighs. Each further choice reaches
something new, so there are at most as many as files to reach. -/
def chosen (c : Catalog) (m : CoverageMap) : FileSet :=
  choose c m (choices c m) (unsettled c m).size m.exclusive (unsettled c m)

/-- The entries to keep or make so that few of them reach every required
file. -/
def minimalEntries (c : Catalog) (m : CoverageMap) : FileSet :=
  prune c (choices c m) m.exclusive (chosen c m)

/-- The lightest entry that reaches a required file. -/
def lightest? (c : Catalog) (m : CoverageMap) (r : Path) : Option Path :=
  Sorting.leastBy? (fun f g =>
    c.weight f < c.weight g || (c.weight f == c.weight g && decide (f < g)))
    ((m.coveredBy.get? r).getD ∅).toList

/-- The entry to keep or make for a required file: one for the file itself, or
the lightest that reaches it if it cannot have its own. -/
def ownOrLightest? (c : Catalog) (m : CoverageMap) (r : Path) : Option Path :=
  if m.hasEntry r || c.isResolvable r then some r else lightest? c m r

/-- The entries to keep or make so that every required file has its own; for
one that cannot have it, the lightest entry that reaches it is kept. -/
def minimalDepth (c : Catalog) (m : CoverageMap) : FileSet :=
  .ofList (m.required.toList.filterMap (ownOrLightest? c m))

end IncludeBlock.Cover
