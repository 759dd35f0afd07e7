import IncludeBlock.Proofs.Expansion.Region

/-!
# Expanding files

An index answers what a file pulls in and what that weighs, and remembers its
answers. A file is expanded together with everything it pulls in, so whatever
an expanded file pulls in is expanded as well. The sizes of files that the
source does not have are read from the disk when they are expanded, and kept.
-/

namespace IncludeBlock

/-- A source with the expansions made so far, which are exact and closed. -/
structure Index where
  source : Source
  memo : FileMap Expansion
  remembered : Remembered source memo

namespace Index

/-- An index that has expanded nothing yet. -/
def new (s : Source) : Index := ⟨s, ∅, remembered_empty s⟩

/-- The version of the source when the index was made. -/
def version (x : Index) : Nat := x.source.version

/-- Expands a file, and with it all it pulls in. -/
def expand (x : Index) (d : Disk) (f : Path) : Expansion × Index :=
  let memo := Region.remember x.source d x.memo f
  ((memo.get? f).getD default,
    ⟨x.source, memo, x.remembered.remember d f⟩)

def expandAll (x : Index) (d : Disk) (fs : List Path) : Index :=
  fs.foldl (fun x f => (x.expand d f).2) x

/-- The number of files expanded so far. -/
def expandedCount (x : Index) : Nat := x.memo.size

/-- Whether a file can have an entry of its own: the source knows it or it is
on the disk. -/
def isResolvable (x : Index) (d : Disk) (f : Path) : Bool :=
  !f.isEmpty && (x.source.knows f || d.isFile f)

end Index

/-! ## Keeping an index -/

/-- The index that was used last. -/
structure IndexCache where
  current : Option Index

namespace IndexCache

def empty : IndexCache := ⟨none⟩

/-- The kept index if it still answers for a source: one of the same version,
unless that is zero. -/
def reusable? (c : IndexCache) (s : Source) : Option Index :=
  c.current.filter fun x => s.version != 0 && x.version == s.version

/-- The index for a source, kept or new, and the cache that keeps it. -/
def indexFor (c : IndexCache) (s : Source) : Index × IndexCache :=
  let x := (c.reusable? s).getD (Index.new s)
  (x, ⟨some x⟩)

end IndexCache

/-! ## What a reduction asks -/

/-- What files pull in, what that weighs, and which files may have an entry of
their own. -/
structure Catalog where
  closure : Path → FileSet
  weight : Path → Nat
  isResolvable : Path → Bool

/-- Whether an include of one file provides another: it is that file itself or
one that the include pulls in. -/
def Catalog.covers (c : Catalog) (f r : Path) : Bool :=
  r = f || r ∈ c.closure f

/-- The answers of an index on a disk. -/
def Index.catalog (x : Index) (d : Disk) : Catalog where
  closure f := (x.expand d f).1.closure
  weight f := (x.expand d f).1.weight
  isResolvable f := x.isResolvable d f

end IncludeBlock
