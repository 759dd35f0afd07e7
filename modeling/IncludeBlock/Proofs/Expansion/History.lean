import IncludeBlock.Proofs.Expansion.Memo
import IncludeBlock.Proofs.Expansion.Reachability

/-!
# An index in use

What an index says a file pulls in does not depend on the files it was asked
for before, nor on the disks it was asked on: only sizes are read from a disk.
So what one file covers of others is what its source says
(`covers_after_iff`).
-/

namespace IncludeBlock

namespace Index

/-- The index of a source after it was asked for files, each with the disk at
its time. -/
def after (s : Source) (earlier : List (Disk × Path)) : Index :=
  earlier.foldl (fun x a => (x.expand a.1 a.2).2) (new s)

theorem source_after (s : Source) (earlier : List (Disk × Path)) :
    (after s earlier).source = s :=
  List.foldlRecOn (motive := fun x : Index => x.source = s) earlier _ rfl
    fun x hx a _ => (x.source_expand a.1 a.2).trans hx

theorem closure_expansion_after (s : Source) (earlier : List (Disk × Path))
    (d : Disk) (f : Path) :
    ((after s earlier).expansion d f).closure = s.closure f := by
  rw [closure_expansion, source_after]

/-- **A file covers what its source lets it provide.** -/
theorem covers_after_iff {s : Source} {earlier : List (Disk × Path)} {d : Disk}
    {e f : Path} :
    ((after s earlier).catalog d).covers e f = true ↔ s.Provides e f := by
  rw [covers_iff, expand_fst, closure_expansion_after, Source.provides_iff]

end Index

end IncludeBlock
