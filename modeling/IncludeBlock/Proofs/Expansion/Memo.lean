import IncludeBlock.Index

/-!
# Remembered expansions

An index may expand any files at any time: it remembers what it would answer
anyway, so its answers stay the same (`catalog_expandAll`). What it would
answer is said without regard to other files: the remembered expansion of a
file, or else what the source lets the file reach, weighed by itself
(`expand_fst`).
-/

namespace IncludeBlock

namespace Index

variable (x : Index) (d : Disk) (fs : List Path) (f g : Path)

/-- The size of a file, remembered or new. -/
def ownWeight : Nat := Region.ownAlone x.source d x.memo f

/-- The expansion of a file by itself, remembered or new. -/
def expansion : Expansion := Region.alone x.source d x.memo f

theorem own_expansion : (x.expansion d f).own = x.ownWeight d f := by
  rw [expansion, ownWeight, Region.alone, Region.ownAlone]
  cases x.memo.get? f <;> rfl

/-- **An index expands a file together with all that it pulls in.** What was
remembered stays as it was. -/
theorem get?_memo_expand : (x.expand d f).2.memo.get? g
    = (x.memo.get? g).or
        (if g = f ∨ g ∈ x.source.closure f then some (x.expansion d g)
          else none) :=
  Region.get?_remember x.remembered

/-- **Expanding a region answers for each file by itself.** -/
theorem expand_fst : (x.expand d f).1 = x.expansion d f := by
  show ((x.expand d f).2.memo.get? f).getD default = _
  rw [get?_memo_expand, if_pos (.inl rfl)]
  cases h : x.memo.get? f with
  | some e => simp [expansion, Region.alone, h]
  | none => rfl

theorem ownWeight_expand :
    (x.expand d f).2.ownWeight d g = x.ownWeight d g := by
  have hown := x.own_expansion d g
  rw [ownWeight, Region.ownAlone, get?_memo_expand]
  cases h : x.memo.get? g with
  | some e => simp [ownWeight, Region.ownAlone, h]
  | none =>
      by_cases hg : g = f ∨ g ∈ x.source.closure f
      · simp [hg, hown]
      · simp [hg, ownWeight, Region.ownAlone, h, expand]

/-- **Expanding changes no answer**: the expansion was already remembered, is
remembered now, or is still made of the same sizes. -/
theorem expansion_expand :
    (x.expand d f).2.expansion d g = x.expansion d g := by
  have hown : Region.ownAlone x.source d (x.expand d f).2.memo
      = Region.ownAlone x.source d x.memo :=
    funext fun k => x.ownWeight_expand d f k
  show Region.alone x.source d (x.expand d f).2.memo g = _
  rw [Region.alone, get?_memo_expand, hown]
  cases h : x.memo.get? g with
  | some e => simp [expansion, Region.alone, h]
  | none =>
      by_cases hg : g = f ∨ g ∈ x.source.closure f
      · simp [hg]
      · simp [hg, expansion, Region.alone, h]

theorem source_expand : (x.expand d f).2.source = x.source := rfl

theorem source_expandAll : (x.expandAll d fs).source = x.source := by
  rw [expandAll]
  induction fs generalizing x with
  | nil => rfl
  | cons g fs ih => rw [List.foldl_cons, ih, source_expand]

theorem expansion_expandAll :
    (x.expandAll d fs).expansion d f = x.expansion d f := by
  rw [expandAll]
  induction fs generalizing x with
  | nil => rfl
  | cons g fs ih => rw [List.foldl_cons, ih, expansion_expand]

theorem isResolvable_expandAll :
    (x.expandAll d fs).isResolvable d f = x.isResolvable d f := by
  rw [isResolvable, source_expandAll, isResolvable]

/-- **Expanding files changes no answer of an index.** -/
theorem catalog_expandAll : (x.expandAll d fs).catalog d = x.catalog d := by
  simp only [catalog, expand_fst, expansion_expandAll, isResolvable_expandAll]

/-- Remembered or new, an index says of a file what its source says. -/
theorem closure_expansion :
    (x.expansion d f).closure = x.source.closure f :=
  FileSet.ext fun _ =>
    (Region.mem_closure_alone x.remembered).trans Source.mem_closure_iff.symm

theorem closure_expand (s : Source) :
    (((Index.new s).expandAll d fs).expand d f).1.closure = s.closure f := by
  rw [expand_fst, closure_expansion, source_expandAll]
  rfl

theorem weight_expand :
    (x.expand d f).1.weight = (x.catalog d).weight f := rfl

theorem covers_iff {x : Index} {d : Disk} {e f : Path} :
    (x.catalog d).covers e f = true
      ↔ f = e ∨ f ∈ (x.expand d e).1.closure := by
  rw [Catalog.covers, Bool.or_eq_true, decide_eq_true_iff, decide_eq_true_iff]
  rfl

end Index

end IncludeBlock
