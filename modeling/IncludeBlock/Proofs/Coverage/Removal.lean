import IncludeBlock.Proofs.Coverage.Canonical
import Mathlib.Data.List.Lattice
import Mathlib.Tactic.Tauto

/-!
# Removing entries from a coverage map

A removal reports the files that only removed entries reached. That is said by
the coverers in the map before (`mem_report_ofSets`), so it neither matters in
which order entries are named nor how often, and entries that are not there do
not matter at all. Removals one after the other take away what one removal of
all their entries does, and each lost file is reported by the removal that takes
its last coverer (`removeInTurn_ofSets`).
-/

namespace IncludeBlock

theorem FileSet.diff_ofList_append {s : FileSet} (as bs : List Path) :
    s.diff (.ofList (as ++ bs)) = (s.diff (.ofList as)).diff (.ofList bs) := by
  ext f
  simp [not_or, and_assoc]

theorem FileSet.ofList_congr {as bs : List Path} (h : ∀ f, f ∈ as ↔ f ∈ bs) :
    FileSet.ofList as = FileSet.ofList bs := by
  ext f
  rw [mem_ofList, mem_ofList, h]

namespace CoverageMap

variable {c : Catalog} {E R : FileSet} {e f r : Path} {fs : List Path}

/-! ## Reports -/

/-- **A removal reports what had coverers and loses all of them.** -/
theorem mem_report_ofSets : r ∈ ((ofSets c E R).removeEntries fs).2
    ↔ r ∈ R ∧ (∃ e ∈ E, c.covers e r = true)
      ∧ ∀ e ∈ E, c.covers e r = true → e ∈ fs := by
  rw [removeEntries_ofSets]
  show r ∈ (reachedBy c E R).diff _ ↔ _
  rw [FileSet.mem_diff, mem_reachedBy, mem_reachedBy, and_assoc]
  refine and_congr_right fun hR => and_congr_right fun _ => ?_
  simp only [hR, true_and, not_exists, not_and, FileSet.mem_diff,
    FileSet.mem_ofList]
  constructor
  · intro h e hE hc
    exact Decidable.byContradiction fun hfs => h e ⟨hE, hfs⟩ hc
  · exact fun h e he hc => he.2 (h e he.1 hc)

/-- The coverers that a file has in the map before tell it. -/
theorem mem_report_iff_coverers : r ∈ ((ofSets c E R).removeEntries fs).2
    ↔ r ∈ R ∧ ∃ s, (ofSets c E R).coveredBy.get? r = some s
      ∧ s.isEmpty = false ∧ ∀ e ∈ s, e ∈ fs := by
  rw [mem_report_ofSets, get?_coveredBy_ofSets]
  refine and_congr_right fun hR => ?_
  constructor
  · rintro ⟨hsome, hall⟩
    have hreached := mem_reachedBy.2 ⟨hR, hsome⟩
    refine ⟨_, if_pos hreached, ?_, fun e he => ?_⟩
    · obtain ⟨e, he⟩ := hsome
      rw [← Bool.not_eq_true, FileSet.isEmpty_iff]
      exact fun hnone => hnone e (mem_reaching.2 he)
    · obtain ⟨hE, hc⟩ := mem_reaching.1 he
      exact hall e hE hc
  · rintro ⟨s, hs, -, hall⟩
    split at hs
    · rename_i hreached
      cases hs
      exact ⟨(mem_reachedBy.1 hreached).2,
        fun e hE hc => hall e (mem_reaching.2 ⟨hE, hc⟩)⟩
    · cases hs

/-- An entry is exclusive just if its removal reports something. -/
theorem mem_exclusive_iff_report : f ∈ (ofSets c E R).exclusive
    ↔ ((ofSets c E R).removeEntry f).2 ≠ [] := by
  rw [mem_exclusive_ofSets, ne_eq, List.eq_nil_iff_forall_not_mem,
    not_forall]
  simp only [not_not]
  refine exists_congr fun r => ?_
  rw [removeEntry, mem_report_ofSets, reaching_eq_singleton_iff]
  simp only [List.mem_singleton]
  refine and_congr_right fun _ => and_congr_left fun hall => ?_
  constructor
  · exact fun hf => ⟨f, hf⟩
  · rintro ⟨e, hE, hc⟩
    exact hall e hE hc ▸ ⟨hE, hc⟩

/-! ## Removals one after the other -/

/-- A removal of one entry, or of several at once. -/
inductive Removal where
  | one (file : Path)
  | many (files : List Path)

namespace Removal

def files : Removal → List Path
  | one file => [file]
  | many files => files

def apply (m : CoverageMap) : Removal → CoverageMap × List Path
  | one file => m.removeEntry file
  | many files => m.removeEntries files

theorem apply_eq (m : CoverageMap) (a : Removal) :
    a.apply m = m.removeEntries a.files := by
  cases a <;> rfl

end Removal

/-- Removals one after the other, with what each of them reports. -/
def removeInTurn (m : CoverageMap) :
    List Removal → CoverageMap × List (List Path)
  | [] => (m, [])
  | a :: as =>
      let (m, lost) := a.apply m
      let (m, reports) := m.removeInTurn as
      (m, lost :: reports)

/-- **Removals in turn are one removal.** No file is reported twice, and
together the reports are those of the one removal. -/
theorem removeInTurn_ofSets (as : List Removal) (E : FileSet) :
    ∃ reports, (ofSets c E R).removeInTurn as
        = (ofSets c (E.diff (.ofList (as.flatMap Removal.files))) R, reports)
      ∧ reports.Pairwise List.Disjoint
      ∧ ∀ r, (∃ lost ∈ reports, r ∈ lost) ↔ r ∈ (reachedBy c E R).diff
          (reachedBy c (E.diff (.ofList (as.flatMap Removal.files))) R) := by
  induction as generalizing E with
  | nil =>
      refine ⟨[], ?_, List.Pairwise.nil, fun r => ?_⟩
      · rw [List.flatMap_nil, FileSet.diff_ofList_nil]
        rfl
      · rw [List.flatMap_nil, FileSet.diff_ofList_nil, FileSet.diff_self]
        simp
  | cons a as ih =>
      let E₁ := E.diff (.ofList a.files)
      let E₂ := E₁.diff (.ofList (as.flatMap Removal.files))
      obtain ⟨reports, hrun, hdisjoint, hmem⟩ := ih E₁
      have hall : E.diff (.ofList ((a :: as).flatMap Removal.files)) = E₂ := by
        rw [List.flatMap_cons, FileSet.diff_ofList_append]
      have hstep : a.apply (ofSets c E R) = (ofSets c E₁ R,
          ((reachedBy c E R).diff (reachedBy c E₁ R)).toList) := by
        rw [Removal.apply_eq, removeEntries_ofSets]
      -- what is reached only becomes less
      have hfirst : ∀ r ∈ reachedBy c E₁ R, r ∈ reachedBy c E R :=
        reachedBy_mono fun e he => (FileSet.mem_diff.1 he).1
      have hrest : ∀ r ∈ reachedBy c E₂ R, r ∈ reachedBy c E₁ R :=
        reachedBy_mono fun e he => (FileSet.mem_diff.1 he).1
      refine ⟨((reachedBy c E R).diff (reachedBy c E₁ R)).toList :: reports,
        ?_, List.pairwise_cons.2 ⟨fun lost hlost r hr hr' => ?_, hdisjoint⟩,
        fun r => ?_⟩
      · rw [hall, removeInTurn, hstep]
        dsimp only
        rw [hrun]
      · have hlater := (hmem r).1 ⟨lost, hlost, hr'⟩
        exact (FileSet.mem_diff.1 hr).2 (FileSet.mem_diff.1 hlater).1
      · rw [hall, List.exists_mem_cons_iff, hmem, ← FileSet.mem_def,
          FileSet.mem_diff, FileSet.mem_diff, FileSet.mem_diff]
        constructor
        · rintro (⟨hr, hn⟩ | ⟨hr, hn⟩)
          · exact ⟨hr, fun h => hn (hrest r h)⟩
          · exact ⟨hfirst r hr, hn⟩
        · rintro ⟨hr, hn⟩
          by_cases h : r ∈ reachedBy c E₁ R
          · exact .inr ⟨h, hn⟩
          · exact .inl ⟨hr, h⟩

/-! ## Removals from any map -/

/-- **Removing is exact and takes no notice of order.** After any changes of a
coverage map, a removal reports just the required files that have coverers and
lose all of them, in ascending order. Whoever removes the same files one by one
or several at once, in any order and as often as he likes, ends in the same map,
and each lost file is in one of the reports. An entry is exclusive just if its
removal reports something. -/
theorem removal_exact (x : Index) (d : Disk) (candidates required : List Path)
    (changes : List (Disk × Change)) :
    let m := run x changes (build (x.catalog d) candidates required)
    (∀ files, (m.removeEntries files).2.Pairwise (· < ·)
        ∧ ∀ r, r ∈ (m.removeEntries files).2
          ↔ r ∈ m.required ∧ ∃ s, m.coveredBy.get? r = some s
            ∧ s.isEmpty = false ∧ ∀ e ∈ s, e ∈ files)
      ∧ (∀ files removals,
          (∀ f, f ∈ removals.flatMap Removal.files ↔ f ∈ files) →
          (m.removeInTurn removals).1 = (m.removeEntries files).1
            ∧ (m.removeInTurn removals).2.Pairwise List.Disjoint
            ∧ ∀ r, r ∈ (m.removeEntries files).2
              ↔ ∃ lost ∈ (m.removeInTurn removals).2, r ∈ lost)
      ∧ ∀ f, f ∈ m.exclusive ↔ (m.removeEntry f).2 ≠ [] := by
  intro m
  obtain ⟨E, R, hm⟩ : ∃ E R, m = ofSets (x.catalog d) E R :=
    ⟨_, _, (isCanonical_build (x.catalog d) candidates required).run changes⟩
  rw [hm]
  refine ⟨fun files => ⟨?_, fun r => mem_report_iff_coverers⟩,
    fun files removals hfiles => ?_, fun f => mem_exclusive_iff_report⟩
  · rw [removeEntries_ofSets]
    exact FileSet.ascending _
  · obtain ⟨reports, hrun, hdisjoint, hmem⟩ :=
      removeInTurn_ofSets (c := x.catalog d) (R := R) removals E
    rw [hrun, removeEntries_ofSets, ← FileSet.ofList_congr hfiles]
    exact ⟨rfl, hdisjoint, fun r => (hmem r).symm⟩

/-- `/b` is removed first and uncovers nothing; `/y` is lost with `/a`, and only
reported then. -/
theorem removal_exact_overlapping :
    let m := run Cover.overlapping [] (build (Cover.overlapping.catalog ∅)
      [⟨"/a"⟩, ⟨"/b"⟩] [⟨"/x"⟩, ⟨"/y"⟩])
    let removals := [.one ⟨"/b"⟩, .many [⟨"/gone"⟩, ⟨"/a"⟩], .one ⟨"/b"⟩]
    let files := [⟨"/a"⟩, ⟨"/b"⟩, ⟨"/gone"⟩]
    (m.removeInTurn removals).2 = [[], [⟨"/x"⟩, ⟨"/y"⟩], []]
      ∧ (∀ f, f ∈ removals.flatMap Removal.files ↔ f ∈ files)
      ∧ (m.removeInTurn removals).1 = (m.removeEntries files).1
      ∧ (m.removeInTurn removals).2.Pairwise List.Disjoint
      ∧ ∀ r, r ∈ (m.removeEntries files).2
        ↔ ∃ lost ∈ (m.removeInTurn removals).2, r ∈ lost := by
  intro m removals files
  have hfiles : ∀ f, f ∈ removals.flatMap Removal.files ↔ f ∈ files := by
    intro f
    simp only [removals, files, Removal.files, List.flatMap_cons,
      List.flatMap_nil, List.mem_append, List.mem_cons, List.not_mem_nil]
    tauto
  exact ⟨by decide +kernel, hfiles,
    (removal_exact Cover.overlapping ∅ [⟨"/a"⟩, ⟨"/b"⟩]
      [⟨"/x"⟩, ⟨"/y"⟩] []).2.1 files removals hfiles⟩

end CoverageMap

end IncludeBlock
