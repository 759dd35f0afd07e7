import IncludeBlock.Proofs.Cover.Reduction
import IncludeBlock.Proofs.Expansion.Memo

/-!
# What a coverage map is after any changes

Every change takes the map of two sets to the map of two sets
(`IsCanonical.apply`), so after any run of changes a map is the one of its
entries and its required files. The disk may change during a run: what an index
says a file pulls in does not depend on it.
-/

namespace IncludeBlock

namespace CoverageMap

variable {c c' : Catalog} {m m' : CoverageMap}

/-- A change of a coverage map. -/
inductive Change where
  | add (file : Path)
  | remove (file : Path)
  | removeMany (files : List Path)
  | forget (file : Path)
  | reduce (policy : Policy)
deriving DecidableEq, Repr

def Change.apply (c : Catalog) (m : CoverageMap) : Change → CoverageMap
  | add file => m.addEntry c file
  | remove file => (m.removeEntry file).1
  | removeMany files => (m.removeEntries files).1
  | forget file => m.forget file
  | reduce policy => (Cover.reduce c policy m).1

/-- A run of changes, each with the disk at its time. -/
def run (x : Index) (changes : List (Disk × Change)) (m : CoverageMap) :
    CoverageMap :=
  changes.foldl (fun m a => a.2.apply (x.catalog a.1) m) m

/-- The map is the one of its entries and its required files. -/
def IsCanonical (c : Catalog) (m : CoverageMap) : Prop :=
  m = ofSets c (.ofList m.entries) m.required

theorem isCanonical_ofSets (c : Catalog) (E R : FileSet) :
    IsCanonical c (ofSets c E R) := by
  simp [IsCanonical]

theorem isCanonical_build (c : Catalog) (candidates required : List Path) :
    IsCanonical c (build c candidates required) := by
  rw [build_eq]
  exact isCanonical_ofSets ..

/-- **Every change keeps a map canonical.** -/
theorem IsCanonical.apply (h : IsCanonical c m) (change : Change) :
    IsCanonical c (change.apply c m) := by
  rw [h]
  cases change with
  | add file => simp only [Change.apply, addEntry_ofSets, isCanonical_ofSets]
  | remove file =>
      simp only [Change.apply, removeEntry, removeEntries_ofSets,
        isCanonical_ofSets]
  | removeMany files =>
      simp only [Change.apply, removeEntries_ofSets, isCanonical_ofSets]
  | forget file => simp only [Change.apply, forget_ofSets, isCanonical_ofSets]
  | reduce policy =>
      simp only [Change.apply, Cover.reduce_ofSets, isCanonical_ofSets]

/-- Nothing but what files cover counts in a canonical map. -/
theorem IsCanonical.congr (hc : c.covers = c'.covers) (h : IsCanonical c m) :
    IsCanonical c' m := by
  unfold IsCanonical ofSets between reachedBy reaching coverageFor at h ⊢
  rwa [← hc]

theorem covers_catalog (x : Index) (d d' : Disk) :
    (x.catalog d).covers = (x.catalog d').covers := by
  have hclosure : (x.catalog d).closure = (x.catalog d').closure := by
    funext f
    simp only [Index.catalog, Index.expand_fst, Index.closure_expansion]
  unfold Catalog.covers
  rw [hclosure]

/-- **And so does a run of changes.** -/
theorem IsCanonical.run {x : Index} {d : Disk}
    (h : IsCanonical (x.catalog d) m) (changes : List (Disk × Change)) :
    IsCanonical (x.catalog d) (run x changes m) := by
  induction changes generalizing m with
  | nil => exact h
  | cons a changes ih =>
      have hstep := (h.congr (covers_catalog x d a.1)).apply a.2
      exact ih (hstep.congr (covers_catalog x a.1 d))

/-- A canonical map has nothing beside its two sets. -/
theorem IsCanonical.eq_of_sets (h : IsCanonical c m) (h' : IsCanonical c m')
    (hE : m.entries = m'.entries) (hR : m.required = m'.required) : m = m' := by
  rw [h, h', hE, hR]

/-! ## Reading a canonical map -/

theorem mem_coverage_ofSets {E R : FileSet} {e r : Path} :
    (∃ s, (ofSets c E R).coverageOf.get? e = some s ∧ r ∈ s)
      ↔ e ∈ E ∧ r ∈ R ∧ c.covers e r = true := by
  rw [get?_coverageOf_ofSets]
  by_cases he : e ∈ E <;> simp [he]

theorem mem_coverers_ofSets {E R : FileSet} {e r : Path} :
    (∃ s, (ofSets c E R).coveredBy.get? r = some s ∧ e ∈ s)
      ↔ e ∈ E ∧ r ∈ R ∧ c.covers e r = true := by
  rw [get?_coveredBy_ofSets]
  constructor
  · intro ⟨s, hs, he⟩
    split at hs
    · rename_i hr
      cases hs
      obtain ⟨hE, hc⟩ := mem_reaching.1 he
      exact ⟨hE, (mem_reachedBy.1 hr).1, hc⟩
    · cases hs
  · intro ⟨hE, hR, hc⟩
    rw [if_pos (mem_reachedBy.2 ⟨hR, e, hE, hc⟩)]
    exact ⟨_, rfl, mem_reaching.2 ⟨hE, hc⟩⟩

theorem mem_uncovered_iff {r : Path} :
    r ∈ m.uncovered ↔ r ∈ m.required ∧ r ∉ m.coveredBy.keys := by
  rw [uncovered, FileSet.mem_filter, ← FileMap.contains_iff]
  simp

theorem isSound_iff_uncovered : m.isSound = true ↔ m.uncovered = ∅ := by
  have hall : m.isSound = true ↔ ∀ r ∈ m.required, r ∈ m.coveredBy.keys := by
    simp only [isSound, List.all_eq_true, FileMap.contains_iff,
      FileSet.mem_def]
  rw [hall]
  constructor
  · intro h
    ext r
    simpa [mem_uncovered_iff] using h r
  · intro h r hr
    refine Decidable.byContradiction fun hn => FileSet.not_mem_empty r ?_
    rw [← h]
    exact mem_uncovered_iff.2 ⟨hr, hn⟩

/-- **A map is determined by its entries and its required files**, whatever
changes led to it. Each entry is mapped to the required files that it is or
pulls in; the coverers are the inverse of that, without empty sets and without
files that are not required; the uncovered files are the required ones without
coverers, and the map is sound if there are none. Two runs that end with the
same entries and required files end in the same map. -/
theorem run_canonical (x : Index) (d : Disk) (candidates required : List Path)
    (changes : List (Disk × Change)) :
    let m := run x changes (build (x.catalog d) candidates required)
    (∀ e s, m.coverageOf.get? e = some s
        ↔ e ∈ m.entries ∧ ∀ r, r ∈ s
            ↔ r ∈ m.required ∧ (r = e ∨ r ∈ (x.expand d e).1.closure))
      ∧ (∀ e r, (∃ s, m.coveredBy.get? r = some s ∧ e ∈ s)
          ↔ ∃ s, m.coverageOf.get? e = some s ∧ r ∈ s)
      ∧ (∀ r s, m.coveredBy.get? r = some s →
          r ∈ m.required ∧ s.isEmpty = false)
      ∧ (∀ r, r ∈ m.uncovered ↔ r ∈ m.required ∧ r ∉ m.coveredBy.keys)
      ∧ (m.isSound = true ↔ m.uncovered = ∅)
      ∧ ∀ candidates' required' changes',
          let m' := run x changes' (build (x.catalog d) candidates' required')
          m'.entries = m.entries → m'.required = m.required → m' = m := by
  intro m
  have hrun : ∀ candidates required changes, IsCanonical (x.catalog d)
      (run x changes (build (x.catalog d) candidates required)) :=
    fun _ _ changes => (isCanonical_build ..).run changes
  have hm : m = ofSets (x.catalog d) (.ofList m.entries) m.required :=
    hrun candidates required changes
  refine ⟨fun e s => ?_, fun e r => ?_, fun r s hs => ?_,
    fun _ => mem_uncovered_iff, isSound_iff_uncovered,
    fun _ _ _ hE hR => (hrun ..).eq_of_sets (hrun ..) hE hR⟩
  · have hget : m.coverageOf.get? e = if e ∈ m.entries
        then some (coverageFor (x.catalog d) e m.required) else none := by
      rw [hm, get?_coverageOf_ofSets, ← hm]
      simp
    rw [hget]
    split
    · rename_i he
      simp only [he, true_and, ← Index.covers_iff, ← mem_coverageFor,
        Option.some.injEq]
      constructor
      · intro h r
        rw [h]
      · intro h
        ext r
        exact (h r).symm
    · rename_i he
      simp [he]
  · rw [hm, mem_coverers_ofSets, mem_coverage_ofSets]
  · rw [hm, get?_coveredBy_ofSets] at hs
    split at hs
    · rename_i hr
      obtain ⟨hR, e, he⟩ := mem_reachedBy.1 hr
      cases hs
      refine ⟨hR, ?_⟩
      cases hempty : (reaching _ _ r).isEmpty with
      | false => rfl
      | true => exact absurd (mem_reaching.2 he) (FileSet.isEmpty_iff.1 hempty e)
    · cases hs

end CoverageMap

end IncludeBlock
