import IncludeBlock.Proofs.Coverage.Canonical

/-!
# Entries that stand

Where few entries are wanted, what a reduction accepts is needed: each entry is
the only one to reach some file. Entries of which that holds are chosen from
the start and none of them is redundant, so weighing them again changes
something only where they leave a file that can have an entry to be reached
(`IsNeeded.wanted_eq_iff`). A map of such entries is left as it is but for the
files that it does not cover (`reduce_of_sole_coverers`), and the outcome of a
reduction is one (`sole_coverers_reduce`), so a second reduction changes
nothing (`reduce_reduce`).
-/

namespace IncludeBlock

namespace Cover

open CoverageMap

variable {c : Catalog} {E E' R R' : FileSet} {f r : Path}

/-- Each of the entries is the only one to reach some required file. -/
def IsNeeded (c : Catalog) (E R : FileSet) : Prop :=
  ∀ e ∈ E, ∃ r ∈ R, reaching c E r = .ofList [e]

theorem isNeeded_wanted :
    IsNeeded c (wanted c .minimalEntries E R) (remaining c E R) :=
  fun _ => reaching_wanted_minimalEntries

namespace IsNeeded

/-- Fewer entries are needed as well, and so they are if more is required. -/
theorem mono (h : IsNeeded c E R) (hE : ∀ e ∈ E', e ∈ E)
    (hR : ∀ r ∈ R, r ∈ R') : IsNeeded c E' R' := by
  intro e he
  obtain ⟨r, hr, hsole⟩ := h e (hE e he)
  obtain ⟨hmem, hsole⟩ := reaching_eq_singleton_iff.1 hsole
  refine ⟨r, hR r hr, reaching_eq_singleton_iff.2 ⟨⟨he, hmem.2⟩, ?_⟩⟩
  exact fun g hg hc => hsole g (hE g hg) hc

/-- What is not reached is not what entries are needed for. -/
theorem remaining (h : IsNeeded c E R) :
    IsNeeded c E (remaining c E R) := by
  intro e he
  obtain ⟨r, hr, hsole⟩ := h e he
  refine ⟨r, FileSet.mem_diff.2 ⟨hr, fun hu => ?_⟩, hsole⟩
  have hc := (reaching_eq_singleton_iff.1 hsole).1.2
  exact (mem_uncoverable_ofSets.1 hu).2.1 e he hc

theorem exclusive_eq (h : IsNeeded c E R) : (ofSets c E R).exclusive = E := by
  ext e
  constructor
  · exact mem_of_mem_exclusive
  · exact fun he => mem_exclusive_ofSets.2 (h e he)

/-- Nothing that is needed is redundant. -/
theorem not_isRedundant (h : IsNeeded c E R) :
    ∀ e ∈ E, ¬ isRedundant (choices c (ofSets c E R)) E e = true := by
  intro e he hredundant
  obtain ⟨r, hr, hsole⟩ := h e he
  obtain ⟨hmem, hsole⟩ := reaching_eq_singleton_iff.1 hsole
  have hreach : r ∈ reach (choices c (ofSets c E R)) e :=
    mem_reach_choices.2 ⟨mem_offered.2 (.inl he), hr, hmem.2⟩
  obtain ⟨g, hg, hne, hrg⟩ := isRedundant_iff.1 hredundant r hreach
  exact hne (hsole g hg (mem_reach_choices.1 hrg).2.2)

/-- Needed entries that reach all that is required are chosen again. -/
theorem minimalEntries_eq (h : IsNeeded c E R)
    (hreach : ∀ r ∈ R, ∃ e ∈ E, c.covers e r = true) :
    minimalEntries c (ofSets c E R) = E := by
  have hunsettled : unsettled c (ofSets c E R) = ∅ := by
    ext r
    rw [unsettled, h.exclusive_eq, FileSet.mem_diff, mem_coverable_choices]
    simp only [FileSet.not_mem_empty, iff_false, not_and, Decidable.not_not]
    rintro ⟨hR, _⟩
    obtain ⟨e, he, hc⟩ := hreach r hR
    exact mem_reached.2
      ⟨e, he, mem_reach_choices.2 ⟨mem_offered.2 (.inl he), hR, hc⟩⟩
  have hchosen : chosen c (ofSets c E R) = E := by
    rw [chosen, hunsettled, h.exclusive_eq]
    rfl
  rw [minimalEntries, hchosen, prune]
  refine sweep_eq_self fun e he => h.not_isRedundant e ?_
  exact (Sorting.sortBy_perm _ _).mem_iff.1 he

/-- **Needed entries stand** exactly if they reach every required file that can
have an entry. -/
theorem wanted_eq_iff (h : IsNeeded c E R) :
    wanted c .minimalEntries E R = E
      ↔ ∀ r ∈ R, c.isResolvable r = true → ∃ e ∈ E, c.covers e r = true := by
  constructor
  · intro heq r hR hres
    have hrest : r ∈ Cover.remaining c E R :=
      mem_remaining_of_isResolvable hR hres
    have hreach := reaches_wanted .minimalEntries r hrest
    rwa [heq] at hreach
  · intro hall
    refine h.remaining.minimalEntries_eq fun r hr => ?_
    obtain ⟨hR, hn⟩ := FileSet.mem_diff.1 hr
    refine Classical.byContradiction fun hnone => hn ?_
    refine mem_uncoverable_ofSets.2
      ⟨hR, fun e he hc => hnone ⟨e, he, hc⟩, ?_⟩
    cases hres : c.isResolvable r with
    | false => rfl
    | true => exact absurd (hall r hR hres) hnone

end IsNeeded

/-! ## Maps of needed entries -/

variable {c' : Catalog} {m : CoverageMap}

/-- Entries are needed if the map says of each that it is the only coverer of
some required file. -/
theorem isNeeded_of_sole_coverers
    (h : ∀ e ∈ (ofSets c E R).entries, ∃ r ∈ (ofSets c E R).required,
      (ofSets c E R).coveredBy.get? r = some (.ofList [e])) :
    IsNeeded c E R := by
  intro e he
  rw [entries_ofSets] at h
  obtain ⟨r, hr, hsole⟩ := h e he
  refine ⟨r, hr, ?_⟩
  rw [get?_coveredBy_ofSets] at hsole
  split at hsole
  · exact Option.some.inj hsole
  · cases hsole

theorem mem_keys_coveredBy_ofSets :
    r ∈ (ofSets c E R).coveredBy.keys ↔ r ∈ reachedBy c E R := by
  rw [FileMap.mem_keys, get?_coveredBy_ofSets]
  by_cases hr : r ∈ reachedBy c E R <;> simp [hr]

/-- All uncovered files are given up if none of them can have an entry. -/
theorem uncoverable_eq_uncovered
    (h : ∀ r ∈ m.required, r ∈ m.coveredBy.keys ∨ c.isResolvable r = false) :
    uncoverable c m = m.uncovered := by
  ext r
  rw [uncoverable, FileSet.mem_filter]
  constructor
  · exact And.left
  · intro hr
    obtain ⟨hR, hn⟩ := mem_uncovered_iff.1 hr
    refine ⟨hr, ?_⟩
    rw [(h r hR).resolve_left hn]
    rfl

/-- Giving files up keeps the entries. -/
theorem entries_settle (hm : IsCanonical c m) :
    (settle c m).entries = m.entries := by
  rw [hm, settle_ofSets, entries_ofSets, entries_ofSets]

/-- **A map of needed entries keeps them**, if they cover whatever can have an
entry; it only loses the files that they do not cover. -/
theorem reduce_of_sole_coverers (hm : IsCanonical c m)
    (hsole : ∀ e ∈ m.entries, ∃ r ∈ m.required,
      m.coveredBy.get? r = some (.ofList [e]))
    (hcovered : ∀ r ∈ m.required,
      r ∈ m.coveredBy.keys ∨ c.isResolvable r = false) :
    reduce c .minimalEntries m = (settle c m, ⟨∅, ∅, m.uncovered⟩) := by
  rw [← uncoverable_eq_uncovered hcovered]
  obtain ⟨E, R, rfl⟩ : ∃ E R, m = ofSets c E R := ⟨_, _, hm⟩
  have hwanted : wanted c .minimalEntries E R = E := by
    refine (isNeeded_of_sole_coverers hsole).wanted_eq_iff.2 fun r hR hres => ?_
    rcases hcovered r hR with hr | hn
    · exact (mem_reachedBy.1 (mem_keys_coveredBy_ofSets.1 hr)).2
    · rw [hres] at hn
      cases hn
  rw [reduce_ofSets, hwanted, settle_ofSets, FileSet.diff_self]

/-- Where few entries were wanted, each that is left is the only coverer of some
file, and every file that is left is covered. -/
theorem sole_coverers_reduce (hm : IsCanonical c m) :
    (∀ e ∈ (reduce c .minimalEntries m).1.entries,
        ∃ r ∈ (reduce c .minimalEntries m).1.required,
          (reduce c .minimalEntries m).1.coveredBy.get? r = some (.ofList [e]))
      ∧ ∀ r ∈ (reduce c .minimalEntries m).1.required,
          r ∈ (reduce c .minimalEntries m).1.coveredBy.keys := by
  obtain ⟨E, R, rfl⟩ : ∃ E R, m = ofSets c E R := ⟨_, _, hm⟩
  rw [reduce_ofSets, entries_ofSets, required_ofSets]
  have hreached : ∀ r ∈ remaining c E R,
      r ∈ reachedBy c (wanted c .minimalEntries E R) (remaining c E R) :=
    fun r hr => mem_reachedBy.2 ⟨hr, reaches_wanted .minimalEntries r hr⟩
  constructor
  · intro e he
    obtain ⟨r, hr, hsole⟩ := reaching_wanted_minimalEntries he
    refine ⟨r, hr, ?_⟩
    rw [get?_coveredBy_ofSets, if_pos (hreached r hr), hsole]
  · intro r hr
    exact mem_keys_coveredBy_ofSets.2 (hreached r hr)

/-- **To reduce once more changes nothing.** -/
theorem reduce_reduce (hm : IsCanonical c m) (hc : c.covers = c'.covers) :
    reduce c' .minimalEntries (reduce c .minimalEntries m).1
      = ((reduce c .minimalEntries m).1, ⟨∅, ∅, ∅⟩) := by
  obtain ⟨hsole, hcovered⟩ := sole_coverers_reduce hm
  have hk : IsCanonical c' (reduce c .minimalEntries m).1 :=
    IsCanonical.congr hc (hm.apply (.reduce .minimalEntries))
  have hnone : (reduce c .minimalEntries m).1.uncovered = ∅ := by
    ext r
    simp only [mem_uncovered_iff, FileSet.not_mem_empty, iff_false, not_and,
      Decidable.not_not]
    exact hcovered r
  have hall := fun r hr => Or.inl (b := c'.isResolvable r = false) (hcovered r hr)
  rw [reduce_of_sole_coverers hk hsole hall, hnone, settle,
    uncoverable_eq_uncovered hall, hnone]
  rfl

/-- **An irredundant cover is left alone.** Take any map that changes have led
to in which each entry is the only coverer of some required file, and in which
every required file is covered or cannot have an entry. Where few entries are
wanted, a reduction drops nothing and adds nothing, gives up exactly the files
that are not covered, and keeps the entries. So to reduce the outcome of a
reduction again changes nothing, on whatever disk. -/
theorem reduce_irredundant (x : Index) (d now : Disk)
    (candidates required : List Path) (changes : List (Disk × Change)) :
    let m := run x changes (build (x.catalog d) candidates required)
    let reduced := reduce (x.catalog now) .minimalEntries m
    ((∀ e ∈ m.entries, ∃ r ∈ m.required,
          m.coveredBy.get? r = some (.ofList [e])) →
        (∀ r ∈ m.required,
          r ∈ m.coveredBy.keys ∨ x.isResolvable now r = false) →
        reduced.2 = ⟨∅, ∅, m.uncovered⟩ ∧ reduced.1.entries = m.entries)
      ∧ ∀ later, reduce (x.catalog later) .minimalEntries reduced.1
          = (reduced.1, ⟨∅, ∅, ∅⟩) := by
  intro m reduced
  have hm : IsCanonical (x.catalog now) m :=
    ((isCanonical_build ..).run changes).congr (covers_catalog x d now)
  clear_value m
  constructor
  · intro hsole hcovered
    have heq : reduced = (settle (x.catalog now) m, ⟨∅, ∅, m.uncovered⟩) :=
      reduce_of_sole_coverers hm hsole hcovered
    rw [heq]
    exact ⟨rfl, entries_settle hm⟩
  · intro later
    exact reduce_reduce hm (covers_catalog x now later)

/-- `/a` includes `/x`, which is lighter. -/
def wrapped : Source :=
  (Snapshot.ofRows [(⟨"/a"⟩, 9, [⟨"/x"⟩]), (⟨"/x"⟩, 1, [])] {}).1.toSource

/-- `/a` is kept for `/x`, and `/gone` is given up. -/
theorem reduce_irredundant_wrapped :
    let x := Index.new wrapped
    let disk : Disk := ∅
    let m := run x [(disk, .add ⟨"/x"⟩), (disk, .remove ⟨"/x"⟩)]
      (build (x.catalog disk) [⟨"/a"⟩] [⟨"/gone"⟩, ⟨"/x"⟩])
    let reduced := reduce (x.catalog disk) .minimalEntries m
    m.entries = [⟨"/a"⟩] ∧ m.uncovered = .ofList [⟨"/gone"⟩]
      ∧ x.isResolvable disk ⟨"/x"⟩ = true
      ∧ reduced.2 = ⟨∅, ∅, m.uncovered⟩ ∧ reduced.1.entries = m.entries := by
  intro x disk m reduced
  have hentries : m.entries = [⟨"/a"⟩] := by decide +kernel
  have hrequired : m.required.toList = [⟨"/gone"⟩, ⟨"/x"⟩] := by decide +kernel
  refine ⟨hentries, by decide +kernel, by decide +kernel, ?_⟩
  refine (reduce_irredundant x disk disk _ _ _).1 (fun e he => ?_) fun r hr => ?_
  · rw [hentries, List.mem_singleton] at he
    rw [he]
    exact ⟨⟨"/x"⟩, by decide +kernel, by decide +kernel⟩
  · rw [FileSet.mem_def, hrequired] at hr
    rcases List.mem_cons.1 hr with heq | hr
    · rw [heq]
      exact .inr (by decide +kernel)
    · rw [List.mem_singleton.1 hr]
      exact .inl (by decide +kernel)

end Cover

end IncludeBlock
