import IncludeBlock.Coverage
import IncludeBlock.Proofs.Files

/-!
# Coverage maps as a relation

A coverage map that the operations can reach is determined by two sets: its
entries `E` and its required files `R`. `CoverageMap.ofSets` is that map,
said outright, and every operation takes such a map to another one:

* building gives the map of the candidates and the required files;
* adding an entry inserts it into `E`, forgetting a file erases it from `R`;
* removing entries takes them out of `E` and reports the files that were
  reached before and are not reached any more.

While entries are being removed one after the other, files that have lost
their last coverer are still keys of the map; `between` keeps the set of keys
apart from the relation for that reason.
-/

namespace IncludeBlock

namespace CoverageMap

variable {c : Catalog} {E K R : FileSet} {e f r : Path} {fs : List Path}

/-! ## The relation -/

/-- The entries that reach a file. -/
def reaching (c : Catalog) (E : FileSet) (r : Path) : FileSet :=
  E.filter (c.covers · r)

/-- The required files that some entry reaches. -/
def reachedBy (c : Catalog) (E R : FileSet) : FileSet :=
  R.filter fun r => !(reaching c E r).isEmpty

/-- The map of the entries `E` and the required files `R` in which the files
`K` count as reached. -/
def between (c : Catalog) (E K R : FileSet) : CoverageMap where
  coverageOf := .tabulate E fun e => coverageFor c e R
  coveredBy := .tabulate K (reaching c E)
  required := R

/-- The map of the entries `E` and the required files `R`. -/
def ofSets (c : Catalog) (E R : FileSet) : CoverageMap :=
  between c E (reachedBy c E R) R

@[simp] theorem mem_reaching :
    e ∈ reaching c E r ↔ e ∈ E ∧ c.covers e r = true :=
  FileSet.mem_filter

@[simp] theorem mem_reachedBy :
    r ∈ reachedBy c E R ↔ r ∈ R ∧ ∃ e ∈ E, c.covers e r = true := by
  rw [reachedBy, FileSet.mem_filter, Bool.not_eq_true',
    ← Bool.not_eq_true, FileSet.isEmpty_iff]
  simp

theorem reaching_insert_of_covers (h : c.covers f r = true) :
    reaching c (E.insert f) r = (reaching c E r).insert f := by
  ext g
  rw [mem_reaching, FileSet.mem_insert, FileSet.mem_insert, mem_reaching]
  constructor
  · intro hg
    rcases hg.1 with heq | hE
    · exact .inl heq
    · exact .inr ⟨hE, hg.2⟩
  · intro hg
    rcases hg with heq | hg
    · exact ⟨.inl heq, heq ▸ h⟩
    · exact ⟨.inr hg.1, hg.2⟩

theorem reaching_insert_of_not_covers (h : ¬ c.covers f r = true) :
    reaching c (E.insert f) r = reaching c E r := by
  ext g
  rw [mem_reaching, FileSet.mem_insert, mem_reaching]
  constructor
  · intro hg
    rcases hg.1 with heq | hE
    · exact absurd (heq ▸ hg.2) h
    · exact ⟨hE, hg.2⟩
  · intro hg
    exact ⟨.inr hg.1, hg.2⟩

theorem mem_reachedBy_insert_of_not_covers (h : ¬ c.covers f r = true) :
    r ∈ reachedBy c (E.insert f) R ↔ r ∈ reachedBy c E R := by
  rw [reachedBy, reachedBy, FileSet.mem_filter, FileSet.mem_filter,
    reaching_insert_of_not_covers h]

theorem reaching_erase :
    reaching c (E.erase f) r = (reaching c E r).erase f := by
  ext g
  simp [and_right_comm]

/-- Only `e` reaches `r`: it does, and no other entry. -/
theorem reaching_eq_singleton_iff : reaching c E r = .ofList [e]
    ↔ (e ∈ E ∧ c.covers e r = true)
      ∧ ∀ g ∈ E, c.covers g r = true → g = e := by
  constructor
  · intro h
    have hiff : ∀ g, g ∈ E ∧ c.covers g r = true ↔ g = e := by
      intro g
      rw [← mem_reaching, h, FileSet.mem_ofList, List.mem_singleton]
    exact ⟨(hiff e).2 rfl, fun g hg hc => (hiff g).1 ⟨hg, hc⟩⟩
  · intro h
    refine FileSet.eq_ofList_singleton fun g => ?_
    rw [mem_reaching]
    constructor
    · exact fun hg => h.2 g hg.1 hg.2
    · exact fun hge => hge ▸ h.1

/-- A required file that is not reached has no coverers. -/
theorem reaching_of_not_reached (hr : r ∈ R) (h : r ∉ reachedBy c E R) :
    reaching c E r = ∅ := by
  ext e
  simp only [FileSet.not_mem_empty, iff_false]
  intro he
  exact h (mem_reachedBy.2 ⟨hr, e, mem_reaching.1 he⟩)

theorem coverageFor_erase :
    coverageFor c e (R.erase r) = (coverageFor c e R).erase r := by
  ext g
  simp [and_right_comm]

/-! ## Questions -/

@[simp] theorem required_ofSets : (ofSets c E R).required = R := rfl

@[simp] theorem entries_ofSets : (ofSets c E R).entries = E.toList :=
  FileMap.keys_tabulate

@[simp] theorem hasEntry_ofSets : (ofSets c E R).hasEntry f = decide (f ∈ E) :=
  FileMap.contains_tabulate

@[simp] theorem get?_coverageOf_ofSets : (ofSets c E R).coverageOf.get? f
    = if f ∈ E then some (coverageFor c f R) else none :=
  FileMap.get?_tabulate

@[simp] theorem get?_coveredBy_ofSets : (ofSets c E R).coveredBy.get? r
    = if r ∈ reachedBy c E R then some (reaching c E r) else none :=
  FileMap.get?_tabulate

@[simp] theorem mem_uncovered_ofSets : r ∈ (ofSets c E R).uncovered
    ↔ r ∈ R ∧ ∀ e ∈ E, ¬ c.covers e r = true := by
  rw [uncovered, FileSet.mem_filter]
  simp only [ofSets, between, FileMap.contains_tabulate, mem_reachedBy]
  simp only [Bool.not_eq_true', decide_eq_false_iff_not, not_and, not_exists]
  constructor
  · intro h
    exact ⟨h.1, h.2 h.1⟩
  · intro h
    exact ⟨h.1, fun _ => h.2⟩

/-- A map is sound exactly if some entry reaches each required file. -/
theorem isSound_ofSets : (ofSets c E R).isSound = true
    ↔ ∀ r ∈ R, ∃ e ∈ E, c.covers e r = true := by
  rw [isSound, List.all_eq_true]
  simp only [ofSets, between, FileMap.contains_tabulate, decide_eq_true_eq]
  constructor
  · intro h r hr
    exact (mem_reachedBy.1 (h r hr)).2
  · intro h r hr
    exact mem_reachedBy.2 ⟨hr, h r hr⟩

/-- An entry is exclusive if it alone reaches some required file. -/
theorem mem_exclusive_ofSets : e ∈ (ofSets c E R).exclusive
    ↔ ∃ r ∈ R, reaching c E r = .ofList [e] := by
  rw [exclusive, FileSet.mem_ofList, List.mem_flatMap]
  constructor
  · intro h
    obtain ⟨⟨r, s⟩, h, he⟩ := h
    obtain ⟨r', hr', heq⟩ := List.mem_map.1 h
    cases heq
    dsimp only at he
    split at he
    · rename_i hs
      obtain ⟨g, hg⟩ := FileSet.size_eq_one_iff.1 hs
      rw [hg, FileSet.toList_singleton, List.mem_singleton] at he
      exact ⟨r, (mem_reachedBy.1 hr').1, he ▸ hg⟩
    · simp at he
  · intro h
    obtain ⟨r, hr, hs⟩ := h
    have hr' : r ∈ reachedBy c E R :=
      mem_reachedBy.2 ⟨hr, e, (reaching_eq_singleton_iff.1 hs).1⟩
    refine ⟨(r, reaching c E r), List.mem_map.2 ⟨r, hr', rfl⟩, ?_⟩
    rw [if_pos (FileSet.size_eq_one_iff.2 ⟨e, hs⟩), hs]
    exact List.mem_singleton.2 rfl

/-- What is exclusive is an entry. -/
theorem mem_of_mem_exclusive (h : e ∈ (ofSets c E R).exclusive) : e ∈ E := by
  obtain ⟨r, _, hs⟩ := mem_exclusive_ofSets.1 h
  exact (reaching_eq_singleton_iff.1 hs).1.1

/-! ## Adding -/

theorem get?_foldl_addCoverer (f : Path) (rs : List Path)
    (m : FileMap FileSet) (r : Path) :
    (rs.foldl (addCoverer f) m).get? r
      = if r ∈ rs then some (((m.get? r).getD ∅).insert f) else m.get? r := by
  induction rs generalizing m with
  | nil => simp
  | cons a rs ih =>
      rw [List.foldl_cons, ih, addCoverer, FileMap.get?_insert]
      by_cases ha : r = a
      · subst ha
        simp [FileSet.insert_of_mem]
      · simp [ha]

/-- The new entry joins the coverers of all that it reaches. -/
theorem foldl_addCoverer_tabulate :
    (coverageFor c f R).toList.foldl (addCoverer f)
        (.tabulate (reachedBy c E R) (reaching c E))
      = .tabulate (reachedBy c (E.insert f) R) (reaching c (E.insert f)) := by
  refine FileMap.ext fun r => ?_
  rw [get?_foldl_addCoverer, FileMap.get?_tabulate, FileMap.get?_tabulate]
  by_cases hr : r ∈ (coverageFor c f R).toList
  · obtain ⟨hR, hc⟩ := mem_coverageFor.1 hr
    have hnew : r ∈ reachedBy c (E.insert f) R :=
      mem_reachedBy.2 ⟨hR, f, FileSet.mem_insert.2 (.inl rfl), hc⟩
    rw [if_pos hr, if_pos hnew, reaching_insert_of_covers hc]
    by_cases hold : r ∈ reachedBy c E R
    · rw [if_pos hold]
      rfl
    · rw [if_neg hold, reaching_of_not_reached hR hold]
      rfl
  · rw [if_neg hr]
    by_cases hR : r ∈ R
    · have hc : ¬ c.covers f r = true :=
        fun hc => hr (mem_coverageFor.2 ⟨hR, hc⟩)
      simp only [mem_reachedBy_insert_of_not_covers hc,
        reaching_insert_of_not_covers hc]
    · simp [hR]

/-- Adding an entry inserts it. -/
theorem addEntry_ofSets :
    (ofSets c E R).addEntry c f = ofSets c (E.insert f) R := by
  have hentry : (ofSets c E R).coverageOf.contains f = decide (f ∈ E) :=
    FileMap.contains_tabulate
  by_cases hf : f ∈ E
  · rw [FileSet.insert_of_mem hf, addEntry, if_pos (by simp [hentry, hf])]
  · rw [addEntry, if_neg (by simp [hentry, hf])]
    show CoverageMap.mk _ _ _ = CoverageMap.mk _ _ _
    rw [← foldl_addCoverer_tabulate]
    congr 1
    exact FileMap.insert_tabulate (v := fun e => coverageFor c e R)

/-- Adding the files of a list, one after the other. -/
theorem foldl_addEntry_ofSets (fs : List Path) (E : FileSet) :
    fs.foldl (addEntry c) (ofSets c E R) = ofSets c (E.insertMany fs) R := by
  induction fs generalizing E with
  | nil => rfl
  | cons f fs ih =>
      rw [List.foldl_cons, addEntry_ofSets, ih]
      rfl

theorem ofSets_empty (c : Catalog) (R : FileSet) :
    ofSets c ∅ R = ⟨∅, ∅, R⟩ := by
  have hnone : reachedBy c ∅ R = ∅ := by
    ext r
    simp
  rw [ofSets, hnone]
  rfl

/-- **Building** gives the map of the candidates and the required files. -/
theorem build_eq (c : Catalog) (candidates required : List Path) :
    build c candidates required
      = ofSets c (.ofList (candidates.filter (!·.isEmpty)))
          (.ofList (required.filter (!·.isEmpty))) := by
  rw [build, ← ofSets_empty c, foldl_addEntry_ofSets]
  rfl

/-! ## Forgetting -/

/-- Both directions of the relation are cut by the same step, so one lemma is
enough for the two. -/
theorem get?_foldl_dropCoverer (f : Path) (rs : List Path)
    (m : FileMap FileSet) (r : Path) :
    (rs.foldl (dropCoverer f) m).get? r
      = if r ∈ rs then (m.get? r).map (·.erase f) else m.get? r := by
  induction rs generalizing m with
  | nil => simp
  | cons a rs ih =>
      have hstep : (dropCoverer f m a).get? r
          = if r = a then (m.get? r).map (·.erase f) else m.get? r := by
        rw [dropCoverer]
        cases h : m.get? a with
        | none =>
            by_cases ha : r = a
            · subst ha
              simp [h]
            · simp [ha]
        | some s =>
            by_cases ha : r = a
            · subst ha
              simp [h]
            · simp [ha]
      rw [List.foldl_cons, ih, hstep]
      by_cases ha : r = a
      · subst ha
        have htwice (s : FileSet) : (s.erase f).erase f = s.erase f :=
          FileSet.erase_of_not_mem (by simp)
        by_cases hr : r ∈ rs <;> simp [hr, Option.map_map, htwice,
          Function.comp_def]
      · simp [ha]

theorem dropCovered_eq_dropCoverer : dropCovered = dropCoverer := rfl

/-- The coverage of every entry loses a file that is forgotten. -/
theorem foldl_dropCovered_tabulate :
    ((((ofSets c E R).coveredBy.get? r).getD ∅).toList).foldl
        (dropCovered r) (.tabulate E fun e => coverageFor c e R)
      = .tabulate E fun e => coverageFor c e (R.erase r) := by
  refine FileMap.ext fun e => ?_
  rw [dropCovered_eq_dropCoverer, get?_foldl_dropCoverer,
    FileMap.get?_tabulate, FileMap.get?_tabulate, get?_coveredBy_ofSets]
  by_cases hE : e ∈ E
  · rw [if_pos hE, if_pos hE, coverageFor_erase]
    by_cases hr : r ∈ coverageFor c e R
    · -- the entry reaches `r`, so it is visited
      obtain ⟨hR, hc⟩ := mem_coverageFor.1 hr
      rw [if_pos (mem_reachedBy.2 ⟨hR, e, hE, hc⟩), if_pos]
      · rfl
      · exact mem_reaching.2 ⟨hE, hc⟩
    · rw [FileSet.erase_of_not_mem hr, Option.map_some,
        FileSet.erase_of_not_mem hr, ite_self]
  · simp [hE]

/-- Forgetting a required file erases it. -/
theorem forget_ofSets : (ofSets c E R).forget r = ofSets c E (R.erase r) := by
  have hby : (FileMap.tabulate (reachedBy c E R) (reaching c E)).erase r
      = .tabulate (reachedBy c E (R.erase r)) (reaching c E) := by
    rw [FileMap.erase_tabulate]
    congr 1
    ext g
    simp [and_right_comm]
  show CoverageMap.mk _ _ _ = CoverageMap.mk _ _ _
  rw [← hby, ← foldl_dropCovered_tabulate]
  rfl

theorem foldl_forget_ofSets (rs : List Path) (R : FileSet) :
    rs.foldl forget (ofSets c E R) = ofSets c E (R.diff (.ofList rs)) := by
  induction rs generalizing R with
  | nil => rw [FileSet.diff_ofList_nil]; rfl
  | cons r rs ih =>
      rw [List.foldl_cons, forget_ofSets, ih, FileSet.diff_ofList_cons]

/-! ## Removing -/

/-- An entry that is taken away leaves the coverers of all that it reached. -/
theorem foldl_dropCoverer_tabulate (hK : ∀ r ∈ K, r ∈ R) :
    (coverageFor c f R).toList.foldl (dropCoverer f)
        (.tabulate K (reaching c E))
      = .tabulate K (reaching c (E.erase f)) := by
  refine FileMap.ext fun r => ?_
  rw [get?_foldl_dropCoverer, FileMap.get?_tabulate, FileMap.get?_tabulate]
  by_cases hr : r ∈ K
  · rw [if_pos hr, if_pos hr, reaching_erase]
    split
    · rfl
    · rename_i hn
      rw [FileSet.erase_of_not_mem]
      intro hc
      exact hn (mem_coverageFor.2 ⟨hK r hr, (mem_reaching.1 hc).2⟩)
  · simp [hr]

/-- Taking one entry away, while the reached files stay keys of the map. -/
theorem detach_between (hK : ∀ r ∈ K, r ∈ R) :
    (between c E K R).detach f = (between c (E.erase f) K R,
      if f ∈ E then (coverageFor c f R).toList else []) := by
  rw [detach]
  by_cases hf : f ∈ E
  · have hget : (between c E K R).coverageOf.get? f
        = some (coverageFor c f R) := by
      simp [between, hf]
    rw [hget, if_pos hf]
    show (CoverageMap.mk _ _ _, _) = (CoverageMap.mk _ _ _, _)
    rw [← foldl_dropCoverer_tabulate hK]
    congr 2
    exact FileMap.erase_tabulate
  · have hget : (between c E K R).coverageOf.get? f = none := by
      simp [between, hf]
    rw [hget, if_neg hf, FileSet.erase_of_not_mem hf]

/-- Taking away the entries of a list; `touched` holds the files that they
reached. -/
theorem foldl_detach_between (hK : ∀ r ∈ K, r ∈ R) (fs : List Path)
    (E : FileSet) (touched : List Path) :
    ∃ touched', fs.foldl (fun (m, touched) f =>
          let (m, reached) := detach m f
          (m, touched ++ reached)) (between c E K R, touched)
        = (between c (E.diff (.ofList fs)) K R, touched')
      ∧ ∀ r, r ∈ touched' ↔ r ∈ touched
          ∨ ∃ f ∈ fs, f ∈ E ∧ r ∈ coverageFor c f R := by
  induction fs generalizing E touched with
  | nil => exact ⟨touched, by rw [FileSet.diff_ofList_nil]; rfl, by simp⟩
  | cons a fs ih =>
      rw [List.foldl_cons]
      simp only [detach_between hK]
      obtain ⟨touched', heq, hmem⟩ := ih (E.erase a)
        (touched ++ if a ∈ E then (coverageFor c a R).toList else [])
      refine ⟨touched', by rw [heq, FileSet.diff_ofList_cons], fun r => ?_⟩
      have hhead : r ∈ (if a ∈ E then (coverageFor c a R).toList else [])
          ↔ a ∈ E ∧ r ∈ coverageFor c a R := by
        by_cases ha : a ∈ E <;> simp [ha, FileSet.mem_def]
      rw [hmem, List.mem_append, hhead, or_assoc]
      refine or_congr_right ?_
      constructor
      · intro h
        rcases h with h | ⟨f, hf, hE, hr⟩
        · exact ⟨a, List.mem_cons_self, h⟩
        · exact ⟨f, List.mem_cons_of_mem _ hf, (FileSet.mem_erase.1 hE).1, hr⟩
      · intro h
        obtain ⟨f, hf, hE, hr⟩ := h
        by_cases hfa : f = a
        · exact .inl ⟨hfa ▸ hE, hfa ▸ hr⟩
        · exact .inr ⟨f, (List.mem_cons.1 hf).resolve_left hfa,
            FileSet.mem_erase.2 ⟨hE, hfa⟩, hr⟩

/-- Removing takes away the entries that are there and then erases the files
without a coverer. -/
theorem removeEntries_eq {m m' : CoverageMap} {touched : List Path}
    {lost : FileSet}
    (h : m.detachAll (FileSet.ofList (fs.filter m.hasEntry)).toList
      = (m', touched))
    (hlost : ∀ r, r ∈ lost
      ↔ r ∈ touched ∧ (m'.coveredBy.get? r).all FileSet.isEmpty = true) :
    m.removeEntries fs
      = ({ m' with coveredBy := lost.toList.foldl FileMap.erase m'.coveredBy },
          lost.toList) := by
  have heq : (FileSet.ofList touched).filter
      (fun r => (m'.coveredBy.get? r).all FileSet.isEmpty) = lost := by
    ext r
    simp [hlost]
  rw [removeEntries, h, ← heq]
  rfl

/-- A file counts as lost when an entry that reached it is gone and no other
one is left. -/
theorem mem_lost_iff {E' : FileSet} (hE' : E' = E.diff (.ofList fs)) :
    r ∈ (reachedBy c E R).diff (reachedBy c E' R)
      ↔ (r ∈ R ∧ ∃ f ∈ fs, f ∈ E ∧ c.covers f r = true)
        ∧ ((between c E' (reachedBy c E R) R).coveredBy.get? r).all
            FileSet.isEmpty = true := by
  have hget : (between c E' (reachedBy c E R) R).coveredBy.get? r
      = if r ∈ reachedBy c E R then some (reaching c E' r) else none :=
    FileMap.get?_tabulate
  rw [hget, FileSet.mem_diff]
  constructor
  · intro h
    obtain ⟨hr, hn⟩ := h
    obtain ⟨hR, e, hE, hc⟩ := mem_reachedBy.1 hr
    have hnone (g : Path) : g ∉ reaching c E' r := fun hg =>
      hn (mem_reachedBy.2 ⟨hR, g, mem_reaching.1 hg⟩)
    have hfs : e ∈ fs := Decidable.byContradiction fun hfs =>
      hnone e (mem_reaching.2 ⟨by simp [hE', hE, hfs], hc⟩)
    refine ⟨⟨hR, e, hfs, hE, hc⟩, ?_⟩
    rw [if_pos hr, Option.all_some]
    exact FileSet.isEmpty_iff.2 hnone
  · intro h
    obtain ⟨⟨hR, f, hf, hE, hc⟩, hall⟩ := h
    have hr : r ∈ reachedBy c E R := mem_reachedBy.2 ⟨hR, f, hE, hc⟩
    refine ⟨hr, fun hleft => ?_⟩
    rw [if_pos hr, Option.all_some, FileSet.isEmpty_iff] at hall
    obtain ⟨e, he⟩ := (mem_reachedBy.1 hleft).2
    exact hall e (mem_reaching.2 he)

/-- What is reached by fewer entries is reached by all of them. -/
theorem reachedBy_mono {E' : FileSet} (h : ∀ e ∈ E', e ∈ E) :
    ∀ r ∈ reachedBy c E' R, r ∈ reachedBy c E R := by
  intro r hr
  obtain ⟨hR, e, he, hc⟩ := mem_reachedBy.1 hr
  exact mem_reachedBy.2 ⟨hR, e, h e he, hc⟩

/-- Asking for entries that are not there changes nothing. -/
theorem diff_asked (fs : List Path) :
    E.diff (.ofList (FileSet.ofList
        (fs.filter (ofSets c E R).hasEntry)).toList)
      = E.diff (.ofList fs) := by
  ext g
  simp only [FileSet.ofList_toList, FileSet.mem_diff, FileSet.mem_ofList,
    List.mem_filter, hasEntry_ofSets, decide_eq_true_eq]
  constructor
  · intro h
    exact ⟨h.1, fun hg => h.2 ⟨hg, h.1⟩⟩
  · intro h
    exact ⟨h.1, fun hg => h.2 hg.1⟩

/-- **Removing** takes the entries out and reports the files that only they
reached. -/
theorem removeEntries_ofSets (fs : List Path) :
    (ofSets c E R).removeEntries fs
      = (ofSets c (E.diff (.ofList fs)) R,
          ((reachedBy c E R).diff
            (reachedBy c (E.diff (.ofList fs)) R)).toList) := by
  have hK : ∀ r ∈ reachedBy c E R, r ∈ R :=
    fun r hr => (mem_reachedBy.1 hr).1
  obtain ⟨touched, hdetach, htouched⟩ := foldl_detach_between (c := c) hK
    (FileSet.ofList (fs.filter (ofSets c E R).hasEntry)).toList E []
  rw [diff_asked] at hdetach
  have hiff (r : Path) : r ∈ touched
      ↔ r ∈ R ∧ ∃ f ∈ fs, f ∈ E ∧ c.covers f r = true := by
    rw [htouched]
    simp only [List.not_mem_nil, false_or, ← FileSet.mem_def,
      FileSet.mem_ofList, List.mem_filter, hasEntry_ofSets,
      decide_eq_true_eq, mem_coverageFor]
    constructor
    · intro h
      obtain ⟨f, ⟨hf, _⟩, hE, hR, hc⟩ := h
      exact ⟨hR, f, hf, hE, hc⟩
    · intro h
      obtain ⟨hR, f, hf, hE, hc⟩ := h
      exact ⟨f, ⟨hf, hE⟩, hE, hR, hc⟩
  -- what stays a key is what is still reached
  have hkeys : (reachedBy c E R).diff ((reachedBy c E R).diff
        (reachedBy c (E.diff (.ofList fs)) R))
      = reachedBy c (E.diff (.ofList fs)) R :=
    FileSet.diff_diff_of_subset
      (reachedBy_mono fun e he => (FileSet.mem_diff.1 he).1)
  rw [removeEntries_eq (m := ofSets c E R) hdetach
    fun r => (mem_lost_iff rfl).trans (by rw [hiff])]
  congr 1
  show CoverageMap.mk _ _ _ = CoverageMap.mk _ _ _
  congr 1
  refine (FileMap.foldl_erase_tabulate _ _).trans ?_
  rw [FileSet.ofList_toList, hkeys]

/-- Removing the only entry that reaches a required file uncovers the file, and
the removal reports it. -/
theorem removeEntry_of_sole (hR : r ∈ R)
    (h : reaching c E r = .ofList [e]) :
    r ∈ ((ofSets c E R).removeEntry e).2
      ∧ r ∈ ((ofSets c E R).removeEntry e).1.uncovered := by
  obtain ⟨he, hsole⟩ := reaching_eq_singleton_iff.1 h
  have hnone : ∀ g ∈ E.diff (.ofList [e]), ¬ c.covers g r = true := by
    intro g hg hc
    obtain ⟨hE, hne⟩ := FileSet.mem_diff.1 hg
    exact hne (by simp [hsole g hE hc])
  rw [removeEntry, removeEntries_ofSets, mem_uncovered_ofSets]
  refine ⟨?_, hR, hnone⟩
  refine FileSet.mem_diff.2 ⟨mem_reachedBy.2 ⟨hR, e, he⟩, fun hr => ?_⟩
  obtain ⟨g, hg, hc⟩ := (mem_reachedBy.1 hr).2
  exact hnone g hg hc

end CoverageMap

end IncludeBlock
