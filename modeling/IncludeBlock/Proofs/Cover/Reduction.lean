import IncludeBlock.Cover.Reduction
import IncludeBlock.Proofs.Cover.Sweep
import IncludeBlock.Snapshot.Basic

/-!
# What a reduction does to a coverage map

A reduction of the map of `E` and `R` gives up the required files that nothing
can reach and leaves the map of the accepted entries and the files that
remain (`reduce_ofSets`). All that is needed of a policy for this is that it
accepts a *cover*: entries that are offered and that reach every remaining
file. Both policies do, and then no file loses its last coverer when the
unwanted entries are removed, so nothing is ever promoted.

Of the two policies the one for few entries accepts only entries that are
needed (`reaching_wanted_minimalEntries`).
-/

namespace IncludeBlock

theorem Catalog.covers_self (c : Catalog) (f : Path) : c.covers f f = true := by
  simp [Catalog.covers]

namespace Cover

open CoverageMap

variable {c : Catalog} {policy : Policy} {E R W : FileSet} {e f r : Path}

/-! ## Files that nothing can reach -/

theorem mem_uncoverable_ofSets : r ∈ uncoverable c (ofSets c E R)
    ↔ r ∈ R ∧ (∀ e ∈ E, ¬ c.covers e r = true) ∧ c.isResolvable r = false := by
  rw [uncoverable, FileSet.mem_filter, mem_uncovered_ofSets, and_assoc,
    Bool.not_eq_true']

/-- The required files that remain when the hopeless ones are given up. -/
def remaining (c : Catalog) (E R : FileSet) : FileSet :=
  R.diff (uncoverable c (ofSets c E R))

theorem settle_ofSets :
    settle c (ofSets c E R) = ofSets c E (remaining c E R) := by
  rw [settle, foldl_forget_ofSets, FileSet.ofList_toList]
  rfl

theorem mem_remaining_of_isResolvable (hR : r ∈ R)
    (h : c.isResolvable r = true) : r ∈ remaining c E R := by
  refine FileSet.mem_diff.2 ⟨hR, fun hu => ?_⟩
  have hres := (mem_uncoverable_ofSets.1 hu).2.2
  rw [h] at hres
  cases hres

/-- What remains can be reached by something that is offered. -/
theorem exists_offered_of_mem_remaining (h : r ∈ remaining c E R) :
    ∃ f ∈ offered c E (remaining c E R), c.covers f r = true := by
  obtain ⟨hR, hn⟩ := FileSet.mem_diff.1 h
  cases hres : c.isResolvable r with
  | true => exact ⟨r, mem_offered.2 (.inr ⟨h, hres⟩), c.covers_self r⟩
  | false =>
      refine Classical.byContradiction fun hnone => hn ?_
      refine mem_uncoverable_ofSets.2 ⟨hR, fun e he hc => hnone ?_, hres⟩
      exact ⟨e, mem_offered.2 (.inl he), hc⟩

/-! ## What a policy accepts -/

/-- **A cover**: every file in it is offered, and it reaches every file that
anything offered reaches. -/
structure IsCover (c : Catalog) (E R W : FileSet) : Prop where
  offered : ∀ f ∈ W, f ∈ offered c E R
  reaches : ∀ r ∈ R, (∃ f ∈ Cover.offered c E R, c.covers f r = true) →
    ∃ f ∈ W, c.covers f r = true

theorem exclusive_offered :
    ∀ f ∈ (ofSets c E R).exclusive, f ∈ (choices c (ofSets c E R)).keys := by
  intro f hf
  rw [choices_ofSets, FileMap.keys_tabulate]
  exact mem_offered.2 (.inl (mem_of_mem_exclusive hf))

/-- The loop of choices on a map ends by itself. -/
theorem chooses_chosen (c : Catalog) (E R : FileSet) :
    Chooses c (ofSets c E R) (choices c (ofSets c E R))
      (ofSets c E R).exclusive (unsettled c (ofSets c E R))
      (chosen c (ofSets c E R)) :=
  chooses_choose (Choosing.init exclusive_offered) (Nat.le_refl _)

theorem choosing_chosen (c : Catalog) (E R : FileSet) :
    Choosing (choices c (ofSets c E R)) (chosen c (ofSets c E R)) ∅ :=
  (chooses_chosen c E R).conclude (Choosing.init exclusive_offered)

theorem isCover_minimalEntries :
    IsCover c E R (minimalEntries c (ofSets c E R)) where
  offered := by
    intro f hf
    have hkeys := (choosing_chosen c E R).offered f (prune_subset f hf)
    rwa [choices_ofSets, FileMap.keys_tabulate] at hkeys
  reaches := by
    intro r hR hex
    have hcoverable := mem_coverable_choices.2 ⟨hR, hex⟩
    have hreached := (choosing_chosen c E R).reached_of_coverable hcoverable
    obtain ⟨f, hf, hr⟩ := mem_reached.1 (reached_prune.2 hreached)
    exact ⟨f, hf, (mem_reach_choices.1 hr).2.2⟩

theorem mem_of_lightest? (h : lightest? c (ofSets c E R) r = some f) :
    f ∈ E ∧ c.covers f r = true := by
  have hmem := Sorting.mem_of_leastBy? h
  rw [get?_coveredBy_ofSets] at hmem
  split at hmem
  · exact mem_reaching.1 hmem
  · cases hmem

/-- A required file that some entry reaches has a lightest one. -/
theorem exists_lightest? (hR : r ∈ R) (he : e ∈ E)
    (hc : c.covers e r = true) : ∃ f, lightest? c (ofSets c E R) r = some f := by
  cases h : lightest? c (ofSets c E R) r with
  | some f => exact ⟨f, rfl⟩
  | none =>
      have hnil := Sorting.leastBy?_eq_none_iff.1 h
      rw [get?_coveredBy_ofSets,
        if_pos (mem_reachedBy.2 ⟨hR, e, he, hc⟩)] at hnil
      have hmem : e ∈ (CoverageMap.reaching c E r).toList :=
        mem_reaching.2 ⟨he, hc⟩
      rw [show (CoverageMap.reaching c E r).toList = [] from hnil] at hmem
      cases hmem

theorem mem_minimalDepth_ofSets : f ∈ minimalDepth c (ofSets c E R)
    ↔ ∃ r ∈ R, ownOrLightest? c (ofSets c E R) r = some f := by
  rw [minimalDepth, FileSet.mem_ofList, List.mem_filterMap]
  exact Iff.rfl

theorem isCover_minimalDepth :
    IsCover c E R (minimalDepth c (ofSets c E R)) where
  offered := by
    intro f hf
    obtain ⟨r, hR, hr⟩ := mem_minimalDepth_ofSets.1 hf
    rw [ownOrLightest?] at hr
    split at hr
    · rename_i hown
      cases hr
      rw [hasEntry_ofSets, Bool.or_eq_true, decide_eq_true_eq] at hown
      rcases hown with hE | hres
      · exact mem_offered.2 (.inl hE)
      · exact mem_offered.2 (.inr ⟨hR, hres⟩)
    · exact mem_offered.2 (.inl (mem_of_lightest? hr).1)
  reaches := by
    intro r hR hex
    obtain ⟨g, hg, hc⟩ := hex
    by_cases hown : ((ofSets c E R).hasEntry r || c.isResolvable r) = true
    · refine ⟨r, mem_minimalDepth_ofSets.2 ⟨r, hR, ?_⟩, c.covers_self r⟩
      rw [ownOrLightest?, if_pos hown]
    · rcases mem_offered.1 hg with hE | ⟨hgR, hres⟩
      · -- some entry reaches the file, so the lightest of them is kept
        obtain ⟨f, hf⟩ := exists_lightest? hR hE hc
        refine ⟨f, mem_minimalDepth_ofSets.2 ⟨r, hR, ?_⟩,
          (mem_of_lightest? hf).2⟩
        rw [ownOrLightest?, if_neg hown, hf]
      · -- a required file that has its own entry reaches it
        refine ⟨g, mem_minimalDepth_ofSets.2 ⟨g, hgR, ?_⟩, hc⟩
        rw [ownOrLightest?, if_pos (by rw [hres, Bool.or_true])]

/-- **Both policies accept a cover.** -/
theorem isCover_accepted (policy : Policy) :
    IsCover c E R (accepted c policy (ofSets c E R)) := by
  cases policy with
  | minimalEntries => exact isCover_minimalEntries
  | minimalDepth => exact isCover_minimalDepth

/-! ## Exchanging entries -/

theorem unwanted_ofSets : unwanted (ofSets c E R) W = E.diff W := by
  rw [unwanted, entries_ofSets, FileSet.ofList_toList]

theorem missing_ofSets : missing (ofSets c E R) W = W.diff E := by
  ext f
  simp [missing]

/-- Adding what is missing and removing what is unwanted leaves the wanted
entries. -/
theorem exchange_ofSets : exchange c (ofSets c E R) W
    = (ofSets c W R,
        ((reachedBy c (E.union (W.diff E)) R).diff (reachedBy c W R)).toList) := by
  have hwanted : (E.union (W.diff E)).diff (E.diff W) = W := by
    ext f
    simp only [FileSet.mem_diff, FileSet.mem_union]
    by_cases hW : f ∈ W <;> by_cases hE : f ∈ E <;> simp [hW, hE]
  rw [exchange, unwanted_ofSets, missing_ofSets, foldl_addEntry_ofSets]
  show removeEntries (ofSets c (E.union (W.diff E)) R) _ = _
  rw [removeEntries_ofSets, FileSet.ofList_toList, hwanted]

/-- **No file loses its last coverer** while the entries are exchanged, if the
wanted ones reach all that is required. -/
theorem lost_of_reaches (h : ∀ r ∈ R, ∃ f ∈ W, c.covers f r = true) :
    (exchange c (ofSets c E R) W).2 = [] := by
  rw [exchange_ofSets]
  refine List.eq_nil_iff_forall_not_mem.2 fun r hr => ?_
  obtain ⟨hold, hnew⟩ := FileSet.mem_diff.1 (FileSet.mem_def.2 hr)
  have hR := (mem_reachedBy.1 hold).1
  exact hnew (mem_reachedBy.2 ⟨hR, h r hR⟩)

/-! ## The reduction -/

/-- The entries that a policy accepts for what remains. -/
def wanted (c : Catalog) (policy : Policy) (E R : FileSet) : FileSet :=
  accepted c policy (ofSets c E (remaining c E R))

theorem isCover_wanted (policy : Policy) :
    IsCover c E (remaining c E R) (wanted c policy E R) :=
  isCover_accepted policy

/-- The accepted entries reach everything that remains. -/
theorem reaches_wanted (policy : Policy) :
    ∀ r ∈ remaining c E R, ∃ f ∈ wanted c policy E R, c.covers f r = true :=
  fun r hr => (isCover_wanted policy).reaches r hr
    (exists_offered_of_mem_remaining hr)

/-- Nothing is lost in a reduction. -/
theorem lost_settle (c : Catalog) (policy : Policy) (E R : FileSet) :
    let n := settle c (ofSets c E R)
    (exchange c n (accepted c policy n)).2 = [] := by
  intro n
  have hn : n = ofSets c E (remaining c E R) := settle_ofSets
  rw [hn]
  exact lost_of_reaches (reaches_wanted policy)

/-- So a reduction is the exchange for the accepted entries: nothing is
promoted after it. -/
theorem reduce_eq_exchange (c : Catalog) (policy : Policy) (E R : FileSet) :
    let n := settle c (ofSets c E R)
    reduce c policy (ofSets c E R) = ((exchange c n (accepted c policy n)).1,
      ⟨unwanted n (accepted c policy n), missing n (accepted c policy n),
        uncoverable c (ofSets c E R)⟩) := by
  intro n
  have hexchange : exchange c n (accepted c policy n)
      = ((exchange c n (accepted c policy n)).1, []) :=
    Prod.ext rfl (lost_settle c policy E R)
  rw [reduce]
  dsimp only
  rw [hexchange]
  rfl

/-- **The outcome of a reduction**: the map of the accepted entries and the
files that remain. -/
theorem reduce_ofSets (c : Catalog) (policy : Policy) (E R : FileSet) :
    reduce c policy (ofSets c E R)
      = (ofSets c (wanted c policy E R) (remaining c E R),
          { drop := E.diff (wanted c policy E R)
            add := (wanted c policy E R).diff E
            uncoverable := uncoverable c (ofSets c E R) }) := by
  rw [reduce_eq_exchange, settle_ofSets, exchange_ofSets, unwanted_ofSets,
    missing_ofSets]
  rfl

theorem mem_or_mem_of_mem_wanted (h : f ∈ wanted c policy E R) :
    f ∈ E ∨ f ∈ R := by
  rcases mem_offered.1 ((isCover_wanted policy).offered f h) with hE | ⟨hR, _⟩
  · exact .inl hE
  · exact .inr (FileSet.mem_diff.1 hR).1

/-- Dropping and adding what the reduction says turns the old entries into the
accepted ones. -/
theorem build_wanted (hE : ∀ f ∈ E, f.isEmpty = false)
    (hR : ∀ f ∈ R, f.isEmpty = false) :
    build c
        (E.toList.filter (· ∉ E.diff (wanted c policy E R))
          ++ ((wanted c policy E R).diff E).toList)
        (R.toList.filter (· ∉ uncoverable c (ofSets c E R)))
      = ofSets c (wanted c policy E R) (remaining c E R) := by
  rw [build_eq]
  congr 1
  · ext f
    rw [FileSet.mem_ofList, List.mem_filter, List.mem_append, List.mem_filter,
      ← FileSet.mem_def, ← FileSet.mem_def, decide_eq_true_eq, FileSet.mem_diff,
      FileSet.mem_diff, Bool.not_eq_true']
    constructor
    · intro h
      rcases h.1 with ⟨hf, hn⟩ | hf
      · exact Decidable.byContradiction fun hw => hn ⟨hf, hw⟩
      · exact hf.1
    · intro hw
      constructor
      · by_cases hf : f ∈ E
        · exact .inl ⟨hf, fun hn => hn.2 hw⟩
        · exact .inr ⟨hw, hf⟩
      · rcases mem_or_mem_of_mem_wanted hw with hf | hf
        · exact hE f hf
        · exact hR f hf
  · ext f
    rw [FileSet.mem_ofList, List.mem_filter, List.mem_filter,
      ← FileSet.mem_def, decide_eq_true_eq, remaining, FileSet.mem_diff,
      Bool.not_eq_true']
    constructor
    · exact And.left
    · intro h
      exact ⟨h, hR f h.1⟩

/-- Each entry that is accepted because few are wanted is the only one to reach
some file that remains. -/
theorem reaching_wanted_minimalEntries
    (h : e ∈ wanted c .minimalEntries E R) :
    ∃ r ∈ remaining c E R,
      reaching c (wanted c .minimalEntries E R) r = .ofList [e] := by
  obtain ⟨r, hr, hsole⟩ := exists_sole_of_mem_prune h
  obtain ⟨_, hrem, hc⟩ := mem_reach_choices.1 hr
  refine ⟨r, hrem, reaching_eq_singleton_iff.2 ⟨⟨h, hc⟩, fun g hg hgr => ?_⟩⟩
  have hoffered := (isCover_wanted .minimalEntries).offered g hg
  exact hsole g hg (mem_reach_choices.2 ⟨hoffered, hrem, hgr⟩)

/-- **A reduction is correct.** The loop of choices ends by itself. Only
entries are dropped, and only required files without an entry are added or
given up. What is left is sound: it is the map that would be built from the
entries after dropping and adding, over the required files that were not given
up. And no file is ever without a coverer in between, so none is promoted. -/
theorem reduce_sound (x : Index) (d : Disk) (policy : Policy)
    (candidates required : List Path) :
    let c := x.catalog d
    let m := build c candidates required
    let n := settle c m
    let k := (reduce c policy m).1
    let r := (reduce c policy m).2
    Chooses c n (choices c n) n.exclusive (unsettled c n) (chosen c n)
      ∧ (∀ f ∈ r.drop, f ∈ m.entries)
      ∧ (∀ f ∈ r.add, f ∉ m.entries ∧ f ∈ m.required)
      ∧ (∀ f ∈ r.uncoverable, f ∈ m.required)
      ∧ k.isSound = true
      ∧ (∀ f ∈ k.required, ∃ e ∈ k.entries, c.covers e f = true)
      ∧ k = build c (m.entries.filter (· ∉ r.drop) ++ r.add.toList)
          (m.required.toList.filter (· ∉ r.uncoverable))
      ∧ (exchange c n (accepted c policy n)).2 = []
      ∧ reduce c policy m = ((exchange c n (accepted c policy n)).1,
          ⟨unwanted n (accepted c policy n), missing n (accepted c policy n),
            uncoverable c m⟩) := by
  intro c m n k r
  let E := FileSet.ofList (candidates.filter (!·.isEmpty))
  let R := FileSet.ofList (required.filter (!·.isEmpty))
  have hnonempty : ∀ fs : List Path,
      ∀ f ∈ FileSet.ofList (fs.filter (!·.isEmpty)), f.isEmpty = false := by
    intro fs f hf
    simpa using (List.mem_filter.1 (FileSet.mem_ofList.1 hf)).2
  have hE : ∀ f ∈ E, f.isEmpty = false := hnonempty candidates
  have hR : ∀ f ∈ R, f.isEmpty = false := hnonempty required
  have hm : m = ofSets c E R := build_eq c candidates required
  have hn : n = settle c (ofSets c E R) := congrArg (settle c) hm
  have hreduce := reduce_ofSets c policy E R
  rw [← hm] at hreduce
  have hk : k = ofSets c (wanted c policy E R) (remaining c E R) :=
    congrArg Prod.fst hreduce
  have hr : r = ⟨E.diff (wanted c policy E R), (wanted c policy E R).diff E,
      uncoverable c m⟩ := congrArg Prod.snd hreduce
  clear_value k r n m E R
  refine ⟨?_, ?_, ?_, ?_, ?_, ?_, ?_, ?_, ?_⟩
  · rw [hn, settle_ofSets]
    exact chooses_chosen c E _
  · intro f hf
    rw [hr] at hf
    rw [hm, entries_ofSets]
    exact (FileSet.mem_diff.1 hf).1
  · intro f hf
    rw [hr] at hf
    obtain ⟨hw, hn⟩ := FileSet.mem_diff.1 hf
    rw [hm, entries_ofSets, required_ofSets]
    exact ⟨fun he => hn he, (mem_or_mem_of_mem_wanted hw).resolve_left hn⟩
  · intro f hf
    rw [hr, hm] at hf
    rw [hm]
    exact (mem_uncoverable_ofSets.1 hf).1
  · rw [hk, isSound_ofSets]
    exact reaches_wanted policy
  · intro f hf
    rw [hk] at hf ⊢
    rw [entries_ofSets]
    exact reaches_wanted policy f hf
  · rw [hk, hr, hm, entries_ofSets]
    exact (build_wanted hE hR).symm
  · rw [hn]
    exact lost_settle c policy E R
  · rw [hn, hm]
    exact reduce_eq_exchange c policy E R

/-- **Every accepted entry is needed** where few entries are wanted: it is the
only one to reach some required file, and removing it uncovers that file. -/
theorem exists_sole_of_mem_entries (x : Index) (d : Disk)
    (candidates required : List Path) :
    let c := x.catalog d
    let k := (reduce c .minimalEntries (build c candidates required)).1
    ∀ e ∈ k.entries, ∃ r ∈ k.required,
      k.coveredBy.get? r = some (.ofList [e])
        ∧ r ∈ (k.removeEntry e).2
        ∧ r ∈ (k.removeEntry e).1.uncovered := by
  intro c k e he
  let E := FileSet.ofList (candidates.filter (!·.isEmpty))
  let R := FileSet.ofList (required.filter (!·.isEmpty))
  have hk : k = ofSets c (wanted c .minimalEntries E R) (remaining c E R) := by
    show (reduce c .minimalEntries (build c candidates required)).1 = _
    rw [build_eq, reduce_ofSets]
  clear_value k E R
  rw [hk, entries_ofSets] at he
  obtain ⟨r, hr, hsole⟩ :=
    reaching_wanted_minimalEntries (FileSet.mem_def.2 he)
  have hreached := mem_reachedBy.2 ⟨hr, reaches_wanted .minimalEntries r hr⟩
  rw [hk]
  refine ⟨r, ?_, ?_, ?_⟩
  · rw [required_ofSets]
    exact hr
  · rw [get?_coveredBy_ofSets, if_pos hreached, hsole]
  · exact removeEntry_of_sole hr hsole

/-- An index where `/a` provides all that `/b` does, and more. -/
def overlapping : Index :=
  Index.new (Snapshot.ofRows [(⟨"/a"⟩, 1, [⟨"/x"⟩, ⟨"/y"⟩]),
    (⟨"/b"⟩, 1, [⟨"/y"⟩]), (⟨"/x"⟩, 1, []), (⟨"/y"⟩, 1, [])] {}).1.toSource

theorem exists_sole_overlapping :
    let c := overlapping.catalog ∅
    let k := (reduce c .minimalEntries
      (build c [⟨"/a"⟩, ⟨"/b"⟩] [⟨"/x"⟩, ⟨"/y"⟩])).1
    k.entries = [⟨"/a"⟩] ∧ ∃ r ∈ k.required,
      k.coveredBy.get? r = some (.ofList [⟨"/a"⟩])
        ∧ r ∈ (k.removeEntry ⟨"/a"⟩).2
        ∧ r ∈ (k.removeEntry ⟨"/a"⟩).1.uncovered :=
  ⟨by decide +kernel, exists_sole_of_mem_entries overlapping ∅
    [⟨"/a"⟩, ⟨"/b"⟩] [⟨"/x"⟩, ⟨"/y"⟩] ⟨"/a"⟩ (by decide +kernel)⟩

end Cover

end IncludeBlock
