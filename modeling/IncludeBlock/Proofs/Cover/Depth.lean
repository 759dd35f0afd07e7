import IncludeBlock.Proofs.Cover.Reduction
import IncludeBlock.Proofs.Expansion.Memo

/-!
# An entry for every file, again and again

With one entry for every required file, the outcome depends on the entries only
where a file cannot have its own and keeps the lightest entry that reaches it
(`mem_minimalDepth_iff`). So the new entries are the required files that can
have one and had none (`mem_added_minimalDepth`), and an old entry is kept if it
is required or such a lightest one (`mem_wanted_minimalDepth`).

The first run takes the lightest from the entries that were there, without those
that it adds; when it is over, every file that can have an entry has it
(`settled_wanted`), and a new entry may turn out to be lighter. So a second run
may still drop entries. It adds none, so from then on the lightest ones are what
they are, and every further run changes nothing
(`Settled.minimalDepth_minimalDepth`).
-/

namespace IncludeBlock

/-- Whether `f` is preferred to `g`: it is lighter, or it comes first among
files of one weight. -/
def Catalog.Lighter (c : Catalog) (f g : Path) : Prop :=
  c.weight f < c.weight g ∨ (c.weight f = c.weight g ∧ f < g)

namespace Catalog

variable {c : Catalog} {f g k : Path}

theorem not_lighter_self (c : Catalog) (f : Path) : ¬ c.Lighter f f := by
  rintro (h | h)
  · exact Nat.lt_irrefl _ h
  · exact Path.lt_irrefl f h.2

theorem Lighter.trans (h : c.Lighter f g) (h' : c.Lighter g k) :
    c.Lighter f k := by
  rcases h with h | ⟨heq, h⟩
  · rcases h' with h' | ⟨heq', _⟩
    · exact .inl (Nat.lt_trans h h')
    · exact .inl (heq' ▸ h)
  · rcases h' with h' | ⟨heq', h'⟩
    · exact .inl (heq ▸ h')
    · exact .inr ⟨heq.trans heq', Path.lt_trans h h'⟩

/-- Of two files one is preferred. -/
theorem eq_of_not_lighter (h : ¬ c.Lighter f g) (h' : ¬ c.Lighter g f) :
    f = g := by
  simp only [Lighter, not_or, not_and] at h h'
  have hweight : c.weight f = c.weight g := by omega
  exact Path.eq_of_not_lt (h.2 hweight) (h'.2 hweight.symm)

end Catalog

namespace Cover

open CoverageMap Catalog

variable {c : Catalog} {policy : Policy} {E R : FileSet} {e f g r : Path}

/-! ## The lightest entry -/

/-- `e` is the lightest of the entries that reach `r`. -/
structure IsLightest (c : Catalog) (E : FileSet) (r e : Path) : Prop where
  mem : e ∈ E
  covers : c.covers e r = true
  least : ∀ g ∈ E, c.covers g r = true → ¬ c.Lighter g e

theorem IsLightest.unique (h : IsLightest c E r e) (h' : IsLightest c E r f) :
    e = f :=
  eq_of_not_lighter (h'.least e h.mem h.covers) (h.least f h'.mem h'.covers)

/-- Among fewer entries the lightest one is still the lightest, if it is one of
them. -/
theorem IsLightest.mono {E' : FileSet} (h : IsLightest c E r e)
    (hE : ∀ g ∈ E', g ∈ E) (he : e ∈ E') : IsLightest c E' r e where
  mem := he
  covers := h.covers
  least := fun g hg => h.least g (hE g hg)

theorem isLightest_of_lightest? (h : lightest? c (ofSets c E R) r = some e) :
    IsLightest c E r e where
  mem := (mem_of_lightest? h).1
  covers := (mem_of_lightest? h).2
  least := by
    intro g hg hc hlt
    rw [lightest?, get?_coveredBy_ofSets] at h
    split at h
    · have hmem : g ∈ (reaching c E r).toList := mem_reaching.2 ⟨hg, hc⟩
      refine Sorting.not_less_of_leastBy? ?_ ?_ h hmem ?_
      · intro a ha
        exact c.not_lighter_self a (by simpa [Lighter] using ha)
      · intro a b d hab hbd
        have ha : c.Lighter a b := by simpa [Lighter] using hab
        have hb : c.Lighter b d := by simpa [Lighter] using hbd
        simpa [Lighter] using ha.trans hb
      · simpa [Lighter] using hlt
    · cases h

theorem lightest?_eq_some_iff (hR : r ∈ R) :
    lightest? c (ofSets c E R) r = some e ↔ IsLightest c E r e := by
  constructor
  · exact isLightest_of_lightest?
  · intro h
    obtain ⟨f, hf⟩ := exists_lightest? hR h.mem h.covers
    rw [hf, (isLightest_of_lightest? hf).unique h]

/-- **What is kept for depth**: a required file that has or can have an entry
gets it, and for any other the lightest entry that reaches it is kept. -/
theorem mem_minimalDepth_iff : f ∈ minimalDepth c (ofSets c E R)
    ↔ (f ∈ R ∧ (f ∈ E ∨ c.isResolvable f = true))
      ∨ ∃ r ∈ R, r ∉ E ∧ c.isResolvable r = false ∧ IsLightest c E r f := by
  have hown : ∀ r, ((ofSets c E R).hasEntry r || c.isResolvable r) = true
      ↔ r ∈ E ∨ c.isResolvable r = true := by
    intro r
    rw [hasEntry_ofSets, Bool.or_eq_true, decide_eq_true_eq]
  rw [mem_minimalDepth_ofSets]
  constructor
  · rintro ⟨r, hR, hr⟩
    rw [ownOrLightest?] at hr
    split at hr
    · rename_i h
      cases hr
      exact .inl ⟨hR, (hown f).1 h⟩
    · rename_i h
      rw [hown, not_or, Bool.not_eq_true] at h
      exact .inr ⟨r, hR, h.1, h.2, (lightest?_eq_some_iff hR).1 hr⟩
  · rintro (⟨hR, h⟩ | ⟨r, hR, hE, hres, h⟩)
    · exact ⟨f, hR, by rw [ownOrLightest?, if_pos ((hown f).2 h)]⟩
    · refine ⟨r, hR, ?_⟩
      have hn : ¬ ((ofSets c E R).hasEntry r || c.isResolvable r) = true := by
        rw [hown, hres]
        simp [hE]
      rw [ownOrLightest?, if_neg hn]
      exact (lightest?_eq_some_iff hR).2 h

/-! ## What a run leaves -/

/-- To be the lightest is to be preferred to every other. -/
theorem isLightest_iff : IsLightest c E r e
    ↔ e ∈ E ∧ c.covers e r = true
      ∧ ∀ g ∈ E, c.covers g r = true → g = e ∨ c.Lighter e g := by
  constructor
  · intro h
    refine ⟨h.mem, h.covers, fun g hg hc => ?_⟩
    by_cases hlt : c.Lighter e g
    · exact .inr hlt
    · exact .inl (eq_of_not_lighter (h.least g hg hc) hlt)
  · intro h
    obtain ⟨he, hc, hleast⟩ := h
    refine ⟨he, hc, fun g hg hgc hlt => ?_⟩
    rcases hleast g hg hgc with heq | hlt'
    · rw [heq] at hlt
      exact c.not_lighter_self e hlt
    · exact c.not_lighter_self e (hlt'.trans hlt)

/-- A new entry is a required file that can have one. -/
theorem mem_added_minimalDepth : f ∈ (wanted c .minimalDepth E R).diff E
    ↔ f ∈ remaining c E R ∧ c.isResolvable f = true ∧ f ∉ E := by
  rw [FileSet.mem_diff, wanted, accepted, mem_minimalDepth_iff]
  constructor
  · intro h
    obtain ⟨hw, hn⟩ := h
    rcases hw with ⟨hR, hE | hres⟩ | ⟨r, _, _, _, hr⟩
    · exact absurd hE hn
    · exact ⟨hR, hres, hn⟩
    · exact absurd hr.mem hn
  · intro h
    obtain ⟨hR, hres, hn⟩ := h
    exact ⟨.inl ⟨hR, .inr hres⟩, hn⟩

/-- An old entry is kept if it is required or the lightest to reach a required
file that cannot have its own. -/
theorem mem_wanted_minimalDepth (he : e ∈ E) :
    e ∈ wanted c .minimalDepth E R
      ↔ e ∈ remaining c E R ∨ ∃ r ∈ remaining c E R, r ∉ E
        ∧ c.isResolvable r = false ∧ IsLightest c E r e := by
  rw [wanted, accepted, mem_minimalDepth_iff]
  refine or_congr_left ?_
  constructor
  · exact And.left
  · exact fun hR => ⟨hR, .inl he⟩

/-- **What one run for depth leaves.** The required files that were not given up
remain. Each of them that was an entry or can have one is an entry. Exactly
those get a new entry that can have one and had none. And an old entry survives
exactly if it is one of them, or if it is the least by weight and path of the
old entries that provide some file which had no entry and cannot have one. -/
theorem mem_entries_minimalDepth (x : Index) (d : Disk)
    (candidates required : List Path) :
    let c := x.catalog d
    let provides (e f : Path) : Prop := f = e ∨ f ∈ (x.expand d e).1.closure
    let weight (e : Path) : Nat := (x.expand d e).1.weight
    let m := build c candidates required
    let k := (reduce c .minimalDepth m).1
    let outcome := (reduce c .minimalDepth m).2
    (∀ f, f ∈ k.required ↔ f ∈ m.required ∧ f ∉ outcome.uncoverable)
      ∧ (∀ f ∈ k.required, f ∈ m.entries ∨ x.isResolvable d f = true →
          f ∈ k.entries)
      ∧ (∀ f, f ∈ outcome.add
          ↔ f ∈ k.required ∧ x.isResolvable d f = true ∧ f ∉ m.entries)
      ∧ ∀ e ∈ m.entries, e ∈ k.entries
          ↔ e ∈ k.required ∨ ∃ f ∈ k.required,
            f ∉ m.entries ∧ x.isResolvable d f = false ∧ provides e f
              ∧ ∀ g ∈ m.entries, provides g f →
                g = e ∨ weight e < weight g ∨ (weight e = weight g ∧ e < g) := by
  intro c provides weight m k outcome
  obtain ⟨E, R, hm⟩ : ∃ E R, build c candidates required = ofSets c E R :=
    ⟨_, _, build_eq ..⟩
  have hprovides : ∀ e f, provides e f ↔ c.covers e f = true :=
    fun _ _ => Index.covers_iff.symm
  have hweight : ∀ e, weight e = c.weight e := x.weight_expand d
  simp only [k, outcome, m, hm, hprovides, hweight, reduce_ofSets,
    entries_ofSets, required_ofSets, ← FileSet.mem_def]
  refine ⟨fun f => FileSet.mem_diff, fun f hf hown => ?_,
    fun f => mem_added_minimalDepth, fun e he => ?_⟩
  · exact mem_minimalDepth_iff.2 (.inl ⟨hf, hown⟩)
  · rw [mem_wanted_minimalDepth he]
    refine or_congr_right (exists_congr fun f => ?_)
    refine and_congr_right fun _ => and_congr_right fun _ =>
      and_congr_right fun _ => ?_
    rw [isLightest_iff, and_iff_right he]
    rfl

/-- `/b` is the lightest entry for `/s`, and `/q` gets its own. -/
example :
    let snapshot := (Snapshot.ofRows [(⟨"/a"⟩, 9, [⟨"/q"⟩, ⟨"/s"⟩]),
      (⟨"/b"⟩, 5, [⟨"/s"⟩]), (⟨"/q"⟩, 1, [])] {}).1
    let c := (Index.new snapshot.toSource).catalog ∅
    (reduce c .minimalDepth (build c [⟨"/a"⟩, ⟨"/b"⟩] [⟨"/q"⟩, ⟨"/s"⟩])).2
      = ⟨.ofList [⟨"/a"⟩], .ofList [⟨"/q"⟩], ∅⟩ := by
  decide +kernel

/-! ## Settled entries -/

/-- Every required file is reached, and has an entry if it can. -/
structure Settled (c : Catalog) (E R : FileSet) : Prop where
  reaches : ∀ r ∈ R, ∃ e ∈ E, c.covers e r = true
  own : ∀ r ∈ R, c.isResolvable r = true → r ∈ E

/-- **One run settles the entries.** -/
theorem settled_wanted (c : Catalog) (E R : FileSet) :
    Settled c (wanted c .minimalDepth E R) (remaining c E R) where
  reaches := reaches_wanted .minimalDepth
  own := fun _ hr hres => mem_minimalDepth_iff.2 (.inl ⟨hr, .inr hres⟩)

namespace Settled

theorem uncoverable_eq (h : Settled c E R) :
    uncoverable c (ofSets c E R) = ∅ := by
  ext r
  simp only [FileSet.not_mem_empty, iff_false]
  intro hr
  obtain ⟨hR, hn, _⟩ := mem_uncoverable_ofSets.1 hr
  obtain ⟨e, he, hc⟩ := h.reaches r hR
  exact hn e he hc

theorem remaining_eq (h : Settled c E R) : remaining c E R = R := by
  rw [remaining, h.uncoverable_eq]
  ext r
  simp

/-- Of settled entries some are kept and none are added. -/
theorem mem_minimalDepth (h : Settled c E R) :
    f ∈ minimalDepth c (ofSets c E R)
      ↔ f ∈ E ∧ (f ∈ R ∨ ∃ r ∈ R, r ∉ E ∧ IsLightest c E r f) := by
  rw [mem_minimalDepth_iff]
  constructor
  · rintro (⟨hR, hE | hres⟩ | ⟨r, hR, hE, _, hr⟩)
    · exact ⟨hE, .inl hR⟩
    · exact ⟨h.own f hR hres, .inl hR⟩
    · exact ⟨hr.mem, .inr ⟨r, hR, hE, hr⟩⟩
  · rintro ⟨hE, hR | ⟨r, hR, hrE, hr⟩⟩
    · exact .inl ⟨hR, .inl hE⟩
    · refine .inr ⟨r, hR, hrE, ?_, hr⟩
      cases hres : c.isResolvable r with
      | false => rfl
      | true => exact absurd (h.own r hR hres) hrE

/-- A settled entry is kept if it is required or the lightest to reach a
required file without an entry. -/
theorem kept_iff (h : Settled c E R) (he : e ∈ E) :
    e ∈ Cover.minimalDepth c (ofSets c E R)
      ↔ e ∈ R ∨ ∃ f ∈ R, f ∉ E ∧ c.covers e f = true
        ∧ ∀ g ∈ E, c.covers g f = true → ¬ c.Lighter g e := by
  rw [h.mem_minimalDepth, and_iff_right he]
  refine or_congr_right (exists_congr fun f => ?_)
  refine and_congr_right fun _ => and_congr_right fun _ => ?_
  exact ⟨fun hf => ⟨hf.covers, hf.least⟩, fun hf => ⟨he, hf.1, hf.2⟩⟩

theorem minimalDepth_subset (h : Settled c E R) :
    ∀ f ∈ minimalDepth c (ofSets c E R), f ∈ E :=
  fun _ hf => (h.mem_minimalDepth.1 hf).1

/-- The entries that are kept are settled. -/
theorem minimalDepth (h : Settled c E R) :
    Settled c (minimalDepth c (ofSets c E R)) R where
  reaches := fun r hR => isCover_minimalDepth.reaches r hR <| by
    obtain ⟨e, he, hc⟩ := h.reaches r hR
    exact ⟨e, mem_offered.2 (.inl he), hc⟩
  own := fun r hR hres => h.mem_minimalDepth.2 ⟨h.own r hR hres, .inl hR⟩

/-- **Of settled entries nothing more is dropped after one run.** -/
theorem minimalDepth_minimalDepth (h : Settled c E R) :
    Cover.minimalDepth c (ofSets c (Cover.minimalDepth c (ofSets c E R)) R)
      = Cover.minimalDepth c (ofSets c E R) := by
  ext f
  rw [h.minimalDepth.mem_minimalDepth]
  constructor
  · exact And.left
  · intro hf
    refine ⟨hf, ?_⟩
    rcases (h.mem_minimalDepth.1 hf).2 with hR | ⟨r, hR, hE, hr⟩
    · exact .inl hR
    · -- the lightest of all is kept, and the lightest of the kept ones
      exact .inr ⟨r, hR, fun hr' => hE (h.minimalDepth_subset r hr'),
        hr.mono h.minimalDepth_subset hf⟩

/-- A run on settled entries only drops. -/
theorem reduce_eq (h : Settled c E R) :
    reduce c .minimalDepth (ofSets c E R)
      = (ofSets c (Cover.minimalDepth c (ofSets c E R)) R,
          ⟨E.diff (Cover.minimalDepth c (ofSets c E R)), ∅, ∅⟩) := by
  have hwanted : wanted c .minimalDepth E R
      = Cover.minimalDepth c (ofSets c E R) := by
    rw [wanted, h.remaining_eq]
    rfl
  have hadd : (Cover.minimalDepth c (ofSets c E R)).diff E = ∅ :=
    FileSet.diff_eq_empty_iff.2 h.minimalDepth_subset
  rw [reduce_ofSets, hwanted, h.remaining_eq, h.uncoverable_eq, hadd]

end Settled

/-! ## Running again -/

/-- A run on the entries and the required files that an earlier one left. -/
def runAgain (c : Catalog) (k : CoverageMap) : CoverageMap × Reduction :=
  reduce c .minimalDepth (build c k.entries k.required.toList)

theorem build_toList (hE : ∀ f ∈ E, f.isEmpty = false)
    (hR : ∀ f ∈ R, f.isEmpty = false) :
    build c E.toList R.toList = ofSets c E R := by
  have hall : ∀ s : FileSet, (∀ f ∈ s, f.isEmpty = false) →
      s.toList.filter (!·.isEmpty) = s.toList := by
    intro s hs
    refine List.filter_eq_self.2 fun f hf => ?_
    rw [hs f hf]
    rfl
  rw [build_eq, hall E hE, hall R hR, FileSet.ofList_toList,
    FileSet.ofList_toList]

theorem Settled.runAgain_eq (h : Settled c E R)
    (hE : ∀ f ∈ E, f.isEmpty = false) (hR : ∀ f ∈ R, f.isEmpty = false) :
    runAgain c (ofSets c E R)
      = (ofSets c (Cover.minimalDepth c (ofSets c E R)) R,
          ⟨E.diff (Cover.minimalDepth c (ofSets c E R)), ∅, ∅⟩) := by
  rw [runAgain, entries_ofSets, required_ofSets, build_toList hE hR,
    h.reduce_eq]

/-- Another run changes nothing exactly if every entry is still wanted. -/
theorem Settled.runAgain_eq_self_iff (h : Settled c E R)
    (hE : ∀ f ∈ E, f.isEmpty = false) (hR : ∀ f ∈ R, f.isEmpty = false) :
    runAgain c (ofSets c E R) = (ofSets c E R, ⟨∅, ∅, ∅⟩)
      ↔ ∀ e ∈ E, e ∈ Cover.minimalDepth c (ofSets c E R) := by
  rw [h.runAgain_eq hE hR]
  constructor
  · intro heq
    have hdrop : E.diff (Cover.minimalDepth c (ofSets c E R)) = ∅ :=
      congrArg (·.2.drop) heq
    exact FileSet.diff_eq_empty_iff.1 hdrop
  · intro hall
    have hkept : Cover.minimalDepth c (ofSets c E R) = E := by
      ext f
      exact ⟨h.minimalDepth_subset f, hall f⟩
    rw [hkept, FileSet.diff_self]

/-- What nonempty entries become is nonempty. -/
theorem isEmpty_of_mem_wanted (hE : ∀ f ∈ E, f.isEmpty = false)
    (hR : ∀ f ∈ R, f.isEmpty = false) :
    ∀ f ∈ wanted c policy E R, f.isEmpty = false :=
  fun f hf => (mem_or_mem_of_mem_wanted hf).elim (hE f) (hR f)

/-- Only the lightest coverers of files without an entry are accepted beside
the required files. -/
theorem mem_remaining_of_mem_wanted (hf : f ∈ wanted c .minimalDepth E R)
    (hall : ∀ r ∈ remaining c E R, r ∈ wanted c .minimalDepth E R) :
    f ∈ remaining c E R := by
  rcases mem_minimalDepth_iff.1 hf with ⟨hR, _⟩ | ⟨r, hR, hE, hres, _⟩
  · exact hR
  · -- the file without an entry would have been accepted itself
    rcases mem_minimalDepth_iff.1 (hall r hR) with ⟨_, h | h⟩ | ⟨_, _, _, _, h⟩
    · exact absurd h hE
    · rw [hres] at h
      cases h
    · exact absurd h.mem hE

/-- After one run for depth a second one adds nothing and gives nothing up. An
accepted entry is still wanted if it is required, or if it is the lightest
accepted entry to reach a required file without an entry; the second run drops
the others, so it changes nothing exactly if all are still wanted, and so if
every required file has its entry. A third run always changes nothing. -/
theorem minimalDepth_again (x : Index) (d : Disk)
    (candidates required : List Path) :
    let c := x.catalog d
    let first := (reduce c .minimalDepth (build c candidates required)).1
    let second := runAgain c first
    let stillWanted (e : Path) : Prop :=
      e ∈ first.required ∨ ∃ f ∈ first.required, f ∉ first.entries
        ∧ c.covers e f = true
        ∧ ∀ g ∈ first.entries, c.covers g f = true → ¬ c.Lighter g e
    second.2.add = ∅ ∧ second.2.uncoverable = ∅
      ∧ (∀ e, e ∈ second.2.drop ↔ e ∈ first.entries ∧ ¬ stillWanted e)
      ∧ (second = (first, ⟨∅, ∅, ∅⟩) ↔ ∀ e ∈ first.entries, stillWanted e)
      ∧ ((∀ f ∈ first.required, f ∈ first.entries) →
          second = (first, ⟨∅, ∅, ∅⟩))
      ∧ runAgain c second.1 = (second.1, ⟨∅, ∅, ∅⟩) := by
  intro c first second stillWanted
  let E := FileSet.ofList (candidates.filter (!·.isEmpty))
  let R := FileSet.ofList (required.filter (!·.isEmpty))
  let W := wanted c .minimalDepth E R
  let Q := remaining c E R
  have hE : ∀ f ∈ E, f.isEmpty = false :=
    fun _ => FileSet.isEmpty_of_mem_ofList_filter
  have hR : ∀ f ∈ R, f.isEmpty = false :=
    fun _ => FileSet.isEmpty_of_mem_ofList_filter
  have hW : ∀ f ∈ W, f.isEmpty = false := isEmpty_of_mem_wanted hE hR
  have hQ : ∀ f ∈ Q, f.isEmpty = false :=
    fun f hf => hR f (FileSet.mem_diff.1 hf).1
  have h : Settled c W Q := settled_wanted c E R
  have hfirst : first = ofSets c W Q := by
    show (reduce c .minimalDepth (build c candidates required)).1 = _
    rw [build_eq, reduce_ofSets]
  let V := minimalDepth c (ofSets c W Q)
  have hV : ∀ f ∈ V, f.isEmpty = false :=
    fun f hf => hW f (h.minimalDepth_subset f hf)
  have hsecond : second = (ofSets c V Q, ⟨W.diff V, ∅, ∅⟩) := by
    show runAgain c first = _
    rw [hfirst]
    exact h.runAgain_eq hW hQ
  have hentries : ∀ e, e ∈ first.entries ↔ e ∈ W := by
    rw [hfirst, entries_ofSets]
    exact fun _ => Iff.rfl
  have hrequired : first.required = Q := by rw [hfirst, required_ofSets]
  have hwanted : ∀ e ∈ W, stillWanted e ↔ e ∈ V := by
    intro e he
    simp only [stillWanted, hentries, hrequired]
    exact (h.kept_iff he).symm
  have hself : second = (first, ⟨∅, ∅, ∅⟩) ↔ ∀ e ∈ W, e ∈ V := by
    rw [← h.runAgain_eq_self_iff hW hQ, ← hfirst]
  refine ⟨?_, ?_, ?_, ?_, ?_, ?_⟩
  · rw [hsecond]
  · rw [hsecond]
  · intro e
    rw [hentries, hsecond, FileSet.mem_diff]
    exact and_congr_right fun he => not_congr (hwanted e he).symm
  · rw [hself]
    refine forall_congr' fun e => ?_
    rw [hentries]
    exact forall_congr' fun he => (hwanted e he).symm
  · intro hall
    simp only [hentries, hrequired] at hall
    refine hself.2 fun e he => (hwanted e he).1 (.inl ?_)
    rw [hrequired]
    exact mem_remaining_of_mem_wanted he hall
  · rw [hsecond]
    show runAgain c (ofSets c V Q) = _
    rw [h.minimalDepth.runAgain_eq hV hQ, h.minimalDepth_minimalDepth,
      FileSet.diff_self]

/-- `/e` and `/q` include `/s`, which was never read. -/
def twiceIncluded : Source :=
  (Snapshot.ofRows [(⟨"/e"⟩, 9, [⟨"/s"⟩]), (⟨"/q"⟩, 1, [⟨"/s"⟩])] {}).1.toSource

/-- **A second run may drop what the first one kept.** The first run keeps
`/e`, the only entry to provide `/s`, and adds `/q`, which provides `/s` too and
is lighter. The second run drops `/e`. -/
theorem minimalDepth_again_twiceIncluded :
    let c := (Index.new twiceIncluded).catalog ∅
    let m := build c [⟨"/e"⟩] [⟨"/q"⟩, ⟨"/s"⟩]
    let first := (reduce c .minimalDepth m).1
    let second := runAgain c first
    first.entries = [⟨"/e"⟩, ⟨"/q"⟩]
      ∧ second.2.drop = .ofList [⟨"/e"⟩]
      ∧ second.1.entries = [⟨"/q"⟩] := by
  decide +kernel

end Cover

end IncludeBlock
