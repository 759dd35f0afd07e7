import IncludeBlock.Proofs.Cover.GivenUp
import Mathlib.Combinatorics.Enumerative.DoubleCounting

/-!
# What takes the place of what

A file that only one file on offer provides keeps that one: there is nothing to
take its place (`mem_wanted_of_sole`).

Where few entries are wanted, a new entry may take the place of old ones. Every
entry that provides the new file reaches all that the file reaches, so it was
as good a choice by number and lost by weight (`outdone`). With the file chosen
nothing is left for such an entry to reach, so it is not chosen any more, and
neither is a second file in its place (`Displacing`). So there are no more new
entries of that kind than entries that are dropped (`size_replacing_le`), and a
block grows at most by the files that no entry provided.
-/

namespace IncludeBlock

namespace FileSet

variable {s t : FileSet} {f : Path}

/-! ## Sizes of sets -/

/-- The members of a set, without their order. -/
def toFinset (s : FileSet) : Finset Path := ⟨s.toList, s.nodup⟩

@[simp] theorem mem_toFinset : f ∈ s.toFinset ↔ f ∈ s := Iff.rfl

@[simp] theorem card_toFinset (s : FileSet) : s.toFinset.card = s.size := rfl

@[simp] theorem toFinset_diff (s t : FileSet) :
    (s.diff t).toFinset = s.toFinset \ t.toFinset := by
  ext f
  simp

/-- A set with as many members as a larger one is the same set. -/
theorem mem_of_subset_of_size_le (h : ∀ g ∈ s, g ∈ t) (hsize : t.size ≤ s.size)
    (hf : f ∈ t) : f ∈ s := by
  have heq : s.toFinset = t.toFinset := Finset.eq_of_subset_of_card_le h hsize
  rwa [← mem_toFinset, heq]

theorem size_le_of_subset (h : ∀ g ∈ s, g ∈ t) : s.size ≤ t.size := by
  rw [← card_toFinset, ← card_toFinset]
  exact Finset.card_le_card h

/-- What each of two sets has over the other makes up for their sizes. -/
theorem size_add_size_diff (s t : FileSet) :
    s.size + (t.diff s).size = t.size + (s.diff t).size := by
  have hs := Finset.card_sdiff_add_card_inter s.toFinset t.toFinset
  have ht := Finset.card_sdiff_add_card_inter t.toFinset s.toFinset
  rw [Finset.inter_comm] at ht
  simp only [← toFinset_diff, card_toFinset] at hs ht
  omega

theorem size_le_size_diff_add (s t : FileSet) :
    s.size ≤ (s.diff t).size + t.size := by
  have h := Finset.card_le_card_sdiff_add_card (s := s.toFinset) (t := t.toFinset)
  rwa [← toFinset_diff] at h

/-- A set is no larger than another one if each of its members is matched with
one of the other, and no two with the same. -/
theorem size_le_of_matching {p : Path → Path → Prop}
    (hex : ∀ f ∈ s, ∃ g ∈ t, p f g)
    (hone : ∀ g ∈ t, ∀ f ∈ s, ∀ f' ∈ s, p f g → p f' g → f = f') :
    s.size ≤ t.size := by
  rw [← card_toFinset, ← card_toFinset]
  refine Finset.card_le_card_of_forall_subsingleton p hex ?_
  intro g hg f hf f' hf'
  exact hone g hg f hf.1 f' hf'.1 hf.2 hf'.2

end FileSet

namespace Cover

open CoverageMap

variable {c : Catalog} {m : CoverageMap} {u : Universe} {policy : Policy}
  {E R selected left result : FileSet} {e f g k n n' r : Path}

/-! ## What cannot be replaced -/

/-- Whatever is accepted was on offer from the start. -/
theorem mem_offered_of_mem_wanted (h : f ∈ wanted c policy E R) :
    f ∈ offered c E R := by
  have hf := (isCover_wanted policy).offered f h
  rw [mem_offered] at hf ⊢
  exact hf.imp_right fun hf => ⟨(FileSet.mem_diff.1 hf.1).1, hf.2⟩

/-- A new entry is for a required file that can have one. -/
theorem required_of_mem_added (h : f ∈ (wanted c policy E R).diff E) :
    f ∈ R ∧ c.isResolvable f = true := by
  obtain ⟨hw, hE⟩ := FileSet.mem_diff.1 h
  exact (mem_offered.1 (mem_offered_of_mem_wanted hw)).resolve_left hE

/-- **Without an alternative a file is accepted**, also for the sake of a file
that is given up. -/
theorem mem_wanted_of_sole (hc : c.IsTransitive) (hR : r ∈ R)
    (hf : f ∈ offered c E R) (hfr : c.covers f r = true)
    (hsole : ∀ g ∈ offered c E R, c.covers g r = true → g = f) :
    f ∈ wanted c policy E R := by
  have hex : ∃ w ∈ wanted c policy E R, c.covers w r = true := by
    by_cases hr : r ∈ uncoverable c (ofSets c E R)
    · exact (exists_wanted_covers_iff hc hr).2 ⟨f, hf, hfr⟩
    · exact reaches_wanted policy r (FileSet.mem_diff.2 ⟨hR, hr⟩)
  obtain ⟨w, hw, hwr⟩ := hex
  rwa [← hsole w (mem_offered_of_mem_wanted hw) hwr]

/-- **A sole provider is kept**, whatever is wanted. A file may be chosen if it
is an entry or a required file that can have one. If exactly one such file
provides a required file, it is an entry in the end, also if the required file
was given up. -/
theorem mem_entries_of_sole_provider (s : Source) (earlier : List (Disk × Path))
    (d : Disk) (policy : Policy) (candidates required : List Path) :
    let x := Index.after s earlier
    let provides (e f : Path) : Prop := f = e ∨ f ∈ (x.expand d e).1.closure
    let m := build (x.catalog d) candidates required
    let k := (reduce (x.catalog d) policy m).1
    let eligible (u : Path) : Prop :=
      u ∈ m.entries ∨ (u ∈ m.required ∧ x.isResolvable d u = true)
    ∀ f ∈ m.required, ∀ u, (∀ v, eligible v ∧ provides v f ↔ v = u) →
      u ∈ k.entries := by
  intro x provides m k eligible
  obtain ⟨E, R, hm⟩ : ∃ E R, build (x.catalog d) candidates required
      = ofSets (x.catalog d) E R := ⟨_, _, build_eq ..⟩
  have hc : (x.catalog d).IsTransitive := Index.isTransitive_after s earlier d
  have heligible : ∀ u, u ∈ offered (x.catalog d) E R
      ↔ u ∈ E ∨ (u ∈ R ∧ x.isResolvable d u = true) := fun _ => mem_offered
  simp only [provides, eligible, k, m, hm, reduce_ofSets, entries_ofSets,
    required_ofSets, ← FileSet.mem_def, ← Index.covers_iff, ← heligible]
  intro f hf u hsole
  obtain ⟨hu, huf⟩ := (hsole u).2 rfl
  exact mem_wanted_of_sole hc hf hu huf fun v hv hvf => (hsole v).1 ⟨hv, hvf⟩

/-- Only `/q` provides `/s`, which is given up all the same. -/
theorem mem_entries_of_sole_provider_stubbed :
    let x := Index.after stubbed []
    let m := build (x.catalog ∅) [] [⟨"/q"⟩, ⟨"/s"⟩]
    ⟨"/s"⟩ ∈ uncoverable (x.catalog ∅) m
      ∧ ⟨"/q"⟩ ∈ (reduce (x.catalog ∅) .minimalEntries m).1.entries
      ∧ ⟨"/q"⟩ ∈ (reduce (x.catalog ∅) .minimalDepth m).1.entries := by
  intro x m
  have hentries : m.entries = [] := by decide +kernel
  have hrequired : m.required.toList = [⟨"/q"⟩, ⟨"/s"⟩] := by decide +kernel
  have hs : ⟨"/s"⟩ ∈ m.required := by decide +kernel
  have hstub : x.isResolvable ∅ ⟨"/s"⟩ = false := by decide +kernel
  have hsole : ∀ v : Path,
      (v ∈ m.entries ∨ (v ∈ m.required ∧ x.isResolvable ∅ v = true))
          ∧ ((⟨"/s"⟩ : Path) = v ∨ ⟨"/s"⟩ ∈ (x.expand ∅ v).1.closure)
        ↔ v = ⟨"/q"⟩ := by
    intro v
    constructor
    · intro h
      rcases h.1 with hv | ⟨hv, hres⟩
      · rw [hentries] at hv
        cases hv
      · rw [FileSet.mem_def, hrequired] at hv
        rcases List.mem_cons.1 hv with heq | hv
        · exact heq
        · rw [List.mem_singleton.1 hv, hstub] at hres
          cases hres
    · intro heq
      rw [heq]
      exact ⟨.inr (by decide +kernel), by decide +kernel⟩
  exact ⟨by decide +kernel,
    mem_entries_of_sole_provider stubbed [] ∅ .minimalEntries []
      [⟨"/q"⟩, ⟨"/s"⟩] ⟨"/s"⟩ hs ⟨"/q"⟩ hsole,
    mem_entries_of_sole_provider stubbed [] ∅ .minimalDepth []
      [⟨"/q"⟩, ⟨"/s"⟩] ⟨"/s"⟩ hs ⟨"/q"⟩ hsole⟩

/-! ## The best choice -/

theorem isBetter_iff : isBetter c m u left f g = true
    ↔ gain u left g < gain u left f ∨ (gain u left f = gain u left g
      ∧ (c.weight f < c.weight g ∨ (c.weight f = c.weight g
        ∧ ((m.hasEntry f = true ∧ m.hasEntry g = false)
          ∨ (m.hasEntry f = m.hasEntry g ∧ f < g))))) := by
  simp only [isBetter, Bool.or_eq_true, Bool.and_eq_true, decide_eq_true_eq,
    beq_iff_eq, Bool.not_eq_true', gt_iff_lt]

theorem not_isBetter_self : ¬ isBetter c m u left f f = true := by
  rw [isBetter_iff]
  have := Path.lt_irrefl f
  cases m.hasEntry f <;> simp [this]

theorem isBetter_trans (h : isBetter c m u left f g = true)
    (h' : isBetter c m u left g k = true) :
    isBetter c m u left f k = true := by
  rw [isBetter_iff] at h h' ⊢
  have htrans : f < g → g < k → f < k := Path.lt_trans
  grind

/-- Nothing that could be chosen is better than what is. -/
theorem not_isBetter_of_best? (h : best? c m u selected left = some f)
    (hg : g ∉ selected) (hr : r ∈ left) (hgr : r ∈ reach u g) :
    ¬ isBetter c m u left g f = true := by
  refine Sorting.not_less_of_leastBy? (fun _ => not_isBetter_self)
    (fun _ _ _ => isBetter_trans) h ?_
  refine List.mem_filter.2 ⟨mem_keys_of_mem_reach hgr, ?_⟩
  exact decide_eq_true ⟨hg, gain_pos_iff.2 ⟨r, hr, hgr⟩⟩

/-- A file that was forced is the only one to reach some file that is left. -/
theorem sole_of_forced? (h : forced? u left = some f) :
    ∃ r ∈ left, ∀ g, r ∈ reach u g ↔ g = f := by
  obtain ⟨r, hr, hf⟩ := List.exists_of_findSome?_eq_some h
  refine ⟨r, hr, fun g => ?_⟩
  split at hf
  · rename_i hc
    cases hf
    rw [← mem_coverers, hc, List.mem_singleton]
  · cases hf

/-- A file is chosen as the best one, and not forced, if another one reaches all
that it reaches. -/
theorem best?_of_next? (h : next? c m u selected left = some f)
    (hsub : ∀ r ∈ reach u f, r ∈ reach u g) (hne : g ≠ f) :
    best? c m u selected left = some f := by
  rw [next?] at h
  cases hforced : forced? u left with
  | none => rwa [hforced, Option.none_or] at h
  | some k =>
      rw [hforced, Option.some_or] at h
      cases h
      obtain ⟨r, _, hsole⟩ := sole_of_forced? hforced
      exact absurd ((hsole g).1 (hsub r ((hsole f).2 rfl))) hne

theorem mem_filter_reach : r ∈ left.filter (· ∈ reach u f)
    ↔ r ∈ left ∧ r ∈ reach u f := by
  rw [FileSet.mem_filter, decide_eq_true_eq]

/-- A file gains no less than one whose reach it includes, -/
theorem gain_le_gain (left : FileSet)
    (hsub : ∀ r ∈ reach u f, r ∈ reach u g) :
    gain u left f ≤ gain u left g := by
  refine FileSet.size_le_of_subset fun r hr => ?_
  rw [mem_filter_reach] at hr ⊢
  exact ⟨hr.1, hsub r hr.2⟩

/-- and if it gains no more either, both reach the same of what is left. -/
theorem mem_reach_of_gain_le (hsub : ∀ r ∈ reach u f, r ∈ reach u g)
    (hgain : gain u left g ≤ gain u left f) (hr : r ∈ left)
    (hrg : r ∈ reach u g) : r ∈ reach u f := by
  have hmem : r ∈ left.filter (· ∈ reach u f) := by
    refine FileSet.mem_of_subset_of_size_le (fun k hk => ?_) hgain
      (mem_filter_reach.2 ⟨hr, hrg⟩)
    rw [mem_filter_reach] at hk ⊢
    exact ⟨hk.1, hsub k hk.2⟩
  exact (mem_filter_reach.1 hmem).2

/-! ## In the place of an entry -/

/-- An entry that provides a file reaches all that the file reaches. -/
theorem reach_of_covers (hc : c.IsTransitive) (he : e ∈ E)
    (hen : c.covers e n = true) :
    ∀ r ∈ reach (choices c (ofSets c E R)) n,
      r ∈ reach (choices c (ofSets c E R)) e := by
  intro r hr
  rw [mem_reach_choices] at hr ⊢
  exact ⟨mem_offered.2 (.inl he), hr.2.1, hc e n r hen hr.2.2⟩

/-- Choosing `n` puts `e` out of question: `e` was not chosen before, nothing is
left for it beside what `n` reaches, and it is heavier. -/
structure Outdone (c : Catalog) (u : Universe) (selected left : FileSet)
    (n e : Path) : Prop where
  out : e ∉ selected
  within : ∀ r ∈ left, r ∈ reach u e → r ∈ reach u n
  heavier : c.weight n < c.weight e

/-- **A new file that is chosen outdoes the entries that provide it.** -/
theorem outdone (hc : c.IsTransitive)
    (hI : Choosing (choices c (ofSets c E R)) selected left)
    (hn : next? c (ofSets c E R) (choices c (ofSets c E R)) selected left
      = some n)
    (hnE : n ∉ E) (he : e ∈ E) (hen : c.covers e n = true) :
    Outdone c (choices c (ofSets c E R)) selected left n e := by
  have hsub := reach_of_covers (R := R) hc he hen
  obtain ⟨r, hr, hrn⟩ := of_next? hn
  have hout : e ∉ selected := fun hes =>
    ((hI.left_iff r).1 hr).2 (mem_reached.2 ⟨e, hes, hsub r hrn⟩)
  have hne : e ≠ n := fun heq => hnE (heq ▸ he)
  have hworse :=
    not_isBetter_of_best? (best?_of_next? hn hsub hne) hout hr (hsub r hrn)
  have hle := gain_le_gain left hsub
  -- the entry would win every tie but that of weights
  rw [isBetter_iff, hasEntry_ofSets, hasEntry_ofSets] at hworse
  simp only [he, hnE, decide_true, decide_false, true_or, and_true] at hworse
  have hge : gain (choices c (ofSets c E R)) left e
      ≤ gain (choices c (ofSets c E R)) left n := by omega
  exact ⟨hout, fun _ => mem_reach_of_gain_le hsub hge, by omega⟩

/-- `n` is in the place of `e`: it was chosen and is no entry, and the entry `e`
provides it. -/
structure InPlaceOf (c : Catalog) (E selected : FileSet) (n e : Path) : Prop where
  chosen : n ∈ selected
  fresh : n ∉ E
  entry : e ∈ E
  covers : c.covers e n = true

theorem InPlaceOf.of_insert (h : InPlaceOf c E (selected.insert f) n e) :
    n = f ∨ InPlaceOf c E selected n e := by
  rcases FileSet.mem_insert.1 h.chosen with heq | hn
  · exact .inl heq
  · exact .inr ⟨hn, h.fresh, h.entry, h.covers⟩

/-- **The invariant of replacement**: an entry in whose place a file was chosen
is not chosen itself, is heavier than the file, and has nothing left to reach;
and no second file was chosen in its place. -/
structure Displacing (c : Catalog) (E R selected left : FileSet) : Prop where
  out : ∀ n e, InPlaceOf c E selected n e → e ∉ selected
  heavier : ∀ n e, InPlaceOf c E selected n e → c.weight n < c.weight e
  spent : ∀ n e, InPlaceOf c E selected n e →
    ∀ r ∈ left, r ∉ reach (choices c (ofSets c E R)) e
  single : ∀ n n' e, InPlaceOf c E selected n e → InPlaceOf c E selected n' e →
    n = n'

/-- As long as only entries are chosen, none is replaced. -/
theorem Displacing.init (h : ∀ f ∈ selected, f ∈ E) :
    Displacing c E R selected left where
  out := fun n _ hn => absurd (h n hn.chosen) hn.fresh
  heavier := fun n _ hn => absurd (h n hn.chosen) hn.fresh
  spent := fun n _ hn => absurd (h n hn.chosen) hn.fresh
  single := fun n _ _ hn => absurd (h n hn.chosen) hn.fresh

/-- One choice keeps the invariant. -/
theorem Displacing.step (hc : c.IsTransitive)
    (hD : Displacing c E R selected left)
    (hI : Choosing (choices c (ofSets c E R)) selected left)
    (hf : next? c (ofSets c E R) (choices c (ofSets c E R)) selected left
      = some f) :
    Displacing c E R (selected.insert f)
      (left.diff (reach (choices c (ofSets c E R)) f)) := by
  obtain ⟨r, hr, hrf⟩ := of_next? hf
  -- what is chosen still reaches something, a replaced entry does not
  have hspent : ∀ n e, InPlaceOf c E selected n e → ¬ c.covers e f = true := by
    intro n e hn hef
    exact hD.spent n e hn r hr (reach_of_covers hc hn.entry hef r hrf)
  have hnew : ∀ n e, InPlaceOf c E (selected.insert f) n e → n = f →
      Outdone c (choices c (ofSets c E R)) selected left n e := by
    intro n e h heq
    exact outdone hc hI (heq ▸ hf) h.fresh h.entry h.covers
  constructor
  case out =>
    intro n e h he
    rcases FileSet.mem_insert.1 he with hef | he
    · rcases h.of_insert with heq | hn
      · exact h.fresh (heq.trans hef.symm ▸ h.entry)
      · exact hspent n e hn (hef ▸ c.covers_self e)
    · rcases h.of_insert with heq | hn
      · exact (hnew n e h heq).out he
      · exact hD.out n e hn he
  case heavier =>
    intro n e h
    rcases h.of_insert with heq | hn
    · exact (hnew n e h heq).heavier
    · exact hD.heavier n e hn
  case spent =>
    intro n e h r hr hre
    obtain ⟨hl, hrf⟩ := FileSet.mem_diff.1 hr
    rcases h.of_insert with heq | hn
    · exact hrf (heq ▸ (hnew n e h heq).within r hl hre)
    · exact hD.spent n e hn r hl hre
  case single =>
    intro n n' e h h'
    rcases h.of_insert with heq | hn
    · rcases h'.of_insert with heq' | hn'
      · exact heq.trans heq'.symm
      · exact absurd (heq ▸ h.covers) (hspent n' e hn')
    · rcases h'.of_insert with heq' | hn'
      · exact absurd (heq' ▸ h'.covers) (hspent n e hn)
      · exact hD.single n n' e hn hn'

/-- The loop keeps the invariant to its end. -/
theorem Chooses.displacing (hc : c.IsTransitive)
    (h : Chooses c (ofSets c E R) (choices c (ofSets c E R)) selected left result)
    (hI : Choosing (choices c (ofSets c E R)) selected left)
    (hD : Displacing c E R selected left) : Displacing c E R result ∅ := by
  induction h with
  | done h => exact FileSet.eq_empty_of_isEmpty h ▸ hD
  | pick _ hf _ ih => exact ih (hI.step hf) (hD.step hc hI hf)

theorem displacing_chosen (hc : c.IsTransitive) (E R : FileSet) :
    Displacing c E R (chosen c (ofSets c E R)) ∅ := by
  refine (chooses_chosen c E R).displacing hc (Choosing.init exclusive_offered) ?_
  exact Displacing.init fun f hf => mem_of_mem_exclusive hf

/-! ## New and dropped entries -/

/-- The accepted files are in the place of the entries that provide them. -/
theorem inPlaceOf_of_wanted (hn : n ∈ wanted c .minimalEntries E R)
    (hnE : n ∉ E) (he : e ∈ E) (hen : c.covers e n = true) :
    InPlaceOf c E (chosen c (ofSets c E (remaining c E R))) n e :=
  ⟨prune_subset n hn, hnE, he, hen⟩

/-- **Every entry that provides a new one is dropped**, and is heavier. -/
theorem dropped_of_covers (hc : c.IsTransitive)
    (hn : n ∈ (wanted c .minimalEntries E R).diff E)
    (he : e ∈ E) (hen : c.covers e n = true) :
    e ∈ E.diff (wanted c .minimalEntries E R) ∧ c.weight n < c.weight e := by
  obtain ⟨hn, hnE⟩ := FileSet.mem_diff.1 hn
  have hD := displacing_chosen hc E (remaining c E R)
  have hplace := inPlaceOf_of_wanted hn hnE he hen
  refine ⟨FileSet.mem_diff.2 ⟨he, fun hw => ?_⟩, hD.heavier n e hplace⟩
  exact hD.out n e hplace (prune_subset e hw)

/-- The loop keeps what was chosen from the start. -/
theorem Chooses.subset (h : Chooses c m u selected left result) :
    ∀ f ∈ selected, f ∈ result := by
  induction h with
  | done _ => exact fun f hf => hf
  | pick _ _ _ ih =>
      intro f hf
      exact ih f (FileSet.mem_insert.2 (.inr hf))

/-- **No new entry takes the place of a sole provider**: that one is chosen from
the start. -/
theorem exists_other_of_covers (hc : c.IsTransitive)
    (hn : n ∈ (wanted c .minimalEntries E R).diff E)
    (he : e ∈ E) (hen : c.covers e n = true) :
    ∃ g ∈ E, g ≠ e ∧ c.covers g n = true := by
  obtain ⟨hR, hres⟩ := required_of_mem_added hn
  obtain ⟨hn, hnE⟩ := FileSet.mem_diff.1 hn
  have hplace := inPlaceOf_of_wanted hn hnE he hen
  have hout : e ∉ (ofSets c E (remaining c E R)).exclusive := fun hex =>
    (displacing_chosen hc E (remaining c E R)).out n e hplace
      ((chooses_chosen c E _).subset e hex)
  by_contra hnone
  have hsole : ∀ g ∈ E, c.covers g n = true → g = e := by
    intro g hg hgn
    by_contra hne
    exact hnone ⟨g, hg, hne, hgn⟩
  have hreaching : reaching c E n = .ofList [e] :=
    reaching_eq_singleton_iff.2 ⟨⟨he, hen⟩, hsole⟩
  exact hout (mem_exclusive_ofSets.2
    ⟨n, mem_remaining_of_isResolvable hR hres, hreaching⟩)

/-- **No entry is dropped for two new ones.** -/
theorem eq_of_covers (hc : c.IsTransitive)
    (hn : n ∈ (wanted c .minimalEntries E R).diff E)
    (hn' : n' ∈ (wanted c .minimalEntries E R).diff E)
    (he : e ∈ E) (hen : c.covers e n = true) (hen' : c.covers e n' = true) :
    n = n' := by
  obtain ⟨hn, hnE⟩ := FileSet.mem_diff.1 hn
  obtain ⟨hn', hnE'⟩ := FileSet.mem_diff.1 hn'
  exact (displacing_chosen hc E (remaining c E R)).single n n' e
    (inPlaceOf_of_wanted hn hnE he hen) (inPlaceOf_of_wanted hn' hnE' he hen')

/-- There are no more new entries that some entry provides than dropped ones. -/
theorem size_replacing_le (hc : c.IsTransitive) {s : FileSet}
    (hnew : ∀ n ∈ s, n ∈ (wanted c .minimalEntries E R).diff E)
    (hprovided : ∀ n ∈ s, ∃ e ∈ E, c.covers e n = true) :
    s.size ≤ (E.diff (wanted c .minimalEntries E R)).size := by
  refine FileSet.size_le_of_matching (p := fun n e => c.covers e n = true) ?_ ?_
  · intro n hn
    obtain ⟨e, he, hen⟩ := hprovided n hn
    exact ⟨e, (dropped_of_covers hc (hnew n hn) he hen).1, hen⟩
  · intro e he n hn n' hn' hen hen'
    exact eq_of_covers hc (hnew n hn) (hnew n' hn') (FileSet.mem_diff.1 he).1
      hen hen'

/-- **A block grows only by what nothing provides.** Count the required files
that can have an entry and that no entry provides. Where few entries are wanted,
every other file that gets an entry takes the place of old ones: all entries
that provide it are dropped, and each of them is heavier. There are at most as
many such files as dropped entries, so the block has at most as many more
entries in the end as there are files of the first kind. -/
theorem length_entries_minimalEntries_le (s : Source)
    (earlier : List (Disk × Path)) (d : Disk) (candidates required : List Path) :
    let x := Index.after s earlier
    let provides (e f : Path) : Prop := f = e ∨ f ∈ (x.expand d e).1.closure
    let weight (e : Path) : Nat := (x.expand d e).1.weight
    let m := build (x.catalog d) candidates required
    let k := (reduce (x.catalog d) .minimalEntries m).1
    let outcome := (reduce (x.catalog d) .minimalEntries m).2
    let unprovided := m.uncovered.filter (x.isResolvable d)
    (∀ f, f ∈ unprovided ↔ f ∈ m.required ∧ x.isResolvable d f = true
        ∧ ∀ e ∈ m.entries, ¬ provides e f)
      ∧ (∀ f ∈ outcome.add, ∀ e ∈ m.entries, provides e f →
          e ∈ outcome.drop ∧ weight f < weight e)
      ∧ (outcome.add.diff unprovided).size ≤ outcome.drop.size
      ∧ k.entries.length ≤ m.entries.length + unprovided.size := by
  intro x provides weight m k outcome unprovided
  let c := x.catalog d
  obtain ⟨E, R, hm⟩ : ∃ E R, build c candidates required = ofSets c E R :=
    ⟨_, _, build_eq ..⟩
  let W := wanted c .minimalEntries E R
  have hc : c.IsTransitive := Index.isTransitive_after s earlier d
  have hprovides : ∀ e f, provides e f ↔ c.covers e f = true :=
    fun _ _ => Index.covers_iff.symm
  have hweight : ∀ e, weight e = c.weight e := x.weight_expand d
  have hunprovided : ∀ f, f ∈ unprovided ↔ f ∈ R ∧ x.isResolvable d f = true
      ∧ ∀ e ∈ E, ¬ c.covers e f = true := by
    intro f
    show f ∈ (build c candidates required).uncovered.filter _ ↔ _
    rw [hm, FileSet.mem_filter, mem_uncovered_ofSets, and_assoc]
    exact and_congr_right fun _ => and_comm
  have hreplacing : ((W.diff E).diff unprovided).size ≤ (E.diff W).size := by
    refine size_replacing_le hc (fun n hn => (FileSet.mem_diff.1 hn).1) ?_
    intro n hn
    obtain ⟨hadded, hn⟩ := FileSet.mem_diff.1 hn
    obtain ⟨hR, hres⟩ := required_of_mem_added hadded
    refine Classical.byContradiction fun hnone => hn ?_
    exact (hunprovided n).2 ⟨hR, hres, fun e he hen => hnone ⟨e, he, hen⟩⟩
  have hgrown : W.size ≤ E.size + unprovided.size := by
    have hsplit := FileSet.size_le_size_diff_add (W.diff E) unprovided
    have hsizes := FileSet.size_add_size_diff W E
    omega
  clear_value unprovided
  simp only [k, outcome, m]
  rw [hm, reduce_ofSets]
  simp only [hprovides, hweight, entries_ofSets, required_ofSets,
    ← FileSet.mem_def]
  exact ⟨hunprovided, fun f hf e he hef => dropped_of_covers hc hf he hef,
    hreplacing, hgrown⟩

/-- `/n` takes the place of `/e` and `/g`, which both provide it. -/
example :
    let snapshot := (Snapshot.ofRows [(⟨"/e"⟩, 9, [⟨"/n"⟩]),
      (⟨"/g"⟩, 9, [⟨"/n"⟩]), (⟨"/n"⟩, 1, [⟨"/x"⟩]), (⟨"/x"⟩, 1, [])] {}).1
    let c := (Index.new snapshot.toSource).catalog ∅
    (reduce c .minimalEntries (build c [⟨"/e"⟩, ⟨"/g"⟩] [⟨"/n"⟩, ⟨"/x"⟩])).2
      = ⟨.ofList [⟨"/e"⟩, ⟨"/g"⟩], .ofList [⟨"/n"⟩], ∅⟩ := by
  decide +kernel

end Cover

end IncludeBlock
