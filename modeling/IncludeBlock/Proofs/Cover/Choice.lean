import IncludeBlock.Cover.Selection
import IncludeBlock.Proofs.Coverage.Relation

/-!
# Choosing until everything is reached

The choice of entries is a loop: while some file is left, take the next one
and strike out what it reaches. `Chooses` is that loop without a bound on its
steps, and `Choosing` the invariant it keeps: whatever can be reached is
either reached by the selection or still left. From the invariant follow

* that a next file can always be found, so the loop never gives up;
* that every step strikes out a file, so the bound of `choose` is enough;
* that in the end the selection reaches all that can be reached.
-/

namespace IncludeBlock

namespace Cover

variable {c : Catalog} {m : CoverageMap} {u : Universe}
  {selected left chosen : FileSet} {f g r : Path}

/-! ## Questions about a universe -/

theorem mem_keys_of_mem_reach (h : r ∈ reach u f) : f ∈ u.keys := by
  rw [FileMap.mem_keys]
  cases hf : u.get? f with
  | none => simp [reach, hf] at h
  | some s => exact ⟨s, rfl⟩

theorem mem_coverable : r ∈ coverable u ↔ ∃ f, r ∈ reach u f := by
  rw [coverable, FileSet.mem_ofList, List.mem_flatMap]
  constructor
  · intro h
    obtain ⟨⟨f, s⟩, hs, hr⟩ := h
    exact ⟨f, by rwa [reach, FileMap.get?_eq_some_iff.2 hs]⟩
  · intro h
    obtain ⟨f, hr⟩ := h
    obtain ⟨s, hs⟩ := FileMap.mem_keys.1 (mem_keys_of_mem_reach hr)
    rw [reach, hs] at hr
    exact ⟨(f, s), FileMap.get?_eq_some_iff.1 hs, hr⟩

theorem mem_reached :
    r ∈ reached u selected ↔ ∃ f ∈ selected, r ∈ reach u f := by
  rw [reached, FileSet.mem_ofList, List.mem_flatMap]
  exact Iff.rfl

theorem mem_coverers : f ∈ coverers u r ↔ r ∈ reach u f := by
  rw [coverers, List.mem_filter, decide_eq_true_eq]
  constructor
  · exact And.right
  · intro h
    exact ⟨mem_keys_of_mem_reach h, h⟩

theorem gain_pos_iff : 0 < gain u left f ↔ ∃ r ∈ left, r ∈ reach u f := by
  rw [gain, FileSet.size, List.length_pos_iff_exists_mem]
  constructor
  · intro h
    obtain ⟨r, hr⟩ := h
    obtain ⟨hl, hf⟩ := FileSet.mem_filter.1 hr
    exact ⟨r, hl, of_decide_eq_true hf⟩
  · intro h
    obtain ⟨r, hl, hf⟩ := h
    exact ⟨r, FileSet.mem_filter.2 ⟨hl, decide_eq_true hf⟩⟩

/-! ## The next file -/

theorem of_forced? (h : forced? u left = some f) :
    ∃ r ∈ left, r ∈ reach u f := by
  obtain ⟨r, hr, hf⟩ := List.exists_of_findSome?_eq_some h
  refine ⟨r, hr, mem_coverers.1 ?_⟩
  split at hf
  · rename_i hc
    cases hf
    simp [hc]
  · cases hf

theorem of_best? (h : best? c m u selected left = some f) :
    ∃ r ∈ left, r ∈ reach u f := by
  have hmem := Sorting.mem_of_leastBy? h
  have hgain := (List.mem_filter.1 hmem).2
  exact gain_pos_iff.1 (of_decide_eq_true hgain).2

/-- **Every choice strikes out a file.** -/
theorem of_next? (h : next? c m u selected left = some f) :
    ∃ r ∈ left, r ∈ reach u f := by
  rw [next?] at h
  cases hf : forced? u left with
  | none =>
      rw [hf, Option.none_or] at h
      exact of_best? h
  | some g =>
      rw [hf, Option.some_or] at h
      cases h
      exact of_forced? hf

theorem of_next?_eq_none (h : next? c m u selected left = none)
    (hf : f ∉ selected) (hl : r ∈ left) : r ∉ reach u f := by
  intro hr
  rw [next?, Option.or_eq_none_iff] at h
  have hnil := Sorting.leastBy?_eq_none_iff.1 h.2
  have hmem : f ∈ u.keys.filter fun f => f ∉ selected ∧ 0 < gain u left f := by
    refine List.mem_filter.2 ⟨mem_keys_of_mem_reach hr, ?_⟩
    exact decide_eq_true ⟨hf, gain_pos_iff.2 ⟨r, hl, hr⟩⟩
  rw [hnil] at hmem
  cases hmem

/-! ## The loop and its invariant -/

/-- The loop of choices, from a selection and what is left to the selection
with which it ends. It ends only when nothing is left. -/
inductive Chooses (c : Catalog) (m : CoverageMap) (u : Universe) :
    FileSet → FileSet → FileSet → Prop
  | done {selected left : FileSet} (h : left.isEmpty = true) :
      Chooses c m u selected left selected
  | pick {selected left chosen : FileSet} {f : Path} (h : left.isEmpty = false)
      (hf : next? c m u selected left = some f)
      (next : Chooses c m u (selected.insert f) (left.diff (reach u f)) chosen) :
      Chooses c m u selected left chosen

/-- **The invariant of the choice**: only offered files are selected, and what
is left is exactly what the selection does not reach. -/
structure Choosing (u : Universe) (selected left : FileSet) : Prop where
  offered : ∀ f ∈ selected, f ∈ u.keys
  left_iff : ∀ r, r ∈ left ↔ r ∈ coverable u ∧ r ∉ reached u selected

/-- The invariant holds at the start. -/
theorem Choosing.init (h : ∀ f ∈ selected, f ∈ u.keys) :
    Choosing u selected ((coverable u).diff (reached u selected)) where
  offered := h
  left_iff := fun _ => FileSet.mem_diff

/-- One choice keeps the invariant. -/
theorem Choosing.step (hI : Choosing u selected left)
    (hf : next? c m u selected left = some f) :
    Choosing u (selected.insert f) (left.diff (reach u f)) where
  offered := by
    intro g hg
    obtain ⟨r, _, hr⟩ := of_next? hf
    rcases FileSet.mem_insert.1 hg with rfl | hg
    · exact mem_keys_of_mem_reach hr
    · exact hI.offered g hg
  left_iff := by
    intro r
    rw [FileSet.mem_diff, hI.left_iff, mem_reached, mem_reached, and_assoc]
    refine and_congr_right fun _ => ?_
    constructor
    · intro h hex
      obtain ⟨g, hg, hr⟩ := hex
      rcases FileSet.mem_insert.1 hg with rfl | hg
      · exact h.2 hr
      · exact h.1 ⟨g, hg, hr⟩
    · intro h
      constructor
      · intro hex
        obtain ⟨g, hg, hr⟩ := hex
        exact h ⟨g, FileSet.mem_insert.2 (.inr hg), hr⟩
      · intro hr
        exact h ⟨f, FileSet.mem_insert.2 (.inl rfl), hr⟩

/-- While some file is left, there is a next one to choose. -/
theorem Choosing.next?_ne_none (hI : Choosing u selected left)
    (h : left.isEmpty = false) : next? c m u selected left ≠ none := by
  intro hnone
  obtain ⟨r, hl⟩ := FileSet.exists_mem_of_isEmpty_eq_false h
  obtain ⟨hc, hn⟩ := (hI.left_iff r).1 hl
  obtain ⟨f, hr⟩ := mem_coverable.1 hc
  by_cases hf : f ∈ selected
  · exact hn (mem_reached.2 ⟨f, hf, hr⟩)
  · exact of_next?_eq_none hnone hf hl hr

/-- **The loop ends by itself**: as many steps as there are files left are
enough, and `choose` gives the selection with which the loop ends. -/
theorem chooses_choose {fuel : Nat} (hI : Choosing u selected left)
    (h : left.size ≤ fuel) :
    Chooses c m u selected left (choose c m u fuel selected left) := by
  induction fuel generalizing selected left with
  | zero =>
      refine Chooses.done ?_
      have hnil : left.toList = [] := List.length_eq_zero_iff.1 (by
        have : left.toList.length ≤ 0 := h
        omega)
      rw [FileSet.isEmpty, hnil]
      rfl
  | succ fuel ih =>
      rw [choose]
      cases hl : left.isEmpty with
      | true => exact Chooses.done hl
      | false =>
          cases hf : next? c m u selected left with
          | none => exact absurd hf (hI.next?_ne_none hl)
          | some f =>
              obtain ⟨r, hr, hrf⟩ := of_next? hf
              have hlt := FileSet.size_diff_lt hr hrf
              exact Chooses.pick hl hf (ih (hI.step hf) (by omega))

/-- The loop ends with the invariant and nothing left. -/
theorem Chooses.conclude (h : Chooses c m u selected left chosen)
    (hI : Choosing u selected left) : Choosing u chosen ∅ := by
  induction h with
  | done h => exact FileSet.eq_empty_of_isEmpty h ▸ hI
  | pick _ hf _ ih => exact ih (hI.step hf)

/-- With nothing left, the selection reaches all that can be reached. -/
theorem Choosing.reached_of_coverable (hI : Choosing u chosen ∅)
    (h : r ∈ coverable u) : r ∈ reached u chosen :=
  Decidable.byContradiction fun hn =>
    FileSet.not_mem_empty r ((hI.left_iff r).2 ⟨h, hn⟩)

/-! ## The universe of a map -/

/-- The files that may be chosen: the entries, and the required files that can
have an entry of their own. -/
def offered (c : Catalog) (E R : FileSet) : FileSet :=
  E.union (R.filter c.isResolvable)

variable {E R : FileSet}

theorem mem_offered :
    f ∈ offered c E R ↔ f ∈ E ∨ (f ∈ R ∧ c.isResolvable f = true) := by
  rw [offered, FileSet.mem_union, FileSet.mem_filter]

/-- Whatever is offered comes with what an entry for it would reach. -/
theorem choices_ofSets : choices c (.ofSets c E R)
    = .tabulate (offered c E R) fun f => CoverageMap.coverageFor c f R := by
  have hfold : ∀ (rs : List Path) (s : FileSet),
      rs.foldl (fun (u : Universe) r => if u.contains r || !c.isResolvable r then u
          else u.insert r (CoverageMap.coverageFor c r R))
        (.tabulate s fun f => CoverageMap.coverageFor c f R)
      = .tabulate (s.insertMany (rs.filter c.isResolvable))
          fun f => CoverageMap.coverageFor c f R := by
    intro rs
    induction rs with
    | nil => intro s; rfl
    | cons r rs ih =>
        intro s
        rw [List.foldl_cons, FileMap.contains_tabulate]
        by_cases hr : c.isResolvable r = true
        · rw [List.filter_cons_of_pos hr]
          by_cases hs : r ∈ s
          · rw [if_pos (by simp [hs]), ih]
            rw [FileSet.insertMany, FileSet.insertMany, List.foldl_cons,
              FileSet.insert_of_mem hs]
          · rw [if_neg (by simp [hs, hr]), FileMap.insert_tabulate
              (v := fun f => CoverageMap.coverageFor c f R), ih]
            rfl
        · rw [List.filter_cons_of_neg hr, if_pos (by simp [hr]), ih]
  exact hfold R.toList E

theorem mem_reach_choices : r ∈ reach (choices c (.ofSets c E R)) f
    ↔ f ∈ offered c E R ∧ r ∈ R ∧ c.covers f r = true := by
  rw [reach, choices_ofSets, FileMap.get?_tabulate]
  by_cases hf : f ∈ offered c E R <;> simp [hf]

theorem mem_coverable_choices : r ∈ coverable (choices c (.ofSets c E R))
    ↔ r ∈ R ∧ ∃ f ∈ offered c E R, c.covers f r = true := by
  rw [mem_coverable]
  constructor
  · intro h
    obtain ⟨f, hr⟩ := h
    obtain ⟨hf, hR, hc⟩ := mem_reach_choices.1 hr
    exact ⟨hR, f, hf, hc⟩
  · intro h
    obtain ⟨hR, f, hf, hc⟩ := h
    exact ⟨f, mem_reach_choices.2 ⟨hf, hR, hc⟩⟩

end Cover

end IncludeBlock
