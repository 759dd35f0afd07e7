import IncludeBlock.Proofs.Cover.Choice

/-!
# One sweep leaves nothing redundant

The sweep decides about each file once, while the selection still shrinks.
Two facts make one pass enough. Taking out a redundant file changes nothing
about what the selection reaches (`reached_sweep`). And a file that is
redundant in a selection is redundant in every larger one, so a file that was
needed at its turn is still needed when the sweep is over
(`not_isRedundant_of_mem_sweep`).
-/

namespace IncludeBlock

namespace Cover

variable {c : Catalog} {u : Universe} {s t seeds selected : FileSet}
  {f r : Path} {fs : List Path}

theorem isRedundant_iff : isRedundant u s f = true
    ↔ ∀ r ∈ reach u f, ∃ g ∈ s, g ≠ f ∧ r ∈ reach u g := by
  simp only [isRedundant, List.all_eq_true, List.any_eq_true,
    Bool.and_eq_true, bne_iff_ne, decide_eq_true_eq, FileSet.mem_def]

/-- What the others make up for in a selection, they make up for in a larger
one. -/
theorem isRedundant_mono (hst : ∀ g ∈ s, g ∈ t)
    (h : isRedundant u s f = true) : isRedundant u t f = true := by
  rw [isRedundant_iff] at h ⊢
  intro r hr
  obtain ⟨g, hg, hne, hrg⟩ := h r hr
  exact ⟨g, hst g hg, hne, hrg⟩

/-- Taking out a redundant file changes nothing about what is reached. -/
theorem mem_reached_erase (h : isRedundant u s f = true) :
    r ∈ reached u (s.erase f) ↔ r ∈ reached u s := by
  rw [mem_reached, mem_reached]
  constructor
  · intro hr
    obtain ⟨g, hg, hrg⟩ := hr
    exact ⟨g, (FileSet.mem_erase.1 hg).1, hrg⟩
  · intro hr
    obtain ⟨g, hg, hrg⟩ := hr
    by_cases hgf : g = f
    · subst hgf
      obtain ⟨k, hk, hne, hrk⟩ := isRedundant_iff.1 h r hrg
      exact ⟨k, FileSet.mem_erase.2 ⟨hk, hne⟩, hrk⟩
    · exact ⟨g, FileSet.mem_erase.2 ⟨hg, hgf⟩, hrg⟩

/-! ## One turn and the whole sweep -/

theorem sweep_cons_of_redundant (h : isRedundant u s f = true) :
    sweep u (f :: fs) s = sweep u fs (s.erase f) := by
  rw [sweep, List.foldl_cons, if_pos h]
  rfl

theorem sweep_cons_of_needed (h : ¬ isRedundant u s f = true) :
    sweep u (f :: fs) s = sweep u fs s := by
  rw [sweep, List.foldl_cons, if_neg h]
  rfl

theorem sweep_subset (fs : List Path) (s : FileSet) :
    ∀ g ∈ sweep u fs s, g ∈ s := by
  induction fs generalizing s with
  | nil => exact fun g hg => hg
  | cons f fs ih =>
      intro g hg
      by_cases hf : isRedundant u s f = true
      · rw [sweep_cons_of_redundant hf] at hg
        exact (FileSet.mem_erase.1 (ih _ g hg)).1
      · rw [sweep_cons_of_needed hf] at hg
        exact ih _ g hg

/-- A sweep takes out nothing where nothing is redundant. -/
theorem sweep_eq_self (h : ∀ f ∈ fs, ¬ isRedundant u s f = true) :
    sweep u fs s = s := by
  induction fs with
  | nil => rfl
  | cons f fs ih =>
      rw [sweep_cons_of_needed (h f List.mem_cons_self)]
      exact ih fun g hg => h g (List.mem_cons_of_mem _ hg)

/-- **The sweep keeps what is reached.** -/
theorem reached_sweep (fs : List Path) (s : FileSet) :
    r ∈ reached u (sweep u fs s) ↔ r ∈ reached u s := by
  induction fs generalizing s with
  | nil => exact Iff.rfl
  | cons f fs ih =>
      by_cases hf : isRedundant u s f = true
      · rw [sweep_cons_of_redundant hf, ih, mem_reached_erase hf]
      · rw [sweep_cons_of_needed hf, ih]

/-- **What the sweep visits and keeps is needed** by the selection that
remains at the end, not only by the one at its turn. -/
theorem not_isRedundant_of_mem_sweep (hf : f ∈ fs) (hs : f ∈ sweep u fs s) :
    ¬ isRedundant u (sweep u fs s) f = true := by
  induction fs generalizing s with
  | nil => cases hf
  | cons a fs ih =>
      by_cases ha : isRedundant u s a = true
      · rw [sweep_cons_of_redundant ha] at hs ⊢
        rcases List.mem_cons.1 hf with rfl | hf
        · -- a redundant file is gone after its turn
          have := FileSet.mem_erase.1 (sweep_subset fs _ f hs)
          exact absurd rfl this.2
        · exact ih hf hs
      · rw [sweep_cons_of_needed ha] at hs ⊢
        rcases List.mem_cons.1 hf with rfl | hf
        · -- needed at its turn, and the selection only shrinks from there
          intro h
          exact ha (isRedundant_mono (sweep_subset fs s) h)
        · exact ih hf hs

/-! ## Pruning a selection -/

theorem prune_subset : ∀ g ∈ prune c u seeds selected, g ∈ selected :=
  sweep_subset _ _

theorem reached_prune :
    r ∈ reached u (prune c u seeds selected) ↔ r ∈ reached u selected :=
  reached_sweep _ _

/-- Each file that is kept is the only one to reach some file. -/
theorem exists_sole_of_mem_prune (h : f ∈ prune c u seeds selected) :
    ∃ r ∈ reach u f, ∀ g ∈ prune c u seeds selected, r ∈ reach u g → g = f := by
  have hmem : f ∈ Sorting.sortBy (leavesBefore c seeds) selected.toList :=
    (Sorting.sortBy_perm _ _).mem_iff.2 (prune_subset f h)
  have hneeded := not_isRedundant_of_mem_sweep hmem h
  rw [isRedundant_iff] at hneeded
  refine Classical.byContradiction fun hnone => hneeded fun r hr => ?_
  refine Classical.byContradiction fun hother => hnone ⟨r, hr, ?_⟩
  intro g hg hrg
  exact Classical.byContradiction fun hne => hother ⟨g, hg, hne, hrg⟩

end Cover

end IncludeBlock
