import IncludeBlock.Proofs.Cover.Reduction
import IncludeBlock.Proofs.Expansion.History

/-!
# Files that are given up

A reduction gives a required file up before it chooses anything: when no entry
that is there reaches it and it cannot have an entry of its own. Files that are
about to get an entry are not asked. One of those may reach it, and then the
file is reported as one that nothing can reach although the new entries do:
every file that may get an entry is reached in the end, and with it all that it
reaches (`exists_wanted_covers_iff`).
-/

namespace IncludeBlock

/-- What is covered is covered with all that it covers. -/
def Catalog.IsTransitive (c : Catalog) : Prop :=
  ∀ e f g, c.covers e f = true → c.covers f g = true → c.covers e g = true

theorem Index.isTransitive_after (s : Source) (earlier : List (Disk × Path))
    (d : Disk) : ((after s earlier).catalog d).IsTransitive := by
  intro e f g he hf
  rw [covers_after_iff] at he hf ⊢
  exact he.append hf

namespace Cover

open CoverageMap

variable {c : Catalog} {policy : Policy} {E R : FileSet} {r : Path}

/-- **A file that was given up is reached after all** if a file that may be
chosen reaches it, and only then. -/
theorem exists_wanted_covers_iff (hc : c.IsTransitive)
    (hr : r ∈ uncoverable c (ofSets c E R)) :
    (∃ w ∈ wanted c policy E R, c.covers w r = true)
      ↔ ∃ u ∈ offered c E R, c.covers u r = true := by
  obtain ⟨_, hE, _⟩ := mem_uncoverable_ofSets.1 hr
  constructor
  · intro h
    obtain ⟨w, hw, hwr⟩ := h
    rcases mem_offered.1 ((isCover_wanted policy).offered w hw) with hwE | hu
    · exact absurd hwr (hE w hwE)
    · have hR := (FileSet.mem_diff.1 hu.1).1
      exact ⟨w, mem_offered.2 (.inr ⟨hR, hu.2⟩), hwr⟩
  · intro h
    obtain ⟨u, hu, hur⟩ := h
    rcases mem_offered.1 hu with huE | ⟨hR, hres⟩
    · exact absurd hur (hE u huE)
    · -- it is required itself, so whatever is chosen for it reaches `r` too
      obtain ⟨w, hw, hwu⟩ :=
        reaches_wanted policy u (mem_remaining_of_isResolvable hR hres)
      exact ⟨w, hw, hc w u r hwu hur⟩

/-- What nothing offered reaches is given up. -/
theorem mem_uncoverable_of_offered (hR : r ∈ R)
    (h : ∀ u ∈ offered c E R, ¬ c.covers u r = true) :
    r ∈ uncoverable c (ofSets c E R) := by
  refine mem_uncoverable_ofSets.2
    ⟨hR, fun e he => h e (mem_offered.2 (.inl he)), ?_⟩
  cases hres : c.isResolvable r with
  | false => rfl
  | true =>
      exact absurd (c.covers_self r) (h r (mem_offered.2 (.inr ⟨hR, hres⟩)))

/-- Given up for good is what nothing offered reaches. -/
theorem uncoverable_and_not_reached_iff (hc : c.IsTransitive) (hR : r ∈ R) :
    (r ∈ uncoverable c (ofSets c E R)
        ∧ ∀ w ∈ wanted c policy E R, ¬ c.covers w r = true)
      ↔ ∀ u ∈ offered c E R, ¬ c.covers u r = true := by
  constructor
  · intro h u hu hur
    obtain ⟨w, hw, hwr⟩ := (exists_wanted_covers_iff hc h.1).2 ⟨u, hu, hur⟩
    exact h.2 w hw hwr
  · intro h
    have hr := mem_uncoverable_of_offered hR h
    refine ⟨hr, fun w hw hwr => ?_⟩
    obtain ⟨u, hu, hur⟩ := (exists_wanted_covers_iff hc hr).1 ⟨w, hw, hwr⟩
    exact h u hu hur

/-- **What is given up.** A file may be chosen if it is an entry or a required
file that can have one. A required file is given up exactly if no entry
provides it and it cannot have one itself. It is given up and not provided by
what is left in the end exactly if nothing that may be chosen provides it. A
file that was given up is provided all the same exactly if something that may
be chosen provides it. -/
theorem given_up_iff (s : Source) (earlier : List (Disk × Path)) (d : Disk)
    (policy : Policy) (candidates required : List Path) :
    let x := Index.after s earlier
    let provides (e f : Path) : Prop := f = e ∨ f ∈ (x.expand d e).1.closure
    let m := build (x.catalog d) candidates required
    let k := (reduce (x.catalog d) policy m).1
    let givenUp := (reduce (x.catalog d) policy m).2.uncoverable
    let eligible (u : Path) : Prop :=
      u ∈ m.entries ∨ (u ∈ m.required ∧ x.isResolvable d u = true)
    (∀ f, f ∈ givenUp ↔ f ∈ m.required
        ∧ (∀ e ∈ m.entries, ¬ provides e f) ∧ x.isResolvable d f = false)
      ∧ (∀ f ∈ m.required,
          (f ∈ givenUp ∧ ∀ e ∈ k.entries, ¬ provides e f)
            ↔ ∀ u, eligible u → ¬ provides u f)
      ∧ ∀ f ∈ givenUp,
          (∃ e ∈ k.entries, provides e f)
            ↔ ∃ u, eligible u ∧ provides u f := by
  intro x provides m k givenUp eligible
  let E := FileSet.ofList (candidates.filter (!·.isEmpty))
  let R := FileSet.ofList (required.filter (!·.isEmpty))
  have hm : build (x.catalog d) candidates required = ofSets (x.catalog d) E R :=
    build_eq ..
  have hc : (x.catalog d).IsTransitive := Index.isTransitive_after s earlier d
  have heligible : ∀ u, u ∈ offered (x.catalog d) E R
      ↔ u ∈ E ∨ (u ∈ R ∧ x.isResolvable d u = true) := fun _ => mem_offered
  clear_value E R
  simp only [provides, givenUp, eligible, k, m, hm, reduce_ofSets,
    entries_ofSets, required_ofSets, ← FileSet.mem_def, ← Index.covers_iff,
    ← heligible]
  exact ⟨fun _ => mem_uncoverable_ofSets,
    fun _ hR => uncoverable_and_not_reached_iff hc hR,
    fun _ hr => exists_wanted_covers_iff hc hr⟩

/-- `/q` includes `/s`, which was never read. -/
def stubbed : Source :=
  (Snapshot.ofRows [(⟨"/q"⟩, 1, [⟨"/s"⟩])] {}).1.toSource

/-- **A file may be given up that the outcome provides.** Nothing is included
yet, and both files are needed: `/s` is given up, and the new entry for `/q`
provides it. -/
theorem given_up_stubbed :
    let x := Index.after stubbed []
    let m := build (x.catalog ∅) [] [⟨"/q"⟩, ⟨"/s"⟩]
    let outcome := reduce (x.catalog ∅) .minimalEntries m
    ⟨"/s"⟩ ∈ outcome.2.uncoverable
      ∧ ⟨"/q"⟩ ∈ m.required ∧ x.isResolvable ∅ ⟨"/q"⟩ = true
      ∧ ⟨"/s"⟩ ∈ (x.expand ∅ ⟨"/q"⟩).1.closure
      ∧ outcome.1.entries = [⟨"/q"⟩] := by
  decide +kernel

end Cover

end IncludeBlock
