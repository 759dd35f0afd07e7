import IncludeBlock.Proofs.Cover.Replacement
import IncludeBlock.Proofs.Organize.Outcome

/-!
# Adding without removing

What to add and what to drop is decided for a pass that may do both
(`addedFiles_congr`). A new entry may take the place of old ones that provide
its file, and all of those are dropped then. A pass that may add and may not
remove makes the new entry and keeps the old ones, so it adds what the block
includes already. It does so for no other files (`added_provided_iff`).
-/

namespace IncludeBlock

namespace Organize

variable {s : Settings} {d : Disk} {r : OrganizeRequest}
  {actions actions' : Actions}

/-! ## What the decision depends on -/

theorem searched_congr (h : actions'.resolve = actions.resolve) :
    searched s d r actions' = searched s d r actions := by
  rw [searched, searched, h]

theorem weighable_congr (h : actions'.resolve = actions.resolve) :
    weighable s d r actions' = weighable s d r actions := by
  rw [weighable, weighable, searched_congr h]

theorem files_survey_congr (h : actions'.resolve = actions.resolve) :
    (survey s d r actions').files = (survey s d r actions).files := by
  ext f
  rw [mem_files_weighable, mem_files_weighable, weighable_congr h]

end Organize

namespace Organizer

open Organize

variable (o : Organizer) (d : Disk) (r : OrganizeRequest) (actions : Actions)
  {actions' : Actions}

/-- Of the actions only the search bears on what is accepted. -/
theorem acceptedFiles_congr (h : actions'.resolve = actions.resolve) :
    o.acceptedFiles d r actions' = o.acceptedFiles d r actions := by
  rw [acceptedFiles, acceptedFiles, files_survey_congr h]
  rfl

theorem addedFiles_congr (h : actions'.resolve = actions.resolve) :
    o.addedFiles d r actions' = o.addedFiles d r actions := by
  rw [addedFiles_eq, addedFiles_eq, o.acceptedFiles_congr d r actions h,
    files_survey_congr h]

/-- **What a new entry replaces**, where few entries are wanted: an entry that
provides its file is not accepted, is heavier, and is not the only one. -/
theorem replaced_of_covers (hc : (o.index.catalog d).IsTransitive)
    (hpolicy : o.settings.policy = .minimalEntries) {e f : Path}
    (hf : f ∈ o.addedFiles d r actions)
    (he : e ∈ (survey o.settings d r actions).files)
    (hef : (o.index.catalog d).covers e f = true) :
    e ∉ o.acceptedFiles d r actions
      ∧ (o.index.catalog d).weight f < (o.index.catalog d).weight e
      ∧ ∃ g ∈ (survey o.settings d r actions).files,
          g ≠ e ∧ (o.index.catalog d).covers g f = true := by
  rw [addedFiles_eq, acceptedFiles, hpolicy] at hf
  rw [acceptedFiles, hpolicy]
  obtain ⟨hdrop, hweight⟩ := Cover.dropped_of_covers hc hf he hef
  exact ⟨(FileSet.mem_diff.1 hdrop).2, hweight,
    Cover.exists_other_of_covers hc hf he hef⟩

/-- A new entry is for a required file, and no entry has it. -/
theorem required_of_added (hpublic : o.settings.preferPublic = false) {f : Path}
    (hf : f ∈ o.addedFiles d r actions) :
    f ∈ r.required ∧ f ∉ (survey o.settings d r actions).files := by
  rw [addedFiles_eq, acceptedFiles] at hf
  obtain ⟨hneeds, -⟩ := Cover.required_of_mem_added hf
  exact ⟨((mem_needs_survey hpublic).1 hneeds).1, (FileSet.mem_diff.1 hf).2⟩

/-! ## What is dropped -/

theorem mem_weighable_of_mem_dropped {e : Entry}
    (he : e ∈ (o.organizeWith d r actions).1.dropped) :
    e ∈ weighable o.settings d r actions := by
  apply (found_append_repeats_perm o.settings d r actions).mem_iff.1
  rw [dropped_organizeWith] at he
  rcases List.mem_append.1 he with h | h
  · exact List.mem_append_right _ h
  · exact List.mem_append_left _ (List.mem_filter.1 h).1

/-- A file that is not accepted is dropped with its entry, and no other entry of
its own is left in the block. -/
theorem dropped_of_not_accepted (hremove : actions.remove = true) {f : Path}
    (hf : f ∈ (survey o.settings d r actions).files)
    (hn : f ∉ o.acceptedFiles d r actions) :
    (∃ e ∈ (o.organizeWith d r actions).1.dropped, e.file = f)
      ∧ ∀ e ∈ ownEntries (o.organizeWith d r actions).1.entries,
          e.file ≠ f := by
  constructor
  · obtain ⟨e, he, rfl⟩ := List.mem_map.1 (Survey.mem_files.1 hf).1
    refine ⟨e, ?_, rfl⟩
    rw [dropped_organizeWith, weigh_eq]
    apply List.mem_append_right
    apply List.mem_filter.2
    refine ⟨he, ?_⟩
    rw [isDropped, hremove, Bool.true_and]
    exact decide_eq_true (FileSet.mem_diff.2 ⟨hf, hn⟩)
  · intro e he heq
    exact hn (heq ▸ o.mem_acceptedFiles_of_ownEntries d r actions hremove he)

/-- A pass that may not remove includes what was included, and what it adds. -/
theorem files_adding_perm (hpublic : o.settings.preferPublic = false)
    (hadd : actions.add = true) (hremove : actions.remove = false) :
    ((o.organizeWith d r actions).1.entries.map (·.file)).Perm
      ((searched o.settings d r actions).map (·.file)
        ++ (o.addedFiles d r actions).toList) := by
  have hprefer (e : Entry) : (preferredEntry o.settings d e).file = e.file := by
    simp [preferredEntry, hpublic]
  have htraits := o.traits_dropped_append_entries d r actions (·.file)
    (fun _ => rfl) hprefer fun _ => rfl
  rwa [o.dropped_of_not_remove d r actions hremove, List.nil_append,
    List.map_append, files_newEntries, if_pos hadd] at htraits

/-- **A pass that may not remove adds what takes the place of old entries.**
Take passes that aim at few entries and may add. Without removing, the new block
has the old entries and one for each added file, which is required and has no
entry. An old entry provides such a file exactly if the pass that may remove
drops an entry that does: it drops all of them. Each is heavier than the file,
and none is the only one to provide it. -/
theorem added_provided_iff (s : Source) (earlier : List (Disk × Path))
    (settings : Settings) (d : Disk) (r : OrganizeRequest) (actions : Actions)
    (hpolicy : settings.policy = .minimalEntries)
    (hpublic : settings.preferPublic = false) :
    let o : Organizer := ⟨Index.after s earlier, settings⟩
    let provides (e f : Path) : Prop :=
      f = e ∨ f ∈ (o.index.expand d e).1.closure
    let weight (e : Path) : Nat := (o.index.expand d e).1.weight
    let adds : Actions := { actions with add := true, remove := false }
    let replaces : Actions := { actions with add := true, remove := true }
    let adding := (o.organizeWith d r adds).1
    let replacing := (o.organizeWith d r replaces).1
    let before := ownEntries (searched settings d r actions)
    let added := o.addedFiles d r actions
    (adding.entries.map (·.file)).Perm
        ((searched settings d r actions).map (·.file) ++ added.toList)
      ∧ ∀ f ∈ added, f ∈ r.required
        ∧ (∀ e ∈ before, e.file ≠ f)
        ∧ ((∃ e ∈ before, provides e.file f)
            ↔ ∃ e ∈ replacing.dropped, provides e.file f)
        ∧ ∀ e ∈ before, provides e.file f →
            weight f < weight e.file
              ∧ (∃ g ∈ before, g.file ≠ e.file ∧ provides g.file f)
              ∧ ∀ g ∈ ownEntries replacing.entries, g.file ≠ e.file := by
  intro o provides weight adds replaces adding replacing before added
  have hadds : adds.resolve = actions.resolve := rfl
  have hreplaces : replaces.resolve = actions.resolve := rfl
  have hc : (o.index.catalog d).IsTransitive :=
    Index.isTransitive_after s earlier d
  have hfiles {f : Path} : f ∈ (survey settings d r actions).files
      ↔ ∃ e ∈ before, e.file = f := by
    rw [mem_files_weighable, weighable_of_not_preferPublic hpublic, List.mem_map]
  have hdropped {e : Entry} {f : Path} (hf : f ∈ added) (he : e ∈ before)
      (hp : provides e.file f) :
      (∃ g ∈ replacing.dropped, g.file = e.file)
        ∧ ∀ g ∈ ownEntries replacing.entries, g.file ≠ e.file := by
    have he := hfiles.2 ⟨e, he, rfl⟩
    have hn := (o.replaced_of_covers d r actions hc hpolicy hf he
      (Index.covers_iff.2 hp)).1
    rw [← files_survey_congr hreplaces] at he
    rw [← o.acceptedFiles_congr d r actions hreplaces] at hn
    exact o.dropped_of_not_accepted d r replaces rfl he hn
  refine ⟨?_, fun f hf => ⟨?_, ?_, ?_, ?_⟩⟩
  · have hperm := o.files_adding_perm d r adds hpublic rfl rfl
    rwa [searched_congr hadds, o.addedFiles_congr d r actions hadds] at hperm
  · exact (o.required_of_added d r actions hpublic hf).1
  · intro e he heq
    exact (o.required_of_added d r actions hpublic hf).2 (hfiles.2 ⟨e, he, heq⟩)
  · constructor
    · rintro ⟨e, he, hp⟩
      obtain ⟨g, hg, heq⟩ := (hdropped hf he hp).1
      exact ⟨g, hg, heq ▸ hp⟩
    · rintro ⟨e, he, hp⟩
      have he := o.mem_weighable_of_mem_dropped d r replaces he
      rw [weighable_congr hreplaces, weighable_of_not_preferPublic hpublic] at he
      exact ⟨e, he, hp⟩
  · intro e he hp
    obtain ⟨-, hweight, g, hg, hne, hgf⟩ := o.replaced_of_covers d r actions hc
      hpolicy hf (hfiles.2 ⟨e, he, rfl⟩) (Index.covers_iff.2 hp)
    obtain ⟨e', he', rfl⟩ := hfiles.1 hg
    refine ⟨?_, ⟨e', he', hne, Index.covers_iff.1 hgf⟩, (hdropped hf he hp).2⟩
    simpa only [weight, Index.weight_expand] using hweight

/-- `/e` and `/g` both include `/n`. -/
def twoProviders : Source :=
  (Snapshot.ofRows [(⟨"/e"⟩, 9, [⟨"/n"⟩]), (⟨"/g"⟩, 9, [⟨"/n"⟩]),
    (⟨"/n"⟩, 1, [])] {}).1.toSource

/-- A document that includes `/e` and `/g` and needs `/n`. -/
def providedRequest : OrganizeRequest where
  document := ⟨"/d"⟩
  entries := [.resolved ⟨"/e"⟩ "e" (some 1) false,
    .resolved ⟨"/g"⟩ "g" (some 2) false]
  required := [⟨"/n"⟩]

theorem added_provided_twoProviders :
    let o : Organizer := ⟨Index.after twoProviders [], { preferPublic := false }⟩
    let full := (o.organizeWith ∅ providedRequest
      { Actions.none with add := true, remove := true }).1
    ∃ e ∈ full.dropped, ⟨"/n"⟩ = e.file
      ∨ ⟨"/n"⟩ ∈ (o.index.expand ∅ e.file).1.closure := by
  intro o full
  obtain ⟨-, hadded⟩ := added_provided_iff twoProviders []
    { preferPublic := false } ∅ providedRequest Actions.none rfl rfl
  obtain ⟨-, -, hiff, -⟩ := hadded ⟨"/n"⟩ (by decide +kernel)
  exact hiff.1 ⟨.resolved ⟨"/e"⟩ "e" (some 1) false, by decide +kernel,
    .inr (by decide +kernel)⟩

/-- **What a block includes may be added to it.** `/n` is to take the place of
`/e` and `/g`, which both provide it; they stay. -/
theorem added_provided_twice :
    let o : Organizer := ⟨Index.after twoProviders [], { preferPublic := false }⟩
    let result := (o.organizeWith ∅ providedRequest
      { Actions.none with add := true }).1
    ⟨"/n"⟩ ∈ (o.index.expand ∅ ⟨"/e"⟩).1.closure
      ∧ result.entries.map (fun e => (e.file, e.isNew))
        = [(⟨"/e"⟩, false), (⟨"/g"⟩, false), (⟨"/n"⟩, true)] := by
  decide +kernel

end Organizer

end IncludeBlock
