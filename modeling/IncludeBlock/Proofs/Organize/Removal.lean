import IncludeBlock.Proofs.Organize.Rewrite

/-!
# Removing without adding

The entries to drop are chosen for a block that also has the new entries. A
pass that may remove and may not add keeps, of the accepted files, those that
have an entry; a required file that only new entries would provide is lost with
the entries that were dropped for them (`covered_after_removing_iff`).
-/

namespace IncludeBlock

theorem OrganizeResult.mem_files {result : OrganizeResult} {f : Path} :
    f ∈ result.files
      ↔ f.isEmpty = false ∧ f ∈ result.entries.map (·.file) := by
  simp only [files, List.mem_map, List.mem_filter, Entry.isResolved,
    Bool.not_eq_true']
  constructor
  · rintro ⟨e, ⟨he, hf⟩, rfl⟩
    exact ⟨hf, e, he, rfl⟩
  · rintro ⟨hf, e, he, rfl⟩
    exact ⟨e, ⟨he, hf⟩, rfl⟩

namespace Organize

variable {d : Disk} {s : Settings} {r : OrganizeRequest} {actions : Actions}
  {f : Path}

/-- Entries that repeat others include no file of their own. -/
theorem mem_files_splitRepeated (es : List Entry) (seen : FileSet) :
    f ∈ (splitRepeated seen es).1.map (·.file)
      ↔ f ∈ es.map (·.file) ∧ f ∉ seen := by
  induction es generalizing seen with
  | nil => simp [splitRepeated]
  | cons e es ih =>
      rw [splitRepeated]
      by_cases he : e.file ∈ seen
      · rw [if_pos he, List.map_cons, List.mem_cons]
        refine (ih seen).trans ⟨fun h => ⟨.inr h.1, h.2⟩, ?_⟩
        rintro ⟨rfl | hf, hn⟩
        · exact absurd he hn
        · exact ⟨hf, hn⟩
      · rw [if_neg he]
        simp only [List.map_cons, List.mem_cons, ih, FileSet.mem_insert]
        by_cases hf : f = e.file
        · subst hf
          simp [he]
        · simp [hf]

/-- The block includes the files that are left and those that were added. -/
theorem mem_files_block {v : Survey} {k : Reduction} (hf : f.isEmpty = false)
    (hv : ∀ e ∈ v.unresolved, e.isResolved = false) :
    f ∈ (block s d r actions v k).map (·.file)
      ↔ f ∈ (revised actions v k).map (·.file) := by
  refine (arrange_sameEntries _ _ _).mem_files.trans ?_
  rw [List.map_append, List.map_map, List.mem_append]
  refine or_iff_left fun h => ?_
  obtain ⟨e, he, rfl⟩ := List.mem_map.1 h
  have := hv e he
  simp [Entry.isResolved, hf] at this

theorem mem_files_revised {v : Survey} {k : Reduction}
    (hremove : actions.remove = true) :
    f ∈ (revised actions v k).map (·.file)
      ↔ (f ∈ v.found.map (·.file) ∧ f ∉ k.drop)
        ∨ (actions.add = true ∧ f ∈ k.add) := by
  rw [revised, List.map_append, List.mem_append]
  refine or_congr ?_ ?_
  · simp only [List.mem_map, List.mem_filter, isDropped, hremove, Bool.true_and,
      Bool.not_eq_true', decide_eq_false_iff_not]
    constructor
    · rintro ⟨e, ⟨he, hn⟩, rfl⟩
      exact ⟨⟨e, he, rfl⟩, hn⟩
    · rintro ⟨⟨e, he, rfl⟩, hn⟩
      exact ⟨e, ⟨he, hn⟩, rfl⟩
  · by_cases hadd : actions.add = true <;>
      simp [hadd, Entry.synthesized, FileSet.mem_def]

theorem resolveEntry_of_isResolved (roots : List Path) {e : Entry}
    (h : e.isResolved = true) : resolveEntry d roots e = e := by
  simp [resolveEntry, h]

theorem mem_searched_of_isResolved {e : Entry} (he : e ∈ r.entries)
    (h : e.isResolved = true) : e ∈ searched s d r actions := by
  rw [searched]
  split
  · exact List.mem_map.2 ⟨e, he, resolveEntry_of_isResolved _ h⟩
  · exact he

/-- Where public headers are not preferred, a file is weighed if an entry that
is no generated code has it. -/
theorem mem_files_survey (hpublic : s.preferPublic = false)
    (hremove : actions.remove = true) (hf : f.isEmpty = false) :
    f ∈ (survey s d r actions).files
      ↔ ∃ e ∈ searched s d r actions, e.isMoc = false ∧ e.file = f := by
  have hfound : (survey s d r actions).found = (splitRepeated ∅
      (((searched s d r actions).filter (!·.isMoc)).filter
        (·.isResolved))).1 := by
    simp [survey, hpublic, hremove]
  rw [Survey.mem_files, hfound, mem_files_splitRepeated]
  simp only [List.mem_map, List.mem_filter, Bool.not_eq_true', hf,
    FileSet.not_mem_empty, not_false_eq_true, and_true]
  constructor
  · rintro ⟨e, ⟨⟨he, hmoc⟩, _⟩, rfl⟩
    exact ⟨e, he, hmoc, rfl⟩
  · rintro ⟨e, he, hmoc, rfl⟩
    exact ⟨e, ⟨⟨he, hmoc⟩, by simp [Entry.isResolved, hf]⟩, rfl⟩

/-- What a document includes after the search is weighed or generated code. -/
theorem mem_files_searched (hpublic : s.preferPublic = false)
    (hremove : actions.remove = true) (hf : f.isEmpty = false) :
    f ∈ (searched s d r actions).map (·.file)
      ↔ f ∈ (survey s d r actions).files
        ∨ ∃ e ∈ r.entries, e.isMoc = true ∧ e.file = f := by
  have hmoc (e : Entry) : e ∈ searched s d r actions ∧ e.isMoc = true
      ↔ e ∈ r.entries ∧ e.isMoc = true := by
    have h : (searched s d r actions).filter (·.isMoc)
        = r.entries.filter (·.isMoc) := moc_survey s d r actions
    rw [← List.mem_filter (p := fun e : Entry => e.isMoc), h, List.mem_filter]
  rw [mem_files_survey hpublic hremove hf, List.mem_map]
  constructor
  · rintro ⟨e, he, hfile⟩
    cases h : e.isMoc with
    | false => exact .inl ⟨e, he, h, hfile⟩
    | true =>
        obtain ⟨he, h⟩ := (hmoc e).1 ⟨he, h⟩
        exact .inr ⟨e, he, h, hfile⟩
  · rintro (⟨e, he, _, hfile⟩ | ⟨e, he, h, hfile⟩)
    · exact ⟨e, he, hfile⟩
    · exact ⟨e, ((hmoc e).2 ⟨he, h⟩).1, hfile⟩

end Organize

namespace Organizer

open Organize

variable (o : Organizer) (d : Disk) (r : OrganizeRequest) (actions : Actions)

/-- The files that a pass accepts. -/
def acceptedFiles : FileSet :=
  let v := survey o.settings d r actions
  Cover.wanted (o.index.catalog d) o.settings.policy v.files v.needs

/-- **What a removing pass includes**: the accepted files, of which those
without an entry need one to be added, and generated code. -/
theorem mem_files_organizeWith (hremove : actions.remove = true) {f : Path} :
    f ∈ (o.organizeWith d r actions).1.files
      ↔ f.isEmpty = false
        ∧ ((f ∈ o.acceptedFiles d r actions
              ∧ (f ∈ (survey o.settings d r actions).files
                ∨ actions.add = true))
          ∨ ∃ e ∈ r.entries, e.isMoc = true ∧ e.file = f) := by
  rw [OrganizeResult.mem_files, entries_organizeWith, appendMoc]
  refine and_congr_right fun hf => ?_
  have hmoc (group : Nat) :
      f ∈ ((r.entries.filter (·.isMoc)).map ({ · with group })).map (·.file)
        ↔ ∃ e ∈ r.entries, e.isMoc = true ∧ e.file = f := by
    simp [and_assoc]
  rw [List.map_append, List.mem_append, hmoc]
  refine or_congr_left ?_
  rw [ownBlock, acceptedFiles, mem_files_block hf, mem_files_revised hremove,
    weigh_eq]
  · have hfiles := @Survey.mem_files (survey o.settings d r actions) f
    simp only [hf, and_true] at hfiles
    simp only [← hfiles, FileSet.mem_diff]
    by_cases hE : f ∈ (survey o.settings d r actions).files <;>
      simp [hE, and_comm]
  · intro e he
    simpa using (List.mem_filter.1 he).2

/-- What some entry provides, some accepted file provides. -/
theorem exists_accepted_of_covers (hpublic : o.settings.preferPublic = false)
    (hremove : actions.remove = true) {f : Path} (hf : f ∈ r.required)
    (hnonempty : f.isEmpty = false) (hdocument : f ≠ r.document) {e : Entry}
    (he : e ∈ r.entries) (hresolved : e.isResolved = true)
    (hmoc : e.isMoc = false)
    (hc : (o.index.catalog d).covers e.file f = true) :
    ∃ w ∈ o.acceptedFiles d r actions, w.isEmpty = false
      ∧ (o.index.catalog d).covers w f = true := by
  have hfile : e.file.isEmpty = false := by
    simpa [Entry.isResolved] using hresolved
  have hE := (mem_files_survey (d := d) (r := r) hpublic hremove hfile).2
    ⟨e, mem_searched_of_isResolved he hresolved, hmoc, rfl⟩
  have hform : preferredForm d o.settings f = f := by
    simp [preferredForm, hpublic]
  have hneed : f ∈ (survey o.settings d r actions).needs :=
    Survey.mem_needs.2 ⟨mem_required_survey.2
      ⟨mem_preferredFiles.2 ⟨f, hf, hnonempty, hform⟩, hdocument⟩, hnonempty⟩
  -- an entry reaches the file, so it is not given up
  have hrest : f ∈ Cover.remaining (o.index.catalog d)
      (survey o.settings d r actions).files
      (survey o.settings d r actions).needs :=
    FileSet.mem_diff.2 ⟨hneed, fun hu =>
      (Cover.mem_uncoverable_ofSets.1 hu).2.1 _ hE hc⟩
  obtain ⟨w, hw, hcw⟩ := Cover.reaches_wanted o.settings.policy f hrest
  refine ⟨w, hw, ?_, hcw⟩
  rcases Cover.mem_or_mem_of_mem_wanted hw with h | h
  · exact (Survey.mem_files.1 h).2
  · exact (Survey.mem_needs.1 h).2

/-- **A removing pass that may not add loses exactly what only new entries
would provide.** Take a required file that some entry of the document provides.
If the pass may add, the new block provides it, too. If it may not, the new
block still provides it exactly if the block with the additions does so by a
file that the document included before (or the search found for it). -/
theorem covered_after_removing_iff (hpublic : o.settings.preferPublic = false)
    (hremove : actions.remove = true) :
    let provides (g f : Path) := f = g ∨ f ∈ (o.index.expand d g).1.closure
    let without := (o.organizeWith d r { actions with add := false }).1
    let full := (o.organizeWith d r { actions with add := true }).1
    let before := (searched o.settings d r actions).map (·.file)
    ∀ f ∈ r.required, f.isEmpty = false → f ≠ r.document →
      (∃ e ∈ r.entries, e.isResolved = true ∧ e.isMoc = false
        ∧ provides e.file f) →
      (∃ g ∈ full.files, provides g f)
        ∧ ((∃ g ∈ without.files, provides g f)
            ↔ ∃ g ∈ full.files, g ∈ before ∧ provides g f) := by
  intro provides without full before f hf hnonempty hdocument hcovered
  have hfull (g : Path) := o.mem_files_organizeWith d r
    { actions with add := true } hremove (f := g)
  have hwithout (g : Path) := o.mem_files_organizeWith d r
    { actions with add := false } hremove (f := g)
  have hbefore {g : Path} (hg : g.isEmpty = false) :=
    mem_files_searched (d := d) (r := r) hpublic hremove hg
  constructor
  · obtain ⟨e, he, hresolved, hmoc, hc⟩ := hcovered
    obtain ⟨w, hw, hpath, hcw⟩ := o.exists_accepted_of_covers d r actions
      hpublic hremove hf hnonempty hdocument he hresolved hmoc
      (Index.covers_iff.2 hc)
    exact ⟨w, (hfull w).2 ⟨hpath, .inl ⟨hw, .inr rfl⟩⟩, Index.covers_iff.1 hcw⟩
  · refine exists_congr fun g => ?_
    rw [← and_assoc, hfull, hwithout]
    refine and_congr_left fun _ => ?_
    rw [and_assoc]
    refine and_congr_right fun hg => ?_
    rw [hbefore hg]
    -- accepted and included before, or generated code in both
    simp only [Bool.false_eq_true, or_false, or_true, and_true]
    exact and_or_right

/-- `/n` and `/s` both include `/x`. -/
def shared : Source :=
  (Snapshot.ofRows [(⟨"/n"⟩, 1, [⟨"/x"⟩]), (⟨"/s"⟩, 1, [⟨"/x"⟩]),
    (⟨"/x"⟩, 1, [])] {}).1.toSource

/-- A document that includes `/s` and needs `/n` and `/x`. -/
def sharedRequest : OrganizeRequest where
  document := ⟨"/d"⟩
  entries := [.resolved ⟨"/s"⟩ "s" (some 1) false]
  required := [⟨"/n"⟩, ⟨"/x"⟩]

theorem covered_after_removing_shared :
    let full := (organizeWith ⟨Index.new shared, { preferPublic := false }⟩
      ∅ sharedRequest { Actions.none with remove := true, add := true }).1
    ∃ g ∈ full.files, ⟨"/x"⟩ = g
      ∨ ⟨"/x"⟩ ∈ ((Index.new shared).expand ∅ g).1.closure :=
  (covered_after_removing_iff ⟨Index.new shared, { preferPublic := false }⟩
    ∅ sharedRequest { Actions.none with remove := true } rfl rfl ⟨"/x"⟩
    (by decide) (by decide) (by decide)
    ⟨_, List.mem_singleton.2 rfl, by decide, by decide,
      .inr (by decide +kernel)⟩).1

/-- **The only provider of a file may be dropped.** `/n` is to take the place
of `/s`, whose entry goes though the one of `/n` may not be added. -/
theorem not_covered_after_removing_shared :
    let result := (organizeWith ⟨Index.new shared, { preferPublic := false }⟩
      ∅ sharedRequest { Actions.none with remove := true }).1
    ⟨"/x"⟩ ∈ sharedRequest.required
      ∧ ⟨"/x"⟩ ∈ ((Index.new shared).expand ∅ ⟨"/s"⟩).1.closure
      ∧ sharedRequest.entries.map (·.file) = [⟨"/s"⟩]
      ∧ result.entries = [] := by
  decide +kernel

end Organizer

end IncludeBlock
