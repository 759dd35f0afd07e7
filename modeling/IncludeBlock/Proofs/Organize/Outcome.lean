import IncludeBlock.Proofs.Organize.Conservation
import IncludeBlock.Proofs.Organize.Removal
import Mathlib.Data.List.Nodup

/-!
# What a pass leaves

The entries of a new block are finished: the search has nothing to find for
them, and those with a file are written as a pass would write them
(`isFinished_of_mem_entries`). Neither depends on the groups, so it is enough to
look at what was to be arranged. And but for generated code, no two entries
include one file, and each file is an accepted one.
-/

namespace IncludeBlock

namespace Organize

variable {s : Settings} {d : Disk} {r : OrganizeRequest} {actions : Actions}

/-! ## Entries that are finished -/

theorem resolveEntry_ungrouped (roots : List Path) (e : Entry) :
    resolveEntry d roots e.ungrouped = (resolveEntry d roots e).ungrouped := by
  have hsearch : (!e.ungrouped.isResolved && !e.ungrouped.isMoc
        && e.ungrouped.spelling != "")
      = (!e.isResolved && !e.isMoc && e.spelling != "") := rfl
  by_cases h : (!e.isResolved && !e.isMoc && e.spelling != "") = true
  · rw [resolveEntry, if_pos (hsearch.trans h), resolveEntry, if_pos h,
      Entry.spelling_ungrouped]
    cases Resolution.resolve d e.spelling roots <;> rfl
  · rw [resolveEntry, if_neg (hsearch ▸ h), resolveEntry, if_neg h]

theorem lookedUp_ungrouped (e : Entry) : lookedUp s d r actions e.ungrouped
    = (lookedUp s d r actions e).ungrouped := by
  rw [lookedUp, lookedUp]
  split
  · exact resolveEntry_ungrouped _ e
  · rfl

theorem lookedUp_of_isResolved {e : Entry} (h : e.isResolved = true) :
    lookedUp s d r actions e = e := by
  rw [lookedUp]
  split
  · exact resolveEntry_of_isResolved _ h
  · rfl

theorem lookedUp_of_isMoc {e : Entry} (h : e.isMoc = true) :
    lookedUp s d r actions e = e := by
  rw [lookedUp]
  split
  · exact resolveEntry_of_isMoc _ h
  · rfl

theorem spellEntry_spellEntry (roots : List Path) (rename : Bool) (e : Entry) :
    spellEntry r roots rename (spellEntry r roots rename e)
      = spellEntry r roots rename e := by
  have hlocal (l : Bool) : (if r.projectRoot.isEmpty then
        (if r.projectRoot.isEmpty then l else e.file.isWithin r.projectRoot)
      else e.file.isWithin r.projectRoot)
      = if r.projectRoot.isEmpty then l
        else e.file.isWithin r.projectRoot := by
    split <;> rfl
  by_cases h : (rename || e.spelling == "") = true
  · simp only [spellEntry, hlocal, if_pos h, ite_self]
  · simp only [spellEntry, hlocal, if_neg h]

/-- The search finds nothing new for an entry, and it is written already if a
pass takes it for its own. -/
def IsFinished (s : Settings) (d : Disk) (r : OrganizeRequest)
    (actions : Actions) (e : Entry) : Prop :=
  lookedUp s d r actions e = e
    ∧ (e.isMoc = false → e.isResolved = true →
        spellEntry r (r.spellingRoots d) actions.rename e = e)

theorem group_lookedUp (e : Entry) :
    (lookedUp s d r actions e).group = e.group := by
  rw [lookedUp]
  split
  · rw [resolveEntry]
    split
    · split <;> rfl
    · rfl
  · rfl

theorem isFinished_ungrouped (e : Entry) :
    IsFinished s d r actions e.ungrouped ↔ IsFinished s d r actions e := by
  rw [IsFinished, IsFinished, lookedUp_ungrouped,
    Entry.ungrouped_eq_iff (group_lookedUp e)]
  refine and_congr_right fun _ => imp_congr_right fun _ =>
    imp_congr_right fun _ => ?_
  exact Entry.ungrouped_eq_iff
    (e := spellEntry r (r.spellingRoots d) actions.rename e) rfl

/-! ## Entries that repeat nothing -/

theorem nodup_files_splitRepeated (es : List Entry) (seen : FileSet) :
    ((splitRepeated seen es).1.map (·.file)).Nodup := by
  induction es generalizing seen with
  | nil => exact List.nodup_nil
  | cons e es ih =>
      rw [splitRepeated]
      split
      · exact ih seen
      · refine List.nodup_cons.2 ⟨fun h => ?_, ih _⟩
        rw [mem_files_splitRepeated] at h
        exact h.2 (FileSet.mem_insert.2 (.inl rfl))

/-- Entries of different files repeat nothing. -/
theorem splitRepeated_of_nodup {es : List Entry} (seen : FileSet)
    (h : (es.map (·.file)).Nodup) (hseen : ∀ e ∈ es, e.file ∉ seen) :
    splitRepeated seen es = (es, []) := by
  induction es generalizing seen with
  | nil => rfl
  | cons e es ih =>
      obtain ⟨he, hes⟩ := List.nodup_cons.1 h
      rw [splitRepeated, if_neg (hseen e List.mem_cons_self), ih _ hes]
      intro g hg hmem
      rcases FileSet.mem_insert.1 hmem with heq | hmem
      · exact he (List.mem_map.2 ⟨g, hg, heq⟩)
      · exact hseen g (List.mem_cons_of_mem _ hg) hmem

theorem found_survey (hremove : actions.remove = true) :
    (survey s d r actions).found
      = (splitRepeated ∅ (weighable s d r actions)).1 := by
  have hparts := parts_survey s d r actions
  rw [if_pos hremove] at hparts
  exact congrArg Prod.fst hparts

theorem found_survey_of_not_remove (hremove : actions.remove = false) :
    (survey s d r actions).found = weighable s d r actions := by
  have hparts := parts_survey s d r actions
  rw [hremove] at hparts
  exact congrArg Prod.fst hparts

theorem repeats_survey (hremove : actions.remove = true) :
    (survey s d r actions).repeats
      = (splitRepeated ∅ (weighable s d r actions)).2 := by
  have hparts := parts_survey s d r actions
  rw [if_pos hremove] at hparts
  exact congrArg Prod.snd hparts

/-- What is weighed are the files of all weighable entries; repeats add none. -/
theorem mem_files_weighable {f : Path} :
    f ∈ (survey s d r actions).files
      ↔ f ∈ (weighable s d r actions).map (·.file) := by
  have hresolved (h : f ∈ (weighable s d r actions).map (·.file)) :
      f.isEmpty = false := by
    obtain ⟨e, he, rfl⟩ := List.mem_map.1 h
    simpa [Entry.isResolved] using (mem_weighable he).1
  have hfound : f ∈ (survey s d r actions).found.map (·.file)
      ↔ f ∈ (weighable s d r actions).map (·.file) := by
    cases hremove : actions.remove with
    | false => rw [found_survey_of_not_remove hremove]
    | true =>
        rw [found_survey hremove, mem_files_splitRepeated]
        simp
  rw [Survey.mem_files, hfound]
  exact and_iff_left_of_imp hresolved

theorem files_written (k : Reduction) :
    (written s d r actions k).map (·.file)
      = (revised actions (survey s d r actions) k).map (·.file) := by
  rw [written, List.map_map]
  rfl

/-- The entries of a block that are written anew include different files. -/
theorem nodup_files_written (hremove : actions.remove = true) (x : Index)
    (policy : Policy) :
    ((written s d r actions
      (weigh x d policy (survey s d r actions)).1).map (·.file)).Nodup := by
  have hnew (fs : List Path) :
      (fs.map Entry.synthesized).map (·.file) = fs := by
    rw [List.map_map]
    exact List.map_id _
  rw [files_written, revised, List.map_append, List.nodup_append]
  refine ⟨?_, ?_, ?_⟩
  · refine List.Nodup.sublist (List.filter_sublist.map _) ?_
    rw [found_survey hremove]
    exact nodup_files_splitRepeated _ ∅
  · split
    · rw [hnew]
      exact FileSet.nodup _
    · exact List.nodup_nil
  · intro f hf g hg heq
    obtain ⟨e, he, rfl⟩ := List.mem_map.1 hf
    have hfound := (List.mem_filter.1 he).1
    have hfile : e.file ∈ (survey s d r actions).files := by
      refine Survey.mem_files.2 ⟨List.mem_map_of_mem hfound, ?_⟩
      simpa [Entry.isResolved] using isResolved_of_mem_found hfound
    split at hg
    · rw [hnew, weigh_eq, ← heq] at hg
      exact (FileSet.mem_diff.1 (FileSet.mem_def.2 hg)).2 hfile
    · cases hg

/-! ## The entries that a pass takes for its own -/

/-- Entries that have a file and are no generated code. -/
def ownEntries (es : List Entry) : List Entry :=
  (es.filter (!·.isMoc)).filter (·.isResolved)

theorem mem_ownEntries {es : List Entry} {e : Entry} :
    e ∈ ownEntries es ↔ e ∈ es ∧ e.isMoc = false ∧ e.isResolved = true := by
  simp only [ownEntries, List.mem_filter, Bool.not_eq_true', and_assoc]

theorem ownEntries_append (as bs : List Entry) :
    ownEntries (as ++ bs) = ownEntries as ++ ownEntries bs := by
  rw [ownEntries, List.filter_append, List.filter_append]
  rfl

theorem SameEntries.ownEntries {as bs : List Entry} (h : SameEntries as bs) :
    SameEntries (ownEntries as) (ownEntries bs) := by
  have hplain := h.filter (p := (!·.isMoc)) fun e => by
    rw [Entry.isMoc_ungrouped]
  exact hplain.filter Entry.isResolved_ungrouped

theorem weighable_of_not_preferPublic (hpublic : s.preferPublic = false) :
    weighable s d r actions = ownEntries (searched s d r actions) := by
  have hid : preferredEntry s d = id := by
    funext e
    simp [preferredEntry, hpublic]
  rw [weighable, hid, List.map_id]
  rfl

theorem mem_needs_survey (hpublic : s.preferPublic = false) {f : Path} :
    f ∈ (survey s d r actions).needs
      ↔ f ∈ r.required ∧ f.isEmpty = false ∧ f ≠ r.document := by
  have hform (g : Path) : preferredForm d s g = g := by
    simp [preferredForm, hpublic]
  rw [Survey.mem_needs, mem_required_survey, mem_preferredFiles]
  simp only [hform]
  constructor
  · rintro ⟨⟨⟨g, hg, hnonempty, rfl⟩, hdocument⟩, _⟩
    exact ⟨hg, hnonempty, hdocument⟩
  · rintro ⟨hf, hnonempty, hdocument⟩
    exact ⟨⟨⟨f, hf, hnonempty, rfl⟩, hdocument⟩, hnonempty⟩

end Organize

namespace Organizer

open Organize

variable (o : Organizer) (d : Disk) (r : OrganizeRequest) (actions : Actions)

/-! ## The new block -/

/-- A pass finishes its entries. -/
theorem isFinished_of_mem_entries :
    ∀ e ∈ (o.organizeWith d r actions).1.entries,
      IsFinished o.settings d r actions e := by
  refine (o.entries_sameEntries d r actions).forall_mem isFinished_ungrouped ?_
  intro e he
  rcases List.mem_append.1 he with hwritten | he
  · refine ⟨lookedUp_of_isResolved
      (o.isResolved_of_mem_written d r actions hwritten), fun _ _ => ?_⟩
    obtain ⟨e₀, _, rfl⟩ := List.mem_map.1 hwritten
    exact spellEntry_spellEntry _ _ e₀
  · rcases List.mem_append.1 he with hunresolved | hmoc
    · rw [unresolved_survey] at hunresolved
      have hn := (List.mem_filter.1 hunresolved).2
      simp only [Bool.and_eq_true, Bool.not_eq_true'] at hn
      have hself := lookedUp_of_not_isResolved hn.2
      refine ⟨hself, fun _ h => ?_⟩
      rw [← hself, hn.2] at h
      cases h
    · have hmoc := (List.mem_filter.1 hmoc).2
      refine ⟨lookedUp_of_isMoc hmoc, fun h _ => ?_⟩
      rw [hmoc] at h
      cases h

/-- Of the new block a pass takes for its own what it has written, but for what
is spelled like generated code. -/
theorem ownEntries_entries :
    SameEntries (ownEntries (o.organizeWith d r actions).1.entries)
      (ownEntries (written o.settings d r actions
        (weigh o.index d o.settings.policy
          (survey o.settings d r actions)).1)) := by
  have hentries := (o.entries_sameEntries d r actions).ownEntries
  have hrest : ownEntries ((survey o.settings d r actions).unresolved
      ++ r.entries.filter (·.isMoc)) = [] := by
    refine List.eq_nil_iff_forall_not_mem.2 fun e he => ?_
    obtain ⟨he, hmoc, hresolved⟩ := mem_ownEntries.1 he
    rcases List.mem_append.1 he with h | h
    · have hn := (List.mem_filter.1 h).2
      simp [hresolved] at hn
    · rw [(List.mem_filter.1 h).2] at hmoc
      cases hmoc
  rwa [ownEntries_append, hrest, List.append_nil] at hentries

theorem nodup_files_ownEntries (hremove : actions.remove = true) :
    ((ownEntries (o.organizeWith d r actions).1.entries).map
      (·.file)).Nodup := by
  refine (o.ownEntries_entries d r actions).files.nodup_iff.2 ?_
  have hwritten := nodup_files_written (s := o.settings) (d := d) (r := r)
    hremove o.index o.settings.policy
  refine List.Nodup.sublist ?_ hwritten
  exact (List.filter_sublist.trans List.filter_sublist).map _

/-- What a pass takes for its own again is accepted. -/
theorem mem_acceptedFiles_of_ownEntries (hremove : actions.remove = true)
    {e : Entry}
    (he : e ∈ ownEntries (o.organizeWith d r actions).1.entries) :
    e.file ∈ o.acceptedFiles d r actions := by
  have hmem := (o.ownEntries_entries d r actions).mem_files.1
    (List.mem_map_of_mem he)
  obtain ⟨e', he', heq⟩ := List.mem_map.1 hmem
  have hfile := List.mem_map_of_mem (f := (·.file)) (mem_ownEntries.1 he').1
  rw [heq, files_written, mem_files_revised hremove, weigh_eq] at hfile
  rcases hfile with ⟨hfound, hkept⟩ | ⟨_, hnew⟩
  · have hresolved := (mem_ownEntries.1 he).2.2
    have hE : e.file ∈ (survey o.settings d r actions).files :=
      Survey.mem_files.2 ⟨hfound, by simpa [Entry.isResolved] using hresolved⟩
    exact Decidable.byContradiction fun hn =>
      hkept (FileSet.mem_diff.2 ⟨hE, hn⟩)
  · exact (FileSet.mem_diff.1 hnew).1

theorem dropped_of_not_remove (hremove : actions.remove = false) :
    (o.organizeWith d r actions).1.dropped = [] := by
  rw [dropped_organizeWith]
  simp [survey, isDropped, hremove]

/-- New entries are for the accepted files without an entry, whatever a pass may
do. -/
theorem addedFiles_eq :
    o.addedFiles d r actions
      = (o.acceptedFiles d r actions).diff
          (survey o.settings d r actions).files := by
  rw [addedFiles, weigh_eq]
  rfl

/-! ## No file twice -/

/-- Before generated code is appended, a block is what was written and what has
no file. -/
theorem ownBlock_sameEntries :
    let v := survey o.settings d r actions
    SameEntries (o.ownBlock d r actions)
      (written o.settings d r actions
        (weigh o.index d o.settings.policy v).1 ++ v.unresolved) :=
  arrange_sameEntries _ _ _

/-- Such a block includes what was written. -/
theorem files_ownBlock_perm :
    (((o.ownBlock d r actions).filter (·.isResolved)).map (·.file)).Perm
      ((written o.settings d r actions
        (weigh o.index d o.settings.policy
          (survey o.settings d r actions)).1).map (·.file)) := by
  have hsame := ((o.ownBlock_sameEntries d r actions).filter
    Entry.isResolved_ungrouped).files
  have hwritten := List.filter_eq_self.2
    fun e he => o.isResolved_of_mem_written d r actions (e := e) he
  have hunresolved : (survey o.settings d r actions).unresolved.filter
      (·.isResolved) = [] := by
    apply List.filter_eq_nil_iff.2
    intro e he
    simpa using (List.mem_filter.1 he).2
  rwa [List.filter_append, hwritten, hunresolved, List.append_nil] at hsame

theorem mem_files_of_added (hadd : actions.add = true) {f : Path}
    (hf : f ∈ o.addedFiles d r actions) :
    f ∈ ((o.ownBlock d r actions).filter (·.isResolved)).map (·.file) := by
  apply (o.files_ownBlock_perm d r actions).mem_iff.2
  rw [addedFiles, FileSet.mem_def] at hf
  rw [files_written, revised, if_pos hadd, List.map_append, List.map_map]
  apply List.mem_append_right
  exact List.mem_map.2 ⟨f, hf, rfl⟩

/-- **But for generated code, no file is included twice** after a pass that may
remove. The new block ends with the entries of generated code, which are set
aside before anything is compared. Before them no two entries include one file,
whether they were in the document or are new, so a new entry is the only one
for its file. -/
theorem nodup_files_organizeWith (hremove : actions.remove = true) :
    let result := (o.organizeWith d r actions).1
    ∃ block group,
      result.entries
          = block ++ (r.entries.filter (·.isMoc)).map ({ · with group })
        ∧ ((block.filter (·.isResolved)).map (·.file)).Nodup
        ∧ (actions.add = true → ∀ f ∈ o.addedFiles d r actions,
            ((block.filter (·.isResolved)).map (·.file)).count f = 1) := by
  intro result
  have hnodup :
      (((o.ownBlock d r actions).filter (·.isResolved)).map (·.file)).Nodup := by
    apply (o.files_ownBlock_perm d r actions).nodup_iff.2
    exact nodup_files_written hremove o.index o.settings.policy
  refine ⟨o.ownBlock d r actions, _, o.entries_organizeWith d r actions,
    hnodup, ?_⟩
  intro hadd f hf
  exact List.count_eq_one_of_mem hnodup (o.mem_files_of_added d r actions hadd hf)

/-- A document that includes the generated `/p/moc_a.cpp` as such and once more
by a longer spelling, and needs it and `/p/x.h`. -/
def generatedTwice : OrganizeRequest where
  document := ⟨"/p/d.cpp"⟩
  entries := [.resolved ⟨"/p/moc_a.cpp"⟩ "moc_a.cpp" (some 1) true,
    .resolved ⟨"/p/moc_a.cpp"⟩ "../p/moc_a.cpp" (some 2) true]
  required := [⟨"/p/moc_a.cpp"⟩, ⟨"/p/x.h"⟩]

/-- An index that knows both files. -/
def generatedIndex : Index :=
  Index.new (Snapshot.ofRows [(⟨"/p/moc_a.cpp"⟩, 1, []),
    (⟨"/p/x.h"⟩, 1, [])] {}).1.toSource

theorem nodup_files_generatedTwice :
    ∃ block group,
      (organizeWith ⟨generatedIndex, {}⟩ ∅ generatedTwice .all).1.entries
          = block ++ (generatedTwice.entries.filter (·.isMoc)).map
              ({ · with group })
        ∧ ((block.filter (·.isResolved)).map (·.file)).count ⟨"/p/x.h"⟩ = 1 :=
  let ⟨block, group, hentries, _, hadded⟩ := nodup_files_organizeWith
    ⟨generatedIndex, {}⟩ ∅ generatedTwice .all rfl
  ⟨block, group, hentries, hadded rfl ⟨"/p/x.h"⟩ (by decide +kernel)⟩

/-- **Generated code may be included once more.** The first entry is set aside
before the second one is compared with anything, and only the first is
generated code by its spelling. -/
theorem not_nodup_files_generatedTwice :
    let result := (organizeWith ⟨generatedIndex, {}⟩ ∅ generatedTwice
      { Actions.none with remove := true }).1
    generatedTwice.entries.map (·.isMoc) = [true, false]
      ∧ result.entries.map (·.file) = [⟨"/p/moc_a.cpp"⟩, ⟨"/p/moc_a.cpp"⟩]
      ∧ result.entries.map (·.line) = [some 2, some 1] := by
  decide +kernel

end Organizer

end IncludeBlock
