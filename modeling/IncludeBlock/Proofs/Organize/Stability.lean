import IncludeBlock.Proofs.Cover.Standing
import IncludeBlock.Proofs.Organize.Outcome
import IncludeBlock.Proofs.Organize.Sequence

/-!
# A pass on its own outcome

A second pass finds the entries as the first one left them, finished and
without repeats. It weighs those that it takes for its own, and each of them is
needed (`isNeeded_again`). So the block stands unless these leave something to
reach (`stands_iff`), which can be only for entries that the first pass spelled
like generated code: the second pass sets those aside and makes others for what
they provide.
-/

namespace IncludeBlock

namespace Organizer

open Organize

variable (o : Organizer) (d : Disk) (r : OrganizeRequest) (actions : Actions)

/-! ## What the next pass weighs -/

/-- The request for another pass. -/
def requestAgain : OrganizeRequest :=
  { r with entries := (o.organizeWith d r actions).1.entries }

theorem searched_again :
    searched o.settings d (o.requestAgain d r actions) actions
      = (o.organizeWith d r actions).1.entries := by
  rw [searched_eq_map]
  refine (List.map_congr_left fun e he => ?_).trans (List.map_id _)
  exact (o.isFinished_of_mem_entries d r actions e he).1

theorem unresolved_again :
    (survey o.settings d (o.requestAgain d r actions) actions).unresolved
      = ((o.organizeWith d r actions).1.entries.filter (!·.isMoc)).filter
          (!·.isResolved) := by
  rw [← searched_again]
  rfl

theorem found_again (hpublic : o.settings.preferPublic = false)
    (hremove : actions.remove = true) :
    let v := survey o.settings d (o.requestAgain d r actions) actions
    v.found = ownEntries (o.organizeWith d r actions).1.entries
      ∧ v.repeats = [] := by
  have hparts := splitRepeated_of_nodup ∅
    (o.nodup_files_ownEntries d r actions hremove)
    fun e _ => FileSet.not_mem_empty e.file
  constructor
  · rw [found_survey hremove, weighable_of_not_preferPublic hpublic,
      searched_again, hparts]
  · rw [repeats_survey hremove, weighable_of_not_preferPublic hpublic,
      searched_again, hparts]

theorem mem_files_again (hpublic : o.settings.preferPublic = false)
    (hremove : actions.remove = true) {f : Path} :
    f ∈ (survey o.settings d (o.requestAgain d r actions) actions).files
      ↔ ∃ e ∈ (o.organizeWith d r actions).1.entries, e.isMoc = false
        ∧ e.isResolved = true ∧ e.file = f := by
  rw [Survey.mem_files, (o.found_again d r actions hpublic hremove).1]
  simp only [List.mem_map, mem_ownEntries]
  constructor
  · rintro ⟨⟨e, ⟨he, hmoc, hresolved⟩, rfl⟩, _⟩
    exact ⟨e, he, hmoc, hresolved, rfl⟩
  · rintro ⟨e, he, hmoc, hresolved, rfl⟩
    exact ⟨⟨e, ⟨he, hmoc, hresolved⟩, rfl⟩,
      by simpa [Entry.isResolved] using hresolved⟩

theorem needs_again :
    (survey o.settings d (o.requestAgain d r actions) actions).needs
      = (survey o.settings d r actions).needs := rfl

/-- **What the next pass weighs is needed** where few entries are wanted. -/
theorem isNeeded_again (hpolicy : o.settings.policy = .minimalEntries)
    (hpublic : o.settings.preferPublic = false)
    (hremove : actions.remove = true) :
    let v := survey o.settings d (o.requestAgain d r actions) actions
    Cover.IsNeeded (o.index.catalog d) v.files v.needs := by
  intro v
  have haccepted : Cover.IsNeeded (o.index.catalog d)
      (o.acceptedFiles d r actions) (Cover.remaining (o.index.catalog d)
        (survey o.settings d r actions).files
        (survey o.settings d r actions).needs) := by
    rw [acceptedFiles, hpolicy]
    exact Cover.isNeeded_wanted
  refine haccepted.mono ?_ fun f hf => (FileSet.mem_diff.1 hf).1
  intro f hf
  obtain ⟨e, he, hmoc, hresolved, rfl⟩ :=
    (o.mem_files_again d r actions hpublic hremove).1 hf
  exact o.mem_acceptedFiles_of_ownEntries d r actions hremove
    (mem_ownEntries.2 ⟨he, hmoc, hresolved⟩)

/-! ## Blocks that stand -/

/-- The block stands if all that the next pass weighs is accepted, and nothing
else. -/
def Stands : Prop :=
  let v := survey o.settings d (o.requestAgain d r actions) actions
  Cover.wanted (o.index.catalog d) o.settings.policy v.files v.needs = v.files

/-- **When a block stands**: what the next pass takes for its own still provides
every required file that can be included. -/
theorem stands_iff (hpolicy : o.settings.policy = .minimalEntries)
    (hpublic : o.settings.preferPublic = false)
    (hremove : actions.remove = true) :
    o.Stands d r actions ↔ ∀ f ∈ r.required, f.isEmpty = false →
      f ≠ r.document → o.index.isResolvable d f = true →
      ∃ e ∈ (o.organizeWith d r actions).1.entries, e.isMoc = false
        ∧ e.isResolved = true
        ∧ (f = e.file ∨ f ∈ (o.index.expand d e.file).1.closure) := by
  have hneeded := o.isNeeded_again d r actions hpolicy hpublic hremove
  rw [Stands, hpolicy, hneeded.wanted_eq_iff, needs_again]
  simp only [mem_needs_survey hpublic, o.mem_files_again d r actions hpublic
    hremove]
  constructor
  · intro h f hf hnonempty hdocument hres
    obtain ⟨_, ⟨e, he, hmoc, hresolved, rfl⟩, hc⟩ :=
      h f ⟨hf, hnonempty, hdocument⟩ hres
    exact ⟨e, he, hmoc, hresolved, Index.covers_iff.1 hc⟩
  · rintro h f ⟨hf, hnonempty, hdocument⟩ hres
    obtain ⟨e, he, hmoc, hresolved, hc⟩ := h f hf hnonempty hdocument hres
    exact ⟨e.file, ⟨e, he, hmoc, hresolved, rfl⟩, Index.covers_iff.2 hc⟩

/-- A block without own entries that are spelled like generated code stands. -/
theorem stands_of_ownBlock (hpolicy : o.settings.policy = .minimalEntries)
    (hpublic : o.settings.preferPublic = false)
    (hremove : actions.remove = true) (hadd : actions.add = true)
    (hown : ∀ e ∈ o.ownBlock d r actions, e.isMoc = false) :
    o.Stands d r actions := by
  rw [o.stands_iff d r actions hpolicy hpublic hremove]
  intro f hf hnonempty hdocument hres
  have hneed : f ∈ (survey o.settings d r actions).needs :=
    (mem_needs_survey hpublic).2 ⟨hf, hnonempty, hdocument⟩
  have hrest : f ∈ Cover.remaining (o.index.catalog d)
      (survey o.settings d r actions).files
      (survey o.settings d r actions).needs :=
    Cover.mem_remaining_of_isResolvable hneed hres
  obtain ⟨w, hw, hc⟩ := Cover.reaches_wanted o.settings.policy f hrest
  obtain ⟨e, he, rfl⟩ :=
    List.mem_map.1 (mem_block (mem_revised_of_mem_wanted hadd hw))
  refine ⟨e, ?_, hown e he, ?_, Index.covers_iff.1 hc⟩
  · rw [entries_organizeWith]
    exact List.mem_append_left _ he
  · have hfile : e.file.isEmpty = false := by
      rcases Cover.mem_or_mem_of_mem_wanted hw with h | h
      · exact (Survey.mem_files.1 h).2
      · exact (Survey.mem_needs.1 h).2
    simp [Entry.isResolved, hfile]

/-! ## The next pass -/

/-- The outcome of the next pass, which may know more of the index. -/
def outcomeAgain (x : Index) : OrganizeResult :=
  (organizeWith ⟨x, o.settings⟩ d (o.requestAgain d r actions) actions).1

/-- What the next pass decides. -/
def decisionAgain (x : Index) : Reduction :=
  (weigh x d o.settings.policy
    (survey o.settings d (o.requestAgain d r actions) actions)).1

section

variable {x : Index}

theorem dropped_outcomeAgain : (o.outcomeAgain d r actions x).dropped
    = (survey o.settings d (o.requestAgain d r actions) actions).repeats
      ++ (survey o.settings d (o.requestAgain d r actions)
          actions).found.filter
        (isDropped actions (o.decisionAgain d r actions x)) :=
  dropped_organizeWith ..

theorem length_outcomeAgain (hadd : actions.add = true) :
    (o.outcomeAgain d r actions x).dropped.length
        + (o.outcomeAgain d r actions x).entries.length
      = (o.organizeWith d r actions).1.entries.length
        + (o.decisionAgain d r actions x).add.toList.length := by
  have hentries : (o.requestAgain d r actions).entries
      = (o.organizeWith d r actions).1.entries := rfl
  have horigins := (origins_dropped_append_entries ⟨x, o.settings⟩ d
    (o.requestAgain d r actions) actions).length_eq
  rw [if_pos hadd, addedFiles, hentries] at horigins
  rw [outcomeAgain, decisionAgain]
  simpa only [List.length_map, List.length_append] using horigins

theorem ownBlock_eq : o.ownBlock d r actions
    = arrange ⟨if actions.sort then o.settings.order else .keepCurrent,
        r.projectRoot, o.settings.systemRoot⟩
      (written o.settings d r actions
        (weigh o.index d o.settings.policy (survey o.settings d r actions)).1)
      (survey o.settings d r actions).unresolved := rfl

variable (hx : x.catalog d = o.index.catalog d)
include hx

theorem decisionAgain_eq :
    let v := survey o.settings d (o.requestAgain d r actions) actions
    let w := Cover.wanted (o.index.catalog d) o.settings.policy v.files v.needs
    (o.decisionAgain d r actions x).drop = v.files.diff w
      ∧ (o.decisionAgain d r actions x).add = w.diff v.files := by
  intro v w
  rw [decisionAgain, weigh_eq, hx]
  exact ⟨rfl, rfl⟩

theorem stands_iff_decisionAgain : o.Stands d r actions
    ↔ (o.decisionAgain d r actions x).drop = ∅
      ∧ (o.decisionAgain d r actions x).add = ∅ := by
  obtain ⟨hdrop, hadd⟩ := o.decisionAgain_eq d r actions hx
  rw [hdrop, hadd, Stands, FileSet.diff_eq_empty_iff, FileSet.diff_eq_empty_iff]
  constructor
  · intro h
    rw [h]
    exact ⟨fun _ hf => hf, fun _ hf => hf⟩
  · rintro ⟨hkept, hnew⟩
    ext f
    exact ⟨hnew f, hkept f⟩

/-- The next pass writes the same entries if it keeps all and adds none. -/
theorem written_again (hpublic : o.settings.preferPublic = false)
    (hremove : actions.remove = true) (h : o.Stands d r actions) :
    written o.settings d (o.requestAgain d r actions) actions
        (o.decisionAgain d r actions x)
      = ownEntries (o.organizeWith d r actions).1.entries := by
  obtain ⟨hdrop, hadd⟩ := (o.stands_iff_decisionAgain d r actions hx).1 h
  have hrevised : revised actions
      (survey o.settings d (o.requestAgain d r actions) actions)
      (o.decisionAgain d r actions x)
      = ownEntries (o.organizeWith d r actions).1.entries := by
    rw [revised, (o.found_again d r actions hpublic hremove).1, hadd]
    simp [isDropped, hdrop, FileSet.toList_empty]
  rw [written, hrevised]
  refine (List.map_congr_left fun e he => ?_).trans (List.map_id _)
  obtain ⟨he, hmoc, hresolved⟩ := mem_ownEntries.1 he
  exact (o.isFinished_of_mem_entries d r actions e he).2 hmoc hresolved

/-- The next pass drops nothing and has the same entries, if the block
stands. -/
theorem outcomeAgain_of_stands (hpublic : o.settings.preferPublic = false)
    (hremove : actions.remove = true) (h : o.Stands d r actions) :
    (o.outcomeAgain d r actions x).dropped = []
      ∧ SameEntries (o.outcomeAgain d r actions x).entries
          (o.organizeWith d r actions).1.entries := by
  obtain ⟨hdrop, _⟩ := (o.stands_iff_decisionAgain d r actions hx).1 h
  constructor
  · rw [dropped_outcomeAgain, (o.found_again d r actions hpublic hremove).2]
    simp [isDropped, hdrop]
  · have hentries : SameEntries (o.outcomeAgain d r actions x).entries
        (written o.settings d (o.requestAgain d r actions) actions
            (o.decisionAgain d r actions x)
          ++ ((survey o.settings d (o.requestAgain d r actions)
                actions).unresolved
            ++ (o.organizeWith d r actions).1.entries.filter (·.isMoc))) :=
      entries_sameEntries ..
    rw [o.written_again d r actions hx hpublic hremove h, unresolved_again,
      ← List.append_assoc] at hentries
    refine hentries.trans (sameEntries_of_perm ?_)
    refine (List.Perm.append_right _ (List.filter_append_perm
      (fun e : Entry => e.isResolved) _)).trans ?_
    have hmoc := List.filter_append_perm (fun e : Entry => !e.isMoc)
      (o.organizeWith d r actions).1.entries
    simpa using hmoc

/-- Only if the block stands, the next pass drops nothing and has as many
entries. -/
theorem stands_of_length (hremove : actions.remove = true)
    (hadd : actions.add = true)
    (hdropped : (o.outcomeAgain d r actions x).dropped = [])
    (hlength : (o.outcomeAgain d r actions x).entries.length
      = (o.organizeWith d r actions).1.entries.length) :
    o.Stands d r actions := by
  rw [o.stands_iff_decisionAgain d r actions hx]
  constructor
  · -- a file to drop would have an entry to be dropped
    ext f
    simp only [FileSet.not_mem_empty, iff_false]
    intro hf
    have hfile := hf
    rw [(o.decisionAgain_eq d r actions hx).1] at hfile
    obtain ⟨e, he, rfl⟩ :=
      List.mem_map.1 (Survey.mem_files.1 (FileSet.mem_diff.1 hfile).1).1
    have hmem : e ∈ (o.outcomeAgain d r actions x).dropped := by
      rw [dropped_outcomeAgain]
      refine List.mem_append_right _ (List.mem_filter.2 ⟨he, ?_⟩)
      simp [isDropped, hremove, hf]
    rw [hdropped] at hmem
    cases hmem
  · -- an added file would make one entry more
    have hcount := o.length_outcomeAgain d r actions (x := x) hadd
    rw [hdropped, hlength, List.length_nil] at hcount
    have hnone : (o.decisionAgain d r actions x).add.toList = [] :=
      List.eq_nil_of_length_eq_zero (by omega)
    ext f
    rw [FileSet.mem_def, hnone]
    simp

/-- **The next pass gives the same block** from the specific to the general, if
the block stands and no own entry of it is spelled like generated code. -/
theorem entries_outcomeAgain (hpublic : o.settings.preferPublic = false)
    (hremove : actions.remove = true) (hsort : actions.sort = true)
    (horder : o.settings.order = .specificFirst)
    (hown : ∀ e ∈ o.ownBlock d r actions, e.isMoc = false)
    (h : o.Stands d r actions) :
    (o.outcomeAgain d r actions x).entries
      = (o.organizeWith d r actions).1.entries := by
  have hgenerated : ∀ e ∈ r.entries.filter (·.isMoc), e.isMoc = true :=
    fun e he => (List.mem_filter.1 he).2
  obtain ⟨hplain, hmoc⟩ := appendMoc_parts hown hgenerated
  rw [← entries_organizeWith] at hplain hmoc
  have hblock : ownBlock ⟨x, o.settings⟩ d (o.requestAgain d r actions) actions
      = o.ownBlock d r actions := by
    have hagain : ownBlock ⟨x, o.settings⟩ d (o.requestAgain d r actions)
        actions = arrange ⟨if actions.sort then o.settings.order
            else .keepCurrent, r.projectRoot, o.settings.systemRoot⟩
          (written o.settings d (o.requestAgain d r actions) actions
            (o.decisionAgain d r actions x))
          (survey o.settings d (o.requestAgain d r actions)
            actions).unresolved := ownBlock_eq ..
    rw [hagain, o.written_again d r actions hx hpublic hremove h,
      unresolved_again, ownEntries, hplain, ownBlock_eq]
    refine arrange_again (by rw [if_pos hsort, horder]) ?_ ?_
    · exact fun e he => o.isResolved_of_mem_written d r actions he
    · exact fun e he => by simpa using (List.mem_filter.1 he).2
  have hentries : (o.outcomeAgain d r actions x).entries
      = appendMoc (ownBlock ⟨x, o.settings⟩ d (o.requestAgain d r actions)
          actions)
        ((o.organizeWith d r actions).1.entries.filter (·.isMoc)) :=
    entries_organizeWith ..
  rw [hentries, hblock]
  exact hmoc

end

/-- **A pass on its own outcome.** It drops nothing and has the same entries, up
to their order and groups, exactly if the entries of the first pass that are
not spelled like generated code still provide every required file that can be
included. If the first pass spells none of its own entries like that, the block
is the same. -/
theorem organizeWith_again (x : Index) (settings : Settings) (d : Disk)
    (r : OrganizeRequest) :
    let o : Organizer := ⟨x, { settings with
      policy := .minimalEntries, order := .specificFirst,
      preferPublic := false }⟩
    let pass := o.organizeWith d r .all
    let second :=
      (pass.2.organizeWith d { r with entries := pass.1.entries } .all).1
    ((second.dropped = [] ∧ SameEntries second.entries pass.1.entries)
        ↔ ∀ f ∈ r.required, f.isEmpty = false → f ≠ r.document →
          x.isResolvable d f = true →
          ∃ e ∈ pass.1.entries, e.isMoc = false ∧ e.isResolved = true
            ∧ (f = e.file ∨ f ∈ (x.expand d e.file).1.closure))
      ∧ ((∀ e ∈ o.ownBlock d r .all, e.isMoc = false) →
          second.dropped = [] ∧ second.entries = pass.1.entries) := by
  intro o pass second
  have hcatalog : pass.2.index.catalog d = o.index.catalog d :=
    Index.catalog_expandAll ..
  have hsecond : second = o.outcomeAgain d r .all pass.2.index := rfl
  rw [hsecond, ← o.stands_iff d r .all rfl rfl rfl]
  constructor
  · constructor
    · rintro ⟨hdropped, hsame⟩
      refine o.stands_of_length d r .all hcatalog rfl rfl hdropped ?_
      have hlength := List.Perm.length_eq hsame
      rwa [List.length_map, List.length_map] at hlength
    · exact o.outcomeAgain_of_stands d r .all hcatalog rfl rfl
  · intro hown
    have hstands := o.stands_of_ownBlock d r .all rfl rfl rfl rfl hown
    exact ⟨(o.outcomeAgain_of_stands d r .all hcatalog rfl rfl hstands).1,
      o.entries_outcomeAgain d r .all hcatalog rfl rfl rfl rfl hown hstands⟩

/-- A document that needs `/p/a.moc`, a file like any other. -/
def mocRequest : OrganizeRequest where
  document := ⟨"/p/d.cpp"⟩
  required := [⟨"/p/a.moc"⟩]

/-- An index that knows `/p/a.moc`. -/
def mocIndex : Index :=
  Index.new (Snapshot.ofRows [(⟨"/p/a.moc"⟩, 1, [])] {}).1.toSource

/-- **A pass may add to its own outcome.** The first pass makes an entry for
`/p/a.moc` and spells it `a.moc`; the second takes that for generated code and
makes another one. -/
theorem organizeWith_again_moc :
    let o : Organizer := ⟨mocIndex, { preferPublic := false }⟩
    let pass := o.organizeWith ∅ mocRequest .all
    let second := (pass.2.organizeWith ∅
      { mocRequest with entries := pass.1.entries } .all).1
    pass.1.entries.map (·.spelling) = ["a.moc"]
      ∧ second.entries.map (·.file) = [⟨"/p/a.moc"⟩, ⟨"/p/a.moc"⟩]
      ∧ second.render ≠ pass.1.render := by
  decide +kernel

end Organizer

end IncludeBlock
