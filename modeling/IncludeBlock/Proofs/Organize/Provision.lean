import IncludeBlock.Proofs.Organize.Arrangement
import IncludeBlock.Proofs.Organize.Survey
import IncludeBlock.Snapshot.Basic

/-!
# A pass provides what is required

The reduction leaves accepted files, and each of them has an entry in the new
block (`mem_revised_of_mem_wanted`, `mem_block`). So a required file that a
pass does not give up is included by the block, directly or through one of its
entries.
-/

namespace IncludeBlock

namespace Organize

theorem mem_block {s : Settings} {d : Disk} {r : OrganizeRequest}
    {actions : Actions} {v : Survey} {k : Reduction} {f : Path}
    (h : f ∈ (revised actions v k).map (·.file)) :
    f ∈ (block s d r actions v k).map (·.file) := by
  refine (arrange_sameEntries _ _ _).mem_files.2 ?_
  rw [List.map_append, List.map_map]
  exact List.mem_append_left _ h

end Organize

namespace Organizer

open Organize

variable (o : Organizer) (d : Disk) (r : OrganizeRequest) (actions : Actions)

/-- The block of a pass without the entries of generated code. -/
def ownBlock : List Entry :=
  let v := survey o.settings d r actions
  block o.settings d r actions v (weigh o.index d o.settings.policy v).1

theorem entries_organizeWith :
    (o.organizeWith d r actions).1.entries
      = appendMoc (o.ownBlock d r actions)
          (r.entries.filter (·.isMoc)) := by
  rw [← moc_survey o.settings d r actions]
  unfold organizeWith ownBlock
  dsimp only

theorem uncoverable_organizeWith :
    (o.organizeWith d r actions).1.uncoverable
      = ((survey o.settings d r actions).self.union
          (weigh o.index d o.settings.policy
            (survey o.settings d r actions)).1.uncoverable).toList := by
  unfold organizeWith
  dsimp only

/-- A required file that is not given up has an accepted file that reaches it,
and that file has an entry. -/
theorem exists_entry_of_needed (hadd : actions.add = true) {p : Path}
    (hp : p ∈ preferredFiles d o.settings r)
    (hn : p ∉ (o.organizeWith d r actions).1.uncoverable) :
    ∃ e ∈ o.ownBlock d r actions, e.isResolved = true
      ∧ (o.index.catalog d).covers e.file p = true := by
  rw [uncoverable_organizeWith, ← FileSet.mem_def, FileSet.mem_union,
    not_or] at hn
  obtain ⟨hself, hreduced⟩ := hn
  obtain ⟨f, _, hf, hform⟩ := mem_preferredFiles.1 hp
  have hnonempty : p.isEmpty = false := hform ▸ isEmpty_preferredForm hf
  have hdocument : p ≠ r.document :=
    fun h => hself (mem_self_survey.2 ⟨hp, h⟩)
  have hneed : p ∈ (survey o.settings d r actions).needs :=
    Survey.mem_needs.2 ⟨mem_required_survey.2 ⟨hp, hdocument⟩, hnonempty⟩
  obtain ⟨w, hw, hc⟩ := reaches_of_mem_needs hneed hreduced
  have hresolved : w.isEmpty = false := by
    rcases Cover.mem_or_mem_of_mem_wanted hw with h | h
    · exact (Survey.mem_files.1 h).2
    · exact (Survey.mem_needs.1 h).2
  obtain ⟨e, he, hfile⟩ :=
    List.mem_map.1 (mem_block (mem_revised_of_mem_wanted hadd hw))
  refine ⟨e, he, ?_, ?_⟩
  · rw [Entry.isResolved, hfile, hresolved]
    rfl
  · rw [hfile]
    exact hc

/-- **A pass provides what is required.** The new block ends with the entries
of generated code as they came, regrouped. Of a required file, or of its public
header where that is preferred, it includes the file itself or one that pulls
it in before that, unless the pass gives the file up. -/
theorem provided_of_required (hadd : actions.add = true) :
    let result := (o.organizeWith d r actions).1
    ∃ block group,
      result.entries
          = block ++ (r.entries.filter (·.isMoc)).map ({ · with group })
        ∧ ∀ f ∈ r.required, f.isEmpty = false →
            preferredForm d o.settings f ∉ result.uncoverable →
            ∃ e ∈ block, e.isResolved = true
              ∧ (preferredForm d o.settings f = e.file
                ∨ preferredForm d o.settings f
                    ∈ (o.index.expand d e.file).1.closure) := by
  intro result
  refine ⟨o.ownBlock d r actions, _, o.entries_organizeWith d r actions, ?_⟩
  intro f hf hnonempty hn
  have hp : preferredForm d o.settings f ∈ preferredFiles d o.settings r :=
    mem_preferredFiles.2 ⟨f, hf, hnonempty, rfl⟩
  obtain ⟨e, he, hresolved, hc⟩ :=
    o.exists_entry_of_needed d r actions hadd hp hn
  exact ⟨e, he, hresolved, Index.covers_iff.1 hc⟩

/-- A document that includes `/b` and generated code, and needs `/x` and
`/y`. -/
def smallRequest : OrganizeRequest where
  document := ⟨"/d"⟩
  entries := [.resolved ⟨"/b"⟩ "b" (some 1) true,
    .unresolved "d.moc" (some 2) true]
  required := [⟨"/x"⟩, ⟨"/y"⟩]

theorem provided_smallRequest :
    ∃ block group,
      (organizeWith ⟨Cover.overlapping, {}⟩ ∅ smallRequest
          .all).1.entries
        = block ++ (smallRequest.entries.filter (·.isMoc)).map
            ({ · with group })
      ∧ ∃ e ∈ block, e.isResolved = true
        ∧ (⟨"/y"⟩ = e.file
          ∨ ⟨"/y"⟩ ∈ (Cover.overlapping.expand ∅ e.file).1.closure) :=
  let ⟨block, group, hentries, hall⟩ := provided_of_required
    ⟨Cover.overlapping, {}⟩ ∅ smallRequest .all rfl
  ⟨block, group, hentries,
    hall ⟨"/y"⟩ (by decide) (by decide) (by decide +kernel)⟩

end Organizer

end IncludeBlock
