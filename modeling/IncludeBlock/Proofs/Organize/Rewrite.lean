import IncludeBlock.Proofs.Expansion.Reachability
import IncludeBlock.Proofs.Organize.Provision

/-!
# The rewritten document

What a pass weighs are the includes as they were before. A file may be provided
by an entry that leads back to the document, over an include that the new
block no longer has; then the rewritten document need not reach it. It reaches
whatever is provided without its own old includes.
-/

namespace IncludeBlock

/-- The files that a new block includes. -/
def OrganizeResult.files (result : OrganizeResult) : List Path :=
  (result.entries.filter (·.isResolved)).map (·.file)

/-- The source after a document got the block of a pass. -/
def Source.rewritten (s : Source) (document : Path) (result : OrganizeResult) :
    Source :=
  s.withIncludes document result.files

namespace Organizer

open Organize

/-- **The rewritten document reaches what it needs** unless that takes its old
includes. A required file that is not given up is provided by a file of the new
block. The rewritten document reaches it exactly if that is so without the
includes of the document itself, and so if any provider of the file does not
lead back to the document. -/
theorem reaches_rewritten (s : Source) (earlier : List Path)
    (settings : Settings) (d : Disk) (r : OrganizeRequest) (actions : Actions)
    (hknown : s.knows r.document = true)
    (hpublic : settings.preferPublic = false) (hadd : actions.add = true) :
    let o : Organizer := ⟨(Index.new s).expandAll d earlier, settings⟩
    let result := (o.organizeWith d r actions).1
    ∀ f ∈ r.required, f.isEmpty = false → f ∉ result.uncoverable →
      (∃ e ∈ result.files, s.Provides e f)
        ∧ ((s.rewritten r.document result).Reaches r.document f
            ↔ ∃ e ∈ result.files,
                (s.withIncludes r.document []).Provides e f)
        ∧ ∀ e ∈ result.files, s.Provides e f →
            ¬ s.Provides e r.document →
            (s.rewritten r.document result).Reaches r.document f := by
  intro o result f hf hnonempty hn
  have hexact : (s.rewritten r.document result).Reaches r.document f
      ↔ ∃ e ∈ result.files, (s.withIncludes r.document []).Provides e f :=
    Source.reaches_withIncludes_iff hknown
  refine ⟨?_, hexact, ?_⟩
  · have hform : preferredForm d settings f = f := by
      rw [preferredForm, hpublic]
      rfl
    have hp : f ∈ preferredFiles d settings r :=
      mem_preferredFiles.2 ⟨f, hf, hnonempty, hform⟩
    obtain ⟨e, he, hresolved, hc⟩ :=
      o.exists_entry_of_needed d r actions hadd hp hn
    refine ⟨e.file, ?_, ?_⟩
    · refine List.mem_map.2 ⟨e, List.mem_filter.2 ⟨?_, hresolved⟩, rfl⟩
      show e ∈ (o.organizeWith d r actions).1.entries
      rw [entries_organizeWith]
      exact List.mem_append_left _ he
    · rcases Index.covers_iff.1 hc with heq | hclosure
      · exact .inl heq
      · rw [Index.closure_expand] at hclosure
        exact .inr (Source.reaches_of_mem_closure hclosure)
  · intro e he hp hback
    refine hexact.2 ⟨e, he, hp.without ?_ ?_⟩
    · intro heq
      exact hback (.inl heq.symm)
    · intro hreach
      exact hback (.inr hreach)

/-- `/d` includes `/b`, and that includes `/y`. -/
def chain : Source :=
  (Snapshot.ofRows [(⟨"/d"⟩, 1, [⟨"/b"⟩]), (⟨"/b"⟩, 1, [⟨"/y"⟩]),
    (⟨"/y"⟩, 1, [])] {}).1.toSource

/-- A document `/d` that includes `/b` and needs `/y`. -/
def chainRequest : OrganizeRequest where
  document := ⟨"/d"⟩
  entries := [.resolved ⟨"/b"⟩ "b" (some 1) false]
  required := [⟨"/y"⟩]

theorem reaches_rewritten_chain :
    (chain.rewritten ⟨"/d"⟩ (organizeWith
        ⟨(Index.new chain).expandAll ∅ [], { preferPublic := false }⟩
        ∅ chainRequest .all).1).Reaches ⟨"/d"⟩ ⟨"/y"⟩ := by
  have hprovided : chain.Provides ⟨"/b"⟩ ⟨"/y"⟩ :=
    .inr (.step (by decide +kernel))
  have hback : ¬ chain.Provides ⟨"/b"⟩ ⟨"/d"⟩ := by
    intro h
    rcases h with heq | hreach
    · exact absurd heq (by decide)
    · -- nothing leads from these two files to another
      have hmem := hreach.mem_of_closed [⟨"/b"⟩, ⟨"/y"⟩]
        (by decide +kernel) (by decide)
      exact absurd hmem (by decide)
  exact (reaches_rewritten chain [] { preferPublic := false } ∅
    chainRequest .all (by decide +kernel) rfl rfl ⟨"/y"⟩ (by decide)
    (by decide) (by decide +kernel)).2.2 ⟨"/b"⟩ (by decide +kernel) hprovided
    hback

/-- `/a` provides `/y`, but only over the document `/d`, which includes it. -/
def cyclic : Source :=
  (Snapshot.ofRows [(⟨"/d"⟩, 1, [⟨"/a"⟩, ⟨"/b"⟩]),
    (⟨"/a"⟩, 1, [⟨"/d"⟩, ⟨"/x"⟩]), (⟨"/b"⟩, 1, [⟨"/y"⟩]), (⟨"/x"⟩, 1, []),
    (⟨"/y"⟩, 1, [])] {}).1.toSource

/-- The document `/d` with its two includes, which needs `/x` and `/y`. -/
def cyclicRequest : OrganizeRequest where
  document := ⟨"/d"⟩
  entries := [.resolved ⟨"/a"⟩ "a" (some 1) false,
    .resolved ⟨"/b"⟩ "b" (some 2) false]
  required := [⟨"/x"⟩, ⟨"/y"⟩]

/-- **Old includes may be relied on that the pass removes.** The include of
`/b` is dropped because `/a` leads back to the document and so to `/b`. -/
theorem not_reaches_cyclic :
    let result := (organizeWith
      ⟨Index.new cyclic, { preferPublic := false }⟩
      ∅ cyclicRequest .all).1
    cyclic.knows ⟨"/d"⟩ = true
      ∧ cyclicRequest.entries.map (·.file) = cyclic.includes ⟨"/d"⟩
      ∧ ⟨"/y"⟩ ∈ cyclicRequest.required
      ∧ ⟨"/y"⟩ ∉ result.uncoverable
      ∧ ¬ (cyclic.rewritten ⟨"/d"⟩ result).Reaches ⟨"/d"⟩ ⟨"/y"⟩ := by
  refine ⟨by decide +kernel, by decide +kernel, by decide, by decide +kernel,
    fun h => ?_⟩
  have hmem := h.mem_of_closed [⟨"/d"⟩, ⟨"/a"⟩, ⟨"/x"⟩]
    (by decide +kernel) (by decide)
  exact absurd hmem (by decide)

end Organizer

end IncludeBlock
