import IncludeBlock.Organize
import IncludeBlock.Proofs.Cover.Reduction
import IncludeBlock.Proofs.Expansion.Memo

/-!
# What a pass weighs

The entries of generated code are set aside as they came, every required file
is either weighed or the document itself, and weighing finds the accepted
entries of the reduction (`weigh_eq`).
-/

namespace IncludeBlock

/-! ## Public headers are files -/

theorem Disk.isEmpty_pathOf (place : Location) :
    (pathOf place).isEmpty = false := by
  cases place with
  | nil => rfl
  | cons n place => simp [pathOf, Path.isEmpty, String.join_cons]

theorem Disk.isEmpty_of_isFile {d : Disk} {p : Path} (h : d.isFile p = true) :
    p.isEmpty = false := by
  cases he : p.isEmpty with
  | false => rfl
  | true => simp [isFile, read?, locate, lookup, isUsable, he] at h

theorem Disk.isEmpty_canonical {d : Disk} {p : Path}
    (h : p.isEmpty = false) : (d.canonical p).isEmpty = false := by
  rw [canonical, canonical?]
  cases d.locate p with
  | none => exact h
  | some a => exact isEmpty_pathOf a.1

namespace Resolution

theorem isFile_of_mem_publicCandidates {d : Disk} {file dir header : Path}
    {stem : String} (h : header ∈ publicCandidates d file dir stem) :
    d.isFile header = true := by
  rw [publicCandidates] at h
  split at h
  · obtain ⟨a, ha, hheader⟩ := List.mem_map.1 h
    have htest := (List.mem_filter.1 ha).2
    simp only [Bool.and_eq_true] at htest
    rw [← hheader]
    exact htest.1.1.2
  · cases h

theorem isEmpty_of_publicHeader? {d : Disk} {file header : Path}
    (h : publicHeader? d file = some header) : header.isEmpty = false := by
  simp only [publicHeader?, Option.bind_eq_bind, Option.bind_eq_some_iff] at h
  obtain ⟨dir, _, stem, _, h⟩ := h
  split at h
  · split at h
    · rename_i found hfound
      cases h
      have hmem : found ∈ publicCandidates d file dir stem := by
        rw [hfound]
        exact List.mem_singleton_self found
      exact Disk.isEmpty_canonical
        (Disk.isEmpty_of_isFile (isFile_of_mem_publicCandidates hmem))
    · cases h
  · cases h

theorem isEmpty_publicForm {d : Disk} {file : Path}
    (h : file.isEmpty = false) : (publicForm d file).isEmpty = false := by
  rw [publicForm]
  cases hheader : publicHeader? d file with
  | none => exact h
  | some header => exact isEmpty_of_publicHeader? hheader

end Resolution

namespace Organize

variable {d : Disk} {s : Settings} {r : OrganizeRequest} {actions : Actions}

theorem isEmpty_preferredForm {f : Path} (h : f.isEmpty = false) :
    (preferredForm d s f).isEmpty = false := by
  rw [preferredForm]
  split
  · exact Resolution.isEmpty_publicForm h
  · exact h

/-! ## What is set aside -/

/-- The search does not touch how an entry is written, and leaves generated
code alone. -/
theorem isMoc_resolveEntry (roots : List Path) (e : Entry) :
    (resolveEntry d roots e).isMoc = e.isMoc := by
  rw [resolveEntry]
  split
  · split <;> rfl
  · rfl

theorem resolveEntry_of_isMoc (roots : List Path) {e : Entry}
    (h : e.isMoc = true) : resolveEntry d roots e = e := by
  simp [resolveEntry, h]

theorem moc_survey (s : Settings) (d : Disk) (r : OrganizeRequest)
    (actions : Actions) :
    (survey s d r actions).moc = r.entries.filter (·.isMoc) := by
  show (searched s d r actions).filter (·.isMoc) = _
  rw [searched]
  split
  · rw [List.filter_map]
    have hmoc : ((·.isMoc) ∘ resolveEntry d (r.spellingRoots d))
        = fun e : Entry => e.isMoc := funext (isMoc_resolveEntry _)
    rw [hmoc]
    refine (List.map_congr_left fun e he => ?_).trans (List.map_id _)
    exact resolveEntry_of_isMoc _ (List.mem_filter.1 he).2
  · rfl

/-! ## What is required -/

/-- The files that are required once public headers took the place of private
ones. -/
def preferredFiles (d : Disk) (s : Settings) (r : OrganizeRequest) : FileSet :=
  .ofList ((r.required.filter (!·.isEmpty)).map (preferredForm d s))

theorem mem_preferredFiles {p : Path} : p ∈ preferredFiles d s r
    ↔ ∃ f ∈ r.required, f.isEmpty = false ∧ preferredForm d s f = p := by
  simp only [preferredFiles, FileSet.mem_ofList, List.mem_map, List.mem_filter,
    Bool.not_eq_true', and_assoc]

theorem mem_required_survey {p : Path} :
    p ∈ (survey s d r actions).required
      ↔ p ∈ preferredFiles d s r ∧ p ≠ r.document := by
  show p ∈ (preferredFiles d s r).filter (· != r.document) ↔ _
  rw [FileSet.mem_filter, bne_iff_ne]

theorem mem_self_survey {p : Path} :
    p ∈ (survey s d r actions).self
      ↔ p ∈ preferredFiles d s r ∧ p = r.document := by
  show p ∈ (preferredFiles d s r).filter (· == r.document) ↔ _
  rw [FileSet.mem_filter, beq_iff_eq]

end Organize

/-! ## Weighing -/

namespace Survey

/-- The files of the entries to weigh. -/
def files (v : Survey) : FileSet :=
  .ofList ((v.found.map (·.file)).filter (!·.isEmpty))

/-- The files that they are weighed against. -/
def needs (v : Survey) : FileSet :=
  .ofList (v.required.toList.filter (!·.isEmpty))

theorem mem_files {v : Survey} {f : Path} :
    f ∈ v.files ↔ f ∈ v.found.map (·.file) ∧ f.isEmpty = false := by
  rw [files, FileSet.mem_ofList, List.mem_filter, Bool.not_eq_true']

theorem mem_needs {v : Survey} {f : Path} :
    f ∈ v.needs ↔ f ∈ v.required ∧ f.isEmpty = false := by
  rw [needs, FileSet.mem_ofList, List.mem_filter, Bool.not_eq_true',
    FileSet.mem_def]

end Survey

namespace Organize

open Cover CoverageMap

/-- **What weighing finds** is what the policy accepts, whatever the index
expands for it. -/
theorem weigh_eq (x : Index) (d : Disk) (policy : Policy) (v : Survey) :
    (weigh x d policy v).1
      = { drop := v.files.diff (wanted (x.catalog d) policy v.files v.needs)
          add := (wanted (x.catalog d) policy v.files v.needs).diff v.files
          uncoverable :=
            uncoverable (x.catalog d)
              (ofSets (x.catalog d) v.files v.needs) } := by
  rw [weigh]
  dsimp only
  rw [Index.catalog_expandAll, build_eq, ← Survey.files, ← Survey.needs,
    reduce_ofSets]

/-- Every accepted file has an entry after dropping and adding. -/
theorem mem_revised_of_mem_wanted {x : Index} {d : Disk} {policy : Policy}
    {actions : Actions} (hadd : actions.add = true) {v : Survey} {f : Path}
    (hf : f ∈ wanted (x.catalog d) policy v.files v.needs) :
    f ∈ (revised actions v (weigh x d policy v).1).map (·.file) := by
  rw [weigh_eq]
  by_cases hE : f ∈ v.files
  · obtain ⟨e, he, hfile⟩ := List.mem_map.1 (Survey.mem_files.1 hE).1
    refine List.mem_map.2 ⟨e, List.mem_append_left _ ?_, hfile⟩
    refine List.mem_filter.2 ⟨he, ?_⟩
    simp [isDropped, hfile, hf]
  · refine List.mem_map.2 ⟨.synthesized f, List.mem_append_right _ ?_, rfl⟩
    rw [if_pos hadd]
    exact List.mem_map.2 ⟨f, FileSet.mem_diff.2 ⟨hf, hE⟩, rfl⟩

/-- What is weighed and not given up is reached by an accepted file. -/
theorem reaches_of_mem_needs {x : Index} {d : Disk} {policy : Policy}
    {v : Survey} {f : Path} (hf : f ∈ v.needs)
    (hn : f ∉ (weigh x d policy v).1.uncoverable) :
    ∃ w ∈ wanted (x.catalog d) policy v.files v.needs,
      (x.catalog d).covers w f = true := by
  rw [weigh_eq] at hn
  exact reaches_wanted policy f (FileSet.mem_diff.2 ⟨hf, hn⟩)

end Organize

end IncludeBlock
