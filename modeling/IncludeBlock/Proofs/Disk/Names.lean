import IncludeBlock.Disk.Edit
import IncludeBlock.Proofs.Disk.Places

/-!
# The names on a disk

All that lies on a disk has names that an entry of a directory can have. A
look-up only ends at places with such names, whatever links it goes through
(`isName_of_lookup`), and what is put on a disk goes where a look-up ended. So
no change of a disk brings in any other name (`Named.save`, `Named.remove`).
-/

namespace IncludeBlock

/-- The place where a look-up ends. -/
def Target.place : Target → Location
  | .present place _ => place
  | .vacant place => place

namespace Disk

/-- The names of all that lies on the disk, and of the directory where relative
paths start, are names that an entry of a directory can have. -/
structure Named (d : Disk) : Prop where
  nodes : ∀ a ∈ d.nodes, ∀ n ∈ a.1, IsName n
  workingDirectory : ∀ n ∈ d.workingDirectory, IsName n

instance (d : Disk) : Decidable d.Named :=
  decidable_of_iff
    ((∀ a ∈ d.nodes, ∀ n ∈ a.1, IsName n)
      ∧ ∀ n ∈ d.workingDirectory, IsName n)
    ⟨fun h => ⟨h.1, h.2⟩, fun h => ⟨h.1, h.2⟩⟩

variable {d d' : Disk} {here place : Location} {node : Node} {p : Path}
  {through : Bool} {t : Target}

theorem isName_of_node? (hn : d.Named) (h : d.node? place = some node) :
    ∀ n ∈ place, IsName n := by
  rw [node?] at h
  split at h
  · rename_i hnil
    simp [hnil]
  · obtain ⟨a, ha, _⟩ := Option.map_eq_some_iff.1 h
    have hplace : a.1 = place := by simpa using List.find?_some ha
    exact hplace ▸ hn.nodes a (List.mem_of_find?_eq_some ha)

/-! ## Where a look-up ends -/

theorem isName_of_descend {onLink : Location → List String → Option Target}
    (hlink : ∀ here names t, (∀ n ∈ here, IsName n) →
      (∀ n ∈ names, '/' ∉ n.toList) → onLink here names = some t →
      ∀ n ∈ t.place, IsName n)
    {names : List String} (hhere : ∀ n ∈ here, IsName n)
    (hnames : ∀ n ∈ names, '/' ∉ n.toList)
    (h : d.descend through onLink here names = some t) :
    ∀ n ∈ t.place, IsName n := by
  induction names generalizing here with
  | nil =>
      obtain ⟨node, _, rfl⟩ := Option.map_eq_some_iff.1 h
      exact hhere
  | cons n rest ih =>
      obtain ⟨hsep, hrest⟩ := List.forall_mem_cons.1 hnames
      rw [descend] at h
      split at h
      · exact ih hhere hrest h
      rename_i hsilent
      split at h
      · exact ih (fun m hm => hhere m (List.dropLast_subset _ hm)) hrest h
      rename_i hup
      have hn : IsName n :=
        ⟨fun heq => hsilent (.inl heq), fun heq => hsilent (.inr heq), hup,
          hsep⟩
      have hnext : ∀ m ∈ here ++ [n], IsName m := by
        intro m hm
        rcases List.mem_append.1 hm with hm | hm
        · exact hhere m hm
        · exact List.mem_singleton.1 hm ▸ hn
      split at h
      · split at h
        · cases h
          exact hnext
        · cases h
      · exact ih hnext hrest h
      · split at h
        · cases h
          exact hnext
        · cases h
      · rename_i target _
        split at h
        · cases h
          exact hnext
        · -- the names of the target take the place of the link
          refine hlink _ _ _ ?_ (fun m hm => ?_) h
          · split
            · simp
            · exact hhere
          · rcases List.mem_append.1 hm with hm | hm
            · exact Path.not_mem_of_mem_namesOf hm
            · exact hrest m hm

theorem isName_of_followWithin (links : Nat) {names : List String}
    (hhere : ∀ n ∈ here, IsName n) (hnames : ∀ n ∈ names, '/' ∉ n.toList)
    (h : d.followWithin through links here names = some t) :
    ∀ n ∈ t.place, IsName n := by
  induction links generalizing here names t with
  | zero =>
      refine isName_of_descend (fun _ _ _ _ _ hnone => ?_) hhere hnames h
      cases hnone
  | succ links ih =>
      exact isName_of_descend (fun _ _ _ hhere hnames h => ih hhere hnames h)
        hhere hnames h

/-- **A look-up ends at a place that has names only.** -/
theorem isName_of_lookup (hn : d.Named) (h : d.lookup through p = some t) :
    ∀ n ∈ t.place, IsName n := by
  rw [lookup] at h
  split at h
  · refine isName_of_followWithin maxLinks ?_
      (fun n hn => Path.not_mem_of_mem_namesOf hn) h
    split
    · simp
    · exact hn.workingDirectory
  · cases h

/-! ## Changes -/

theorem Named.put (hn : d.Named) (hplace : ∀ n ∈ place, IsName n)
    (node : Node) : (d.put place node).Named where
  nodes := by
    intro a ha
    rcases List.mem_cons.1 ha with rfl | ha
    · exact hplace
    · exact hn.nodes a (List.mem_filter.1 ha).1
  workingDirectory := hn.workingDirectory

theorem isName_of_freePlace? (hn : d.Named)
    (h : d.freePlace? through p = some place) : ∀ n ∈ place, IsName n := by
  rw [freePlace?] at h
  split at h
  · rename_i hlookup
    split at h
    · cases h
      exact isName_of_lookup hn hlookup
    · cases h
  · cases h

theorem Named.makeDirectory? (hn : d.Named) (h : d.makeDirectory? p = some d') :
    d'.Named := by
  obtain ⟨place, hplace, rfl⟩ := Option.map_eq_some_iff.1 h
  exact hn.put (isName_of_freePlace? hn hplace) _

theorem Named.makeDirectoriesWithin (hn : d.Named) (depth : Nat) (p : Path) :
    (makeDirectoriesWithin depth d p).1.Named := by
  induction depth generalizing p with
  | zero => exact hn
  | succ depth ih =>
      unfold Disk.makeDirectoriesWithin
      split
      · exact hn
      split
      · rename_i hmade
        exact hn.makeDirectory? hmade
      split
      · exact hn
      split
      · split
        · have hdirs := ih ‹Path›
          split
          · rename_i hmade
            rw [hmade] at hdirs
            split
            · rename_i hlast
              exact hdirs.makeDirectory? hlast
            · exact hdirs
          · rename_i hmade
            rwa [hmade] at hdirs
        · exact hn
      · exact hn

theorem Named.write? (hn : d.Named) {bytes : List UInt8}
    (h : d.write? p bytes = some d') : d'.Named := by
  rw [Disk.write?] at h
  split at h
  · rename_i hlookup
    cases h
    exact hn.put (isName_of_lookup hn hlookup) _
  · obtain ⟨place, hplace, rfl⟩ := Option.map_eq_some_iff.1 h
    exact hn.put (isName_of_freePlace? hn hplace) _

theorem Named.makeLink? (hn : d.Named) {target : Path}
    (h : d.makeLink? p target = some d') : d'.Named := by
  obtain ⟨place, hplace, rfl⟩ := Option.map_eq_some_iff.1 h
  exact hn.put (isName_of_freePlace? hn hplace) _

/-- **Saving a file brings in no other names.** -/
theorem Named.save (hn : d.Named) (p : Path) (bytes : List UInt8) :
    (d.save p bytes).1.Named := by
  have hdirs : (p.parent?.elim (d, true) d.makeDirectories).1.Named := by
    cases p.parent? with
    | none => exact hn
    | some dir => exact hn.makeDirectoriesWithin _ dir
  rw [Disk.save]
  split
  · rename_i hmade
    rw [hmade] at hdirs
    split
    · rename_i hwritten
      exact hdirs.write? hwritten
    · exact hdirs
  · rename_i hmade
    rwa [hmade] at hdirs

/-- **Taking something away brings in no other names.** -/
theorem Named.remove (hn : d.Named) (p : Path) : (d.remove p).Named := by
  rw [Disk.remove]
  split
  · exact ⟨fun a ha => hn.nodes a (List.mem_filter.1 ha).1,
      hn.workingDirectory⟩
  · exact hn

end Disk

end IncludeBlock
