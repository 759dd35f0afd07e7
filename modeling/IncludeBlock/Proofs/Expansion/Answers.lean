import IncludeBlock.Proofs.Expansion.Memo
import IncludeBlock.Proofs.Expansion.Reachability
import IncludeBlock.Snapshot.Basic
import Mathlib.Algebra.Ring.Nat

/-!
# What an index answers

An index that has expanded any files answers for a file with the files that it
reaches and with their capped weight.
-/

namespace IncludeBlock

namespace Index

/-- Capping each step of a sum caps the sum. -/
theorem total_eq {own : Nat} (h : own ≤ maxWeight) (weights : List Nat) :
    total own weights = min maxWeight (own + weights.sum) := by
  induction weights generalizing own with
  | nil => simp [total, Nat.min_eq_right h]
  | cons w weights ih =>
      show total (min maxWeight (own + w)) weights = _
      rw [ih (Nat.min_le_left _ _), List.sum_cons]
      omega

/-- **An expansion is what a file reaches and what that weighs.** Whatever was
expanded earlier, the closure is all that the file reaches over one or more
includes of files that were read; a file weighs what the source says of a file
that was read and otherwise what is on the disk; and the weight counts the file
and everything in its closure once, up to the greatest weight. No size of a
file is greater than that (`hword`). -/
theorem expand_exact (s : Source) (d : Disk) (earlier : List Path) (f : Path)
    (hword : (if s.knows f then (s.size? f).getD (d.byteSize f)
      else d.byteSize f) ≤ maxWeight) :
    let own : Path → Nat := fun g =>
      if s.knows g then (s.size? g).getD (d.byteSize g) else d.byteSize g
    let e := (((Index.new s).expandAll d earlier).expand d f).1
    (∀ g, g ∈ e.closure ↔ s.Reaches f g ∧ g ≠ f)
      ∧ e.own = own f
      ∧ e.closure.toList.Nodup
      ∧ e.weight = min maxWeight (own f + (e.closure.toList.map own).sum) := by
  intro own e
  have hown : ∀ g, sizeOf s d g = own g := by
    intro g
    rw [sizeOf]
    show _ = if s.knows g then _ else _
    cases s.knows g with
    | true => cases s.size? g <;> simp
    | false => rfl
  have he : e = (Index.new s).expansion d f := by
    show (Index.expand _ d f).1 = _
    rw [expand_fst, expansion_expandAll]
  have hfresh : e = ⟨own f, total (own f) ((s.closure f).toList.map own),
      s.closure f⟩ := by
    rw [he, ← hown f, ← funext hown]
    rfl
  rw [hfresh]
  refine ⟨fun g => Source.mem_closure_iff, rfl, FileSet.nodup _, ?_⟩
  exact total_eq hword _

/-- Two files that include each other; one of them also includes a file that
was never read and is on the disk. -/
def looped : Source :=
  (Snapshot.ofRows [(⟨"/a"⟩, 3, [⟨"/b"⟩]), (⟨"/b"⟩, 4, [⟨"/a"⟩, ⟨"/c"⟩])]
    {}).1.toSource

theorem expand_looped :
    let d : Disk :=
      { nodes := [(["c"], .file [0, 0])], workingDirectory := [] }
    let e := (((Index.new looped).expandAll d [⟨"/b"⟩]).expand d ⟨"/a"⟩).1
    looped.Reaches ⟨"/a"⟩ ⟨"/a"⟩ ∧ (⟨"/a"⟩ : Path) ∉ e.closure
      ∧ looped.Reaches ⟨"/a"⟩ ⟨"/c"⟩ ∧ (⟨"/c"⟩ : Path) ∈ e.closure
      ∧ e.own = 3 ∧ e.weight = 9 := by
  intro d e
  obtain ⟨hclosure, hown, _, hweight⟩ :=
    expand_exact looped d [⟨"/b"⟩] ⟨"/a"⟩ (by decide +kernel)
  have hab : looped.Reaches ⟨"/a"⟩ ⟨"/b"⟩ := .step (by decide +kernel)
  have hba : looped.Reaches ⟨"/b"⟩ ⟨"/a"⟩ := .step (by decide +kernel)
  have hbc : looped.Reaches ⟨"/b"⟩ ⟨"/c"⟩ := .step (by decide +kernel)
  refine ⟨hab.append hba, fun h => ((hclosure _).1 h).2 rfl, hab.append hbc,
    (hclosure _).2 ⟨hab.append hbc, by decide⟩, ?_, ?_⟩
  · exact hown.trans (by decide +kernel)
  · exact hweight.trans (by decide +kernel)

end Index

end IncludeBlock
