import IncludeBlock.Proofs.Disk.Components
import IncludeBlock.Proofs.Resolution.Spelling

/-!
# The shortest spelling and joining

Behind a root that a path lies below stand only steps, components that their
texts stand for wherever they are (`isStep_of_append`). So the path seen from
the root is spelled by them, and joined to the root it has the components of the
path (`components_relativeTo`, `components_join_relativeTo`). The shortest
spelling is the path seen from any of the deepest roots, and its end as seen
from any other one (`shortestSpelling_inverts`). Nothing is asked of the texts:
they may hold repeated separators, points and steps up.
-/

namespace IncludeBlock

open Disk

namespace Component

/-- A component that its text stands for behind any path. -/
def IsStep (c : Component) : Prop :=
  '/' ∉ c.text.toList ∧ ofName? c.text = some c

theorem IsStep.text_ne {c : Component} (h : c.IsStep) : c.text ≠ "" := by
  intro hempty
  have hnone : ofName? c.text = none := by
    rw [hempty]
    rfl
  rw [h.2] at hnone
  cases hnone

theorem IsStep.ofFront {c : Component} (h : c.IsStep) :
    Component.ofFront c.text = c := by
  rw [Component.ofFront, if_neg h.text_ne, h.2, Option.getD_some]

theorem filterMap_text {cs : List Component} (h : ∀ c ∈ cs, c.IsStep) :
    (cs.map text).filterMap ofName? = cs := by
  induction cs with
  | nil => rfl
  | cons c cs ih =>
      obtain ⟨hc, hcs⟩ := List.forall_mem_cons.1 h
      rw [List.map_cons, List.filterMap_cons_some hc.2, ih hcs]

end Component

namespace Path

variable {p : Path} {front cs : List Component}

/-- What does not stand in front is a step. -/
theorem isStep_of_append (h : p.components = front ++ cs) (hfront : front ≠ []) :
    ∀ c ∈ cs, c.IsStep := by
  have hp : p.text ≠ "" := by
    intro hempty
    have hnil := components_eq_nil_iff.2 (beq_iff_eq.2 hempty)
    rw [hnil] at h
    exact hfront (List.append_eq_nil_iff.1 h.symm).1
  obtain ⟨first, names, hnames⟩ :=
    List.exists_cons_of_ne_nil (namesOf_ne_nil p)
  rw [components_of_namesOf hp hnames] at h
  obtain ⟨c₀, front, rfl⟩ := List.exists_cons_of_ne_nil hfront
  have hcs := (List.cons.inj h).2
  intro c hc
  have hmem : c ∈ names.filterMap Component.ofName? :=
    hcs ▸ List.mem_append_right _ hc
  obtain ⟨n, hn, hsome⟩ := List.mem_filterMap.1 hmem
  rw [Component.IsStep, Component.text_eq_of_ofName? hsome]
  exact ⟨not_mem_of_mem_namesOf (hnames ▸ List.mem_cons_of_mem _ hn), hsome⟩

end Path

namespace Resolution

variable {p root : Path} {roots : List Path} {cs : List Component}

/-! ## Steps and their spelling -/

theorem components_spell (hne : cs ≠ []) (h : ∀ c ∈ cs, c.IsStep) :
    (Path.mk (spell cs)).components = cs := by
  obtain ⟨c, cs, rfl⟩ := List.exists_cons_of_ne_nil hne
  obtain ⟨hc, hcs⟩ := List.forall_mem_cons.1 h
  have hsep : ∀ piece ∈ c.text.toList :: cs.map fun c => c.text.toList,
      '/' ∉ piece := by
    refine List.forall_mem_cons.2 ⟨hc.1, fun piece hpiece => ?_⟩
    obtain ⟨step, hstep, rfl⟩ := List.mem_map.1 hpiece
    exact (hcs step hstep).1
  have hfront : c.text.toList ≠ [] :=
    fun hnil => hc.text_ne (String.toList_inj.1 hnil)
  rw [spell, List.map_cons, Path.components_unpieces hfront hsep,
    String.ofList_toList, hc.ofFront, Path.filterMap_ofPiece?, List.map_map]
  simp only [Function.comp_def, String.ofList_toList]
  rw [Component.filterMap_text hcs]

theorem components_join_spell (hroot : root.text ≠ "") (hne : cs ≠ [])
    (h : ∀ c ∈ cs, c.IsStep) :
    (root.join (spell cs)).components = root.components ++ cs := by
  have hnames := namesOf_spell hne fun c hc => (h c hc).1
  have hhead : (spell cs).toList.head? ≠ some '/' := by
    intro hhead
    have habsolute : (Path.mk (spell cs)).isAbsolute = true :=
      beq_iff_eq.2 hhead
    obtain ⟨_, _, hempty⟩ := Path.namesOf_of_isAbsolute habsolute
    rw [hnames] at hempty
    obtain ⟨c, hc, htext⟩ := List.mem_map.1 (hempty ▸ List.mem_cons_self)
    exact (h c hc).text_ne htext
  rw [Path.components_join hroot hhead, hnames, Component.filterMap_text h]

/-! ## A path seen from a root -/

/-- The path seen from a root that it lies below. -/
def relativeTo (p root : Path) : Path :=
  ⟨spell (p.components.drop root.components.length)⟩

section

variable (hroot : root ∈ rootsOf p roots)
  (hother : root.components ≠ p.components)
include hroot hother

/-- The components of a path behind those of a root. -/
theorem drop_components_spec :
    let cs := p.components.drop root.components.length
    p.components = root.components ++ cs ∧ cs ≠ [] ∧ (∀ c ∈ cs, c.IsStep)
      ∧ root.text ≠ "" := by
  obtain ⟨_, hempty, cs, hcs⟩ := mem_rootsOf.1 hroot
  have hdrop : p.components.drop root.components.length = cs := by
    rw [← hcs, List.drop_left]
  have htext : root.text ≠ "" := fun h => by simp [Path.isEmpty, h] at hempty
  simp only [hdrop]
  refine ⟨hcs.symm, ?_, ?_, htext⟩
  · rintro rfl
    exact hother (by rw [← hcs, List.append_nil])
  · exact Path.isStep_of_append hcs.symm (Path.components_ne_nil htext)

theorem components_relativeTo : (relativeTo p root).components
    = p.components.drop root.components.length := by
  obtain ⟨_, hne, hsteps, _⟩ := drop_components_spec hroot hother
  exact components_spell hne hsteps

/-- **Joined to the root, a path seen from it is the path again.** -/
theorem components_join_relativeTo :
    (root.join (relativeTo p root).text).components = p.components := by
  obtain ⟨hcs, hne, hsteps, htext⟩ := drop_components_spec hroot hother
  rw [relativeTo, components_join_spell htext hne hsteps, ← hcs]

/-- The shortest spelling is the path seen from any of the deepest roots. -/
theorem shortestSpelling_eq_relativeTo
    (hdeepest : root.components.length = deepest p roots) :
    shortestSpelling p roots = (relativeTo p root).text := by
  obtain ⟨_, hne, _⟩ := drop_components_spec hroot hother
  obtain ⟨c, cs, hcs⟩ := List.exists_cons_of_ne_nil hne
  obtain ⟨first, others, hcons⟩ := List.exists_cons_of_ne_nil
    (List.ne_nil_of_mem hroot)
  rw [relativeTo, hcs]
  simp only [shortestSpelling, hcons, ← hdeepest, hcs]

end

/-- **The shortest spelling inverts joining.** Where a path lies below roots
and none of them is the path itself, the spelling joined to any of the deepest
ones has the components of the path, and seen from any of them the path ends in
the spelling. Where it lies below none, the spelling is its bare name, or the
path itself if it has no name. -/
theorem shortestSpelling_inverts (p : Path) (roots : List Path) :
    (rootsOf p roots ≠ [] →
        (∀ root ∈ rootsOf p roots, root.components ≠ p.components) →
        (∀ root ∈ rootsOf p roots,
          (∀ other ∈ rootsOf p roots,
            other.components.length ≤ root.components.length) →
          (root.join (shortestSpelling p roots)).components = p.components)
        ∧ ∀ root ∈ rootsOf p roots,
          p.components = root.components ++ (relativeTo p root).components
          ∧ (Path.mk (shortestSpelling p roots)).components.length
              ≤ (relativeTo p root).components.length
          ∧ (relativeTo p root).endsWith ⟨shortestSpelling p roots⟩ = true)
      ∧ (rootsOf p roots = [] →
        shortestSpelling p roots = p.fileName?.getD p.text) := by
  refine ⟨fun hne hothers => ?_, fun hnil => by
    simp only [shortestSpelling, hnil]⟩
  obtain ⟨deep, hdeep, hlength⟩ := exists_deepest hne
  have hspelling :=
    shortestSpelling_eq_relativeTo hdeep (hothers deep hdeep) hlength
  refine ⟨fun root hroot hmax => ?_, fun root hroot => ?_⟩
  · have hdeepest : root.components.length = deepest p roots :=
      Nat.le_antisymm (length_le_deepest hroot) (hlength ▸ hmax deep hdeep)
    rw [shortestSpelling_eq_relativeTo hroot (hothers root hroot) hdeepest]
    exact components_join_relativeTo hroot (hothers root hroot)
  · obtain ⟨hcs, _⟩ := drop_components_spec hroot (hothers root hroot)
    have hsuffix : (relativeTo p deep).components
        <:+ (relativeTo p root).components := by
      rw [components_relativeTo hdeep (hothers deep hdeep),
        components_relativeTo hroot (hothers root hroot)]
      refine List.drop_suffix_drop_left _ ?_
      exact hlength ▸ length_le_deepest hroot
    rw [hspelling]
    refine ⟨?_, hsuffix.length_le, List.isSuffixOf_iff_suffix.2 hsuffix⟩
    rw [components_relativeTo hroot (hothers root hroot)]
    exact hcs

theorem shortestSpelling_inverts_points :
    let p : Path := ⟨"/usr//include/./qt/../x.h"⟩
    let roots : List Path := [⟨"/usr/include/"⟩, ⟨""⟩, ⟨"/usr/./include//qt/"⟩]
    shortestSpelling p roots = "../x.h"
      ∧ (Path.join ⟨"/usr/./include//qt/"⟩ "../x.h").components = p.components
      ∧ (relativeTo p ⟨"/usr/include/"⟩).endsWith ⟨"../x.h"⟩ = true
      ∧ shortestSpelling p [⟨"/usr/in"⟩] = "x.h" := by
  intro p roots
  have hspelling : shortestSpelling p roots = "../x.h" := by decide +kernel
  obtain ⟨hjoin, hends⟩ := (shortestSpelling_inverts p roots).1
    (by decide +kernel) (by decide +kernel)
  have hbare := (shortestSpelling_inverts p [⟨"/usr/in"⟩]).2 (by decide +kernel)
  rw [hspelling] at hjoin hends
  refine ⟨hspelling, hjoin _ (by decide +kernel) (by decide +kernel), ?_, ?_⟩
  · exact (hends _ (by decide +kernel)).2.2
  · exact hbare.trans (by decide +kernel)

end Resolution

end IncludeBlock
