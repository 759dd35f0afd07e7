import IncludeBlock.Proofs.Expansion.Reachability
import IncludeBlock.Region

/-!
# Components of a region

What is asked of the components that a region is divided into: they hold all
its files, the files of one pull in each other, and no include leads from one
component to a later one (`IsCondensation`). Any strongly connected components
in reverse topological order are like that; `components_isCondensation` says
that those of `Region.divide` are.
-/

namespace IncludeBlock

namespace Region

variable {r : Region} {f g : Path}

/-- Includes lead from a component to itself, to an earlier one or to the files
of `earlier`. -/
def SinksFirst (r : Region) : (earlier : List Path) → List (List Path) → Prop
  | _, [] => True
  | earlier, members :: rest =>
      (∀ f ∈ members, ∀ g ∈ r.inner f, g ∈ members ∨ g ∈ earlier)
        ∧ SinksFirst r (earlier ++ members) rest

/-- The contract of a division into components. -/
structure IsCondensation (r : Region) (components : List (List Path)) :
    Prop where
  covers : ∀ f, f ∈ components.flatten ↔ r.files.contains f = true
  nodup : ∀ members ∈ components, members.Nodup
  mutual_reach : ∀ members ∈ components, ∀ f ∈ members, ∀ g ∈ members,
    g ≠ f → r.graph.Reaches f g
  sinksFirst : r.SinksFirst [] components

theorem SinksFirst.append {earlier : List Path} {cs ds : List (List Path)}
    (hcs : r.SinksFirst earlier cs)
    (hds : r.SinksFirst (earlier ++ cs.flatten) ds) :
    r.SinksFirst earlier (cs ++ ds) := by
  induction cs generalizing earlier with
  | nil => simpa using hds
  | cons members cs ih =>
      refine ⟨hcs.1, ih hcs.2 ?_⟩
      simpa using hds

theorem next_graph : r.graph.next f = r.inner f := by
  rw [Source.next, Source.knows, Source.includes, Source.row, graph,
    FileMap.get?_mapValues, inner]
  cases r.files.get? f <;> rfl

/-! ## Dividing a region -/

section Parts

variable {fs : List Path}

/-- What comes before the component of a file is pulled in by it, and does not
pull it in. -/
theorem mem_below_iff : g ∈ fs.filter (fun g =>
      decide (g ∈ r.graph.closure f) && !decide (f ∈ r.graph.closure g))
    ↔ g ∈ fs ∧ r.graph.Reaches f g ∧ ¬ r.graph.Reaches g f := by
  rw [List.mem_filter]
  simp only [Bool.and_eq_true, Bool.not_eq_true', decide_eq_true_eq,
    decide_eq_false_iff_not, Source.mem_closure_iff]
  grind

/-- The component of a file pulls it in and is pulled in by it. -/
theorem mem_component_iff : g ∈ f :: fs.filter (fun g =>
      decide (g ∈ r.graph.closure f) && decide (f ∈ r.graph.closure g))
    ↔ g = f ∨ g ∈ fs ∧ r.graph.Reaches f g ∧ r.graph.Reaches g f := by
  rw [List.mem_cons, List.mem_filter]
  simp only [Bool.and_eq_true, decide_eq_true_eq, Source.mem_closure_iff]
  grind

/-- What comes behind is not pulled in. -/
theorem mem_rest_iff : g ∈ fs.filter (fun g =>
      !decide (g ∈ r.graph.closure f))
    ↔ g ∈ fs ∧ (g = f ∨ ¬ r.graph.Reaches f g) := by
  rw [List.mem_filter]
  simp only [Bool.not_eq_true', decide_eq_false_iff_not,
    Source.mem_closure_iff]
  grind

end Parts

/-- A division has the files that it was given. -/
theorem mem_flatten_divide {fuel : Nat} {fs : List Path}
    (hfuel : fs.length ≤ fuel) : g ∈ (r.divide fuel fs).flatten ↔ g ∈ fs := by
  induction fuel generalizing fs with
  | zero =>
      have hnil : fs = [] := List.length_eq_zero_iff.1 (by omega)
      simp [hnil, divide]
  | succ fuel ih =>
      cases fs with
      | nil => simp [divide]
      | cons f fs =>
          have hlength (p : Path → Bool) : (fs.filter p).length ≤ fuel :=
            Nat.le_trans (List.length_filter_le p fs)
              (Nat.le_of_succ_le_succ hfuel)
          rw [divide, List.flatten_append, List.flatten_cons, List.mem_append,
            List.mem_append, ih (hlength _), ih (hlength _), mem_below_iff,
            mem_component_iff, mem_rest_iff, List.mem_cons]
          grind

theorem nodup_of_mem_divide {fuel : Nat} {fs members : List Path}
    (h : fs.Nodup) (hm : members ∈ r.divide fuel fs) : members.Nodup := by
  induction fuel generalizing fs with
  | zero => simp [divide] at hm
  | succ fuel ih =>
      cases fs with
      | nil => simp [divide] at hm
      | cons f fs =>
          obtain ⟨hf, hfs⟩ := List.nodup_cons.1 h
          simp only [divide, List.mem_append, List.mem_cons] at hm
          rcases hm with hbelow | rfl | hrest
          · exact ih (hfs.sublist List.filter_sublist) hbelow
          · exact List.nodup_cons.2 ⟨fun hback => hf (List.mem_filter.1 hback).1,
              hfs.sublist List.filter_sublist⟩
          · exact ih (hfs.sublist List.filter_sublist) hrest

/-- The files of one component pull in each other: all of them pull in the file
that the component was made around and are pulled in by it. -/
theorem reaches_of_mem_divide {fuel : Nat} {fs members : List Path}
    (hm : members ∈ r.divide fuel fs) (hf : f ∈ members) (hg : g ∈ members)
    (hne : g ≠ f) : r.graph.Reaches f g := by
  induction fuel generalizing fs with
  | zero => simp [divide] at hm
  | succ fuel ih =>
      cases fs with
      | nil => simp [divide] at hm
      | cons k fs =>
          simp only [divide, List.mem_append, List.mem_cons] at hm
          rcases hm with hbelow | rfl | hrest
          · exact ih hbelow
          · rcases mem_component_iff.1 hf with rfl | ⟨_, _, hback⟩
            · exact ((mem_component_iff.1 hg).resolve_left hne).2.1
            · rcases mem_component_iff.1 hg with rfl | ⟨_, hahead, _⟩
              · exact hback
              · exact hback.append hahead
          · exact ih hrest

/-- **A division is sinks first**, if no include leads out of what is divided
but to earlier files. An include of a file that the first one pulls in is
pulled in by the first one, too; and where it leads into the component, the
file belongs there itself. -/
theorem sinksFirst_divide {fuel : Nat} {fs earlier : List Path}
    (hfuel : fs.length ≤ fuel)
    (h : ∀ a ∈ fs, ∀ b ∈ r.inner a, b ∈ fs ∨ b ∈ earlier) :
    r.SinksFirst earlier (r.divide fuel fs) := by
  induction fuel generalizing fs earlier with
  | zero => trivial
  | succ fuel ih =>
      cases fs with
      | nil => trivial
      | cons f fs =>
          have hlength (p : Path → Bool) : (fs.filter p).length ≤ fuel :=
            Nat.le_trans (List.length_filter_le p fs)
              (Nat.le_of_succ_le_succ hfuel)
          have hstep {a b : Path} (hb : b ∈ r.inner a) : r.graph.Reaches a b :=
            .step (next_graph ▸ hb)
          simp only [divide]
          refine (ih (hlength _) fun a ha b hb => ?_).append
            ⟨fun a ha b hb => ?_, ih (hlength _) fun a ha b hb => ?_⟩
          · obtain ⟨hfs, hahead, hnot⟩ := mem_below_iff.1 ha
            refine (h a (List.mem_cons_of_mem _ hfs) b hb).imp_left
              fun hb' => mem_below_iff.2 ⟨?_, hahead.append (hstep hb),
                fun hback => hnot ((hstep hb).append hback)⟩
            refine (List.mem_cons.1 hb').resolve_left fun e => ?_
            exact hnot (e ▸ hstep hb)
          · have hfb : r.graph.Reaches f b := by
              rcases mem_component_iff.1 ha with rfl | ⟨_, hahead, _⟩
              · exact hstep hb
              · exact hahead.append (hstep hb)
            have hmem : a ∈ f :: fs := by
              rcases mem_component_iff.1 ha with rfl | ⟨hfs, _⟩
              · exact List.mem_cons_self
              · exact List.mem_cons_of_mem _ hfs
            have hb' := h a hmem b hb
            rw [mem_component_iff, List.mem_append,
              mem_flatten_divide (hlength _), mem_below_iff]
            grind
          · have hb' := h a (List.mem_cons_of_mem _ (mem_rest_iff.1 ha).1) b hb
            rw [mem_rest_iff, List.mem_append, List.mem_append,
              mem_flatten_divide (hlength _), mem_below_iff, mem_component_iff]
            grind

/-- **The components of a region meet the contract**, if includes stay in the
region. -/
theorem components_isCondensation
    (hinner : ∀ f, r.files.contains f = true → ∀ g ∈ r.inner f,
      r.files.contains g = true) : r.IsCondensation r.components := by
  have hfuel : r.files.keys.length ≤ r.files.size :=
    Nat.le_of_eq (by rw [FileMap.keys, List.length_map]; rfl)
  refine ⟨fun f => ?_, fun members hm => ?_, fun members hm f hf g hg => ?_,
    sinksFirst_divide hfuel fun a ha b hb => .inl ?_⟩
  · rw [components, mem_flatten_divide hfuel, FileMap.contains_iff]
  · exact nodup_of_mem_divide r.files.nodup_keys hm
  · exact reaches_of_mem_divide hm hf hg
  · exact FileMap.contains_iff.1
      (hinner a (FileMap.contains_iff.2 ha) b hb)

end Region

end IncludeBlock
