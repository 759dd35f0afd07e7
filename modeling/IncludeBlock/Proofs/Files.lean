import IncludeBlock.FileMap
import IncludeBlock.FileSet

/-!
# Sets and maps of files, said by their members

What the proofs about coverage need beyond the operations themselves: the
map that is *tabulated* from a set of files and a function, and the few
equations between sets that come up again and again. A map that is known to
be tabulated is known altogether, so two histories that end in the same
tabulated map end in equal maps.
-/

namespace IncludeBlock

namespace FileSet

variable {s t : FileSet} {f g : Path} {fs : List Path}

theorem insert_of_mem (h : f ∈ s) : s.insert f = s := by
  ext g
  rw [mem_insert]
  constructor
  · intro hg
    rcases hg with heq | hg
    · exact heq ▸ h
    · exact hg
  · exact .inr

theorem insert_union : (s.insert f).union t = (s.union t).insert f := by
  ext g
  simp [or_assoc]

theorem ofList_cons_toList (f : Path) (s : FileSet) :
    ofList (f :: s.toList) = s.insert f := by
  ext g
  rw [mem_ofList, List.mem_cons, mem_insert, mem_def]

theorem erase_of_not_mem (h : f ∉ s) : s.erase f = s := by
  ext g
  rw [mem_erase]
  constructor
  · exact And.left
  · intro hg
    exact ⟨hg, fun e => h (e ▸ hg)⟩

theorem diff_self (s : FileSet) : s.diff s = ∅ := by
  ext f
  simp

theorem diff_eq_empty_iff : s.diff t = ∅ ↔ ∀ f ∈ s, f ∈ t := by
  constructor
  · intro h f hs
    refine Decidable.byContradiction fun ht => not_mem_empty f ?_
    exact h ▸ mem_diff.2 ⟨hs, ht⟩
  · intro h
    ext f
    simp only [mem_diff, not_mem_empty, iff_false, not_and, Decidable.not_not]
    exact h f

theorem diff_ofList_nil : s.diff (ofList []) = s := by
  ext g
  simp

theorem diff_ofList_cons :
    s.diff (ofList (f :: fs)) = (s.erase f).diff (ofList fs) := by
  ext g
  simp [and_assoc]

theorem diff_diff_of_subset (h : ∀ f ∈ t, f ∈ s) : s.diff (s.diff t) = t := by
  ext f
  simp only [mem_diff, not_and, Decidable.not_not]
  constructor
  · intro hs
    exact hs.2 hs.1
  · intro ht
    exact ⟨h f ht, fun _ => ht⟩

/-- Members that fail a test make a set shrink when it is filtered. -/
theorem size_filter_lt {p : Path → Bool} (h : f ∈ s) (hp : p f = false) :
    (s.filter p).size < s.size :=
  List.length_filter_lt_length_iff_exists.2 ⟨f, h, by simp [hp]⟩

theorem size_diff_lt (h : f ∈ s) (ht : f ∈ t) : (s.diff t).size < s.size :=
  size_filter_lt h (by simp [ht])

/-- Files that are kept because they have a name have one. -/
theorem isEmpty_of_mem_ofList_filter
    (h : f ∈ ofList (fs.filter (!·.isEmpty))) : f.isEmpty = false := by
  simpa using (List.mem_filter.1 (mem_ofList.1 h)).2

theorem eq_ofList_singleton (h : ∀ g, g ∈ s ↔ g = f) : s = ofList [f] := by
  ext g
  simp [h]

theorem toList_empty : (∅ : FileSet).toList = [] := rfl

/-- A set of one member lists that member. -/
theorem toList_singleton (f : Path) : (ofList [f]).toList = [f] := rfl

theorem size_eq_one_iff : s.size = 1 ↔ ∃ f, s = ofList [f] := by
  constructor
  · intro h
    obtain ⟨f, hf⟩ := List.length_eq_one_iff.1 h
    refine ⟨f, eq_ofList_singleton fun g => ?_⟩
    rw [mem_def, hf, List.mem_singleton]
  · intro h
    obtain ⟨f, hf⟩ := h
    rw [hf]
    rfl

theorem exists_mem_of_isEmpty_eq_false (h : s.isEmpty = false) :
    ∃ f, f ∈ s := by
  cases hs : s.toList with
  | nil => simp [isEmpty, hs] at h
  | cons f fs => exact ⟨f, by simp [mem_def, hs]⟩

theorem eq_empty_of_isEmpty (h : s.isEmpty = true) : s = ∅ := by
  ext g
  simp [isEmpty_iff.1 h g]

end FileSet

namespace FileMap

variable {β : Type} {m : FileMap β} {s : FileSet} {v : Path → β} {f g : Path}

/-- Bindings with ascending files are all kept when they are inserted. -/
theorem get?_foldl_insert {l : List (Path × β)}
    (h : l.Pairwise fun a b => a.1 < b.1) (m : FileMap β) :
    (l.foldl (fun m a => m.insert a.1 a.2) m).get? f
      = (find f l).or (m.get? f) := by
  induction l generalizing m with
  | nil => rfl
  | cons a l ih =>
      rw [List.pairwise_cons] at h
      rw [List.foldl_cons, ih h.2, get?_insert, find]
      by_cases hf : f = a.1
      · subst hf
        have hnone : find a.1 l = none := by
          refine Option.eq_none_iff_forall_ne_some.2 fun b hb => ?_
          exact Path.lt_irrefl a.1 (h.1 (a.1, b) (mem_of_find hb))
        simp [hnone]
      · simp [hf, Ne.symm hf]

@[simp] theorem ofList_toList (m : FileMap β) : ofList m.toList = m := by
  refine ext fun f => ?_
  rw [ofList, get?_foldl_insert m.ascending]
  exact Option.or_none

/-- The map that binds every file of a set to its value under a function. -/
def tabulate (s : FileSet) (v : Path → β) : FileMap β :=
  ⟨s.toList.map fun f => (f, v f), List.pairwise_map.2 s.ascending⟩

@[simp] theorem get?_tabulate :
    (tabulate s v).get? f = if f ∈ s then some (v f) else none := by
  split
  · rename_i h
    exact get?_eq_some_iff.2 (List.mem_map.2 ⟨f, h, rfl⟩)
  · rename_i h
    refine Option.eq_none_iff_forall_ne_some.2 fun b hb => h ?_
    obtain ⟨g, hg, e⟩ := List.mem_map.1 (get?_eq_some_iff.1 hb)
    cases e
    exact hg

@[simp] theorem contains_tabulate :
    (tabulate s v).contains f = decide (f ∈ s) := by
  by_cases h : f ∈ s <;> simp [contains, h]

@[simp] theorem keys_tabulate : (tabulate s v).keys = s.toList := by
  simp [keys, tabulate, Function.comp_def]

theorem insert_tabulate :
    (tabulate s v).insert f (v f) = tabulate (s.insert f) v := by
  refine ext fun g => ?_
  by_cases h : g = f
  · subst h
    simp
  · simp [h]

theorem erase_tabulate :
    (tabulate s v).erase f = tabulate (s.erase f) v := by
  refine ext fun g => ?_
  by_cases h : g = f <;> simp [h]

/-- Erasing the files of a list, one after the other. -/
theorem foldl_erase_tabulate (fs : List Path) (s : FileSet) :
    fs.foldl erase (tabulate s v) = tabulate (s.diff (.ofList fs)) v := by
  induction fs generalizing s with
  | nil => rw [FileSet.diff_ofList_nil]; rfl
  | cons f fs ih =>
      rw [List.foldl_cons, erase_tabulate, ih, FileSet.diff_ofList_cons]

end FileMap

end IncludeBlock
