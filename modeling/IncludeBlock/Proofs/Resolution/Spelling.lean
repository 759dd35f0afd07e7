import IncludeBlock.Proofs.Disk.LinkFree
import IncludeBlock.Resolution

/-!
# The shortest spelling leads back

The shortest spelling of a file is made of the names that lead to the file from
the directory where the spelling starts (`start?`, `namesOf_shortestSpelling`).
So from there, and without links, it leads to the file again, while from another
plain directory it can only lead to another file (`exists_start`).
-/

namespace IncludeBlock

open Disk

namespace Resolution

/-- The directory where the shortest spelling of a file starts: the deepest of
the roots that it lies below, or the directory of that root if this is the file
itself. -/
def start? (file : Path) (roots : List Path) : Option Path :=
  ((rootsOf file roots).find? fun root =>
    root.components.length == deepest file roots).map fun root =>
      if root.sameAs file then root.directory else root

variable {d : Disk} {file home dir : Path} {roots : List Path} {q : Location}
  {bytes : List UInt8}

theorem mem_rootsOf {root : Path} : root ∈ rootsOf file roots
    ↔ root ∈ roots ∧ root.isEmpty = false
      ∧ root.components <+: file.components := by
  rw [rootsOf, List.mem_filter, Path.isWithin, Bool.and_eq_true,
    Bool.not_eq_true', Path.startsWith_iff]

theorem foldl_max_spec {α : Type} (f : α → Nat) (as : List α) (n : Nat) :
    let m := as.foldl (fun n a => max n (f a)) n
    (m = n ∨ ∃ a ∈ as, f a = m) ∧ n ≤ m ∧ ∀ a ∈ as, f a ≤ m := by
  induction as generalizing n with
  | nil => simp
  | cons b bs ih =>
      obtain ⟨hmem, hn, hle⟩ := ih (max n (f b))
      simp only [List.foldl_cons]
      refine ⟨?_, by omega, ?_⟩
      · rcases hmem with heq | ⟨a, ha, heq⟩
        · rcases Nat.le_total n (f b) with h | h
          · exact .inr ⟨b, List.mem_cons_self, by omega⟩
          · exact .inl (by omega)
        · exact .inr ⟨a, List.mem_cons_of_mem _ ha, heq⟩
      · intro a ha
        rcases List.mem_cons.1 ha with rfl | ha
        · omega
        · exact hle a ha

theorem length_le_deepest {root : Path} (h : root ∈ rootsOf file roots) :
    root.components.length ≤ deepest file roots :=
  (foldl_max_spec (fun root : Path => root.components.length)
    (rootsOf file roots) 0).2.2 root h

/-- One of the roots that a file lies below is the deepest one. -/
theorem exists_deepest (h : rootsOf file roots ≠ []) :
    ∃ root ∈ rootsOf file roots,
      root.components.length = deepest file roots := by
  obtain ⟨root, hroot⟩ := List.exists_mem_of_ne_nil _ h
  obtain ⟨hattained, _⟩ := foldl_max_spec
    (fun root : Path => root.components.length) (rootsOf file roots) 0
  rcases hattained with hzero | hmem
  · refine ⟨root, hroot, Nat.le_antisymm (length_le_deepest hroot) ?_⟩
    rw [deepest, hzero]
    exact Nat.zero_le _
  · exact hmem

/-- A file below a root has a directory where its spelling starts. -/
theorem start?_ne_none (h : rootsOf file roots ≠ []) :
    start? file roots ≠ none := by
  obtain ⟨root, hroot, hlength⟩ := exists_deepest h
  intro hnone
  rw [start?, Option.map_eq_none_iff, List.find?_eq_none] at hnone
  exact hnone root hroot (by simpa using hlength)

/-! ## The names of a spelling -/

theorem namesOf_spell {cs : List Component} (hne : cs ≠ [])
    (hcs : ∀ c ∈ cs, '/' ∉ c.text.toList) :
    namesOf ⟨spell cs⟩ = cs.map Component.text := by
  have hpieces : Path.namePieces
        (Text.unpieces '/' (cs.map fun c => c.text.toList))
      = cs.map fun c => c.text.toList := by
    refine Text.pieces_unpieces (by simp [hne]) fun p hp => ?_
    obtain ⟨c, hc, rfl⟩ := List.mem_map.1 hp
    exact hcs c hc
  rw [namesOf, spell, String.toList_ofList, hpieces, List.map_map]
  simp [Function.comp_def]

/-- What the shortest spelling of a file is made of. -/
theorem shortestSpelling_spec (hroots : ∀ p ∈ roots, p.IsPlain)
    (hfile : file.components ≠ [.root]) (hhome : start? file roots = some home) :
    home.IsPlain ∧ ∃ cs, cs ≠ []
      ∧ file.components = home.components ++ cs
      ∧ shortestSpelling file roots = spell cs := by
  obtain ⟨root, hfind, hhome⟩ := Option.map_eq_some_iff.1 hhome
  have hmem := List.mem_of_find?_eq_some hfind
  obtain ⟨hroot, _, hprefix⟩ := mem_rootsOf.1 hmem
  have hplain := hroots root hroot
  have hlength : root.components.length = deepest file roots := by
    simpa using List.find?_some hfind
  obtain ⟨cs, hcs⟩ := hprefix
  have hdrop : file.components.drop (deepest file roots) = cs := by
    rw [← hcs, ← hlength, List.drop_left]
  obtain ⟨other, others, hcons⟩ := List.exists_cons_of_ne_nil
    (List.ne_nil_of_mem hmem)
  have hsame : root.sameAs file = true ↔ cs = [] := by
    rw [Path.sameAs, beq_iff_eq, ← hcs]
    exact List.self_eq_append_right
  cases cs with
  | cons c cs =>
      rw [if_neg (by simp [hsame])] at hhome
      subst hhome
      refine ⟨hplain, c :: cs, by simp, hcs.symm, ?_⟩
      simp only [shortestSpelling, hcons, hdrop]
  | nil =>
      -- the root is the file itself, and its bare name is the spelling
      rw [if_pos (hsame.2 rfl)] at hhome
      rw [List.append_nil] at hcs
      have hplace : root.place ≠ [] := by
        intro hnil
        rw [← hcs, hplain.components, hnil] at hfile
        exact hfile rfl
      obtain ⟨front, n, hfront⟩ : ∃ front n, root.place = front ++ [n] :=
        ⟨_, _, (List.dropLast_concat_getLast hplace).symm⟩
      have hnames : ∀ m ∈ front ++ [n], IsName m := hfront ▸ hplain.1
      have hparent : root.parent? = some (pathOf front) := by
        rw [← hplain.2, hfront, parent?_pathOf_concat hnames]
      have hfront' : ∀ m ∈ front, IsName m :=
        fun m hm => hnames m (List.mem_append_left _ hm)
      have hhome : home = pathOf front := by
        rw [← hhome, Path.directory, hparent]
        rfl
      have hcomponents : file.components
          = (pathOf front).components ++ [.name n] := by
        rw [← hcs, hplain.components, hfront, components_pathOf hfront',
          List.map_append]
        rfl
      subst hhome
      refine ⟨Path.isPlain_pathOf hfront', [.name n], by simp, hcomponents, ?_⟩
      simp only [shortestSpelling, hcons, hdrop]
      rw [Path.fileName?, hcomponents, List.getLast?_concat]
      simp [spell, Text.unpieces, Component.text]

/-- From where it starts, the shortest spelling goes by the last names of the
file. -/
theorem namesOf_shortestSpelling (hroots : ∀ p ∈ roots, p.IsPlain)
    (habsolute : file.isAbsolute = true) (hfile : file.components ≠ [.root])
    (hhome : start? file roots = some home) :
    home.IsPlain ∧ namesOf ⟨shortestSpelling file roots⟩ ≠ []
      ∧ (namesOf file).filter (!isSilentName ·)
        = home.place ++ namesOf ⟨shortestSpelling file roots⟩ := by
  obtain ⟨hplain, cs, hne, hcomponents, hspelling⟩ :=
    shortestSpelling_spec hroots hfile hhome
  have hcs : (namesOf file).filterMap Component.ofName?
      = home.place.map .name ++ cs := by
    have h := Path.components_of_isAbsolute habsolute
    rw [hcomponents, hplain.components] at h
    exact (List.cons.inj h).2.symm
  have hnames : namesOf ⟨spell cs⟩ = cs.map Component.text := by
    refine namesOf_spell hne fun c hc => ?_
    obtain ⟨n, hn, hc⟩ := List.mem_filterMap.1
      (hcs.symm ▸ List.mem_append_right _ hc)
    rw [Component.text_eq_of_ofName? hc]
    exact Path.not_mem_of_mem_namesOf hn
  rw [hspelling, hnames]
  refine ⟨hplain, by simp [hne], ?_⟩
  rw [← Component.map_text_filterMap_ofName?, hcs, List.map_append,
    List.map_map]
  exact congrArg (· ++ _) (List.map_id _)

/-- What leads to a file ends in a name, so it is more than the root. -/
theorem components_ne_root (hd : d.LinkFree) (habsolute : file.isAbsolute = true)
    (hlocate : d.locate file = some (q, .file bytes)) :
    file.components ≠ [.root] := by
  intro hroot
  obtain ⟨_, hfollow⟩ := (locate_eq_some_iff hd habsolute).1 hlocate
  have hnames : (namesOf file).filter (!isSilentName ·) = [] := by
    have hcomponents := Path.components_of_isAbsolute habsolute
    rw [hroot] at hcomponents
    rw [← Component.map_text_filterMap_ofName?,
      ← (List.cons.inj hcomponents).2]
    rfl
  have hnil := (endsInName_of_file holds_nil hfollow).filter_eq_nil_iff.1 hnames
  exact Path.namesOf_ne_nil file hnil

section

variable (hroots : ∀ p ∈ roots, p.IsPlain)
  (habsolute : file.isAbsolute = true) (hfile : file.components ≠ [.root])
  (hhome : start? file roots = some home)
include hroots habsolute hfile hhome

theorem not_isSilentName_of_mem {n : String}
    (hn : n ∈ home.place ++ namesOf ⟨shortestSpelling file roots⟩) :
    isSilentName n = false := by
  obtain ⟨_, _, hnames⟩ :=
    namesOf_shortestSpelling hroots habsolute hfile hhome
  rw [← hnames] at hn
  simpa using (List.mem_filter.1 hn).2

/-- The shortest spelling does not start at the root. -/
theorem head?_shortestSpelling :
    (shortestSpelling file roots).toList.head? ≠ some '/' := by
  intro hhead
  have habs : (Path.mk (shortestSpelling file roots)).isAbsolute = true := by
    rw [Path.isAbsolute, hhead]
    rfl
  obtain ⟨_, _, hnames⟩ := Path.namesOf_of_isAbsolute habs
  have hsilent := not_isSilentName_of_mem hroots habsolute hfile hhome
    (n := "") (List.mem_append_right _ (hnames ▸ List.mem_cons_self))
  cases hsilent

/-- From its start a spelling has no character more than the path of the
file. -/
theorem sublist_join_shortestSpelling :
    (home.join (shortestSpelling file roots)).text.toList.Sublist
      file.text.toList := by
  obtain ⟨hplain, _, hnames⟩ :=
    namesOf_shortestSpelling hroots habsolute hfile hhome
  have hhead := head?_shortestSpelling hroots habsolute hfile hhome
  obtain ⟨cs, hcs, hfront⟩ := Path.namesOf_of_isAbsolute habsolute
  have hsublist : (home.place ++ namesOf ⟨shortestSpelling file roots⟩).Sublist
      ((Path.namePieces cs).map String.ofList) := by
    rw [← hnames, hfront, List.filter_cons_of_neg (by decide)]
    exact List.filter_sublist
  have hpieces := hsublist.map String.toList
  rw [List.map_append, namesOf, List.map_map, List.map_map] at hpieces
  simp only [Function.comp_def, String.toList_ofList, List.map_id'] at hpieces
  rw [← hplain.2, toList_join hplain.1 hhead, hcs,
    ← Text.unpieces_pieces '/' cs]
  exact (Text.unpieces_sublist hpieces).cons_cons '/'

/-- **From where it starts, the shortest spelling leads to the file.** -/
theorem locate_start (hd : d.LinkFree)
    (hlocate : d.locate file = some (q, .file bytes)) :
    d.locate (home.join (shortestSpelling file roots))
      = some (q, .file bytes) := by
  obtain ⟨hplain, hne, hnames⟩ :=
    namesOf_shortestSpelling hroots habsolute hfile hhome
  have hsilent (n : String) := not_isSilentName_of_mem (n := n) hroots
    habsolute hfile hhome
  have hhead := head?_shortestSpelling hroots habsolute hfile hhome
  have hjoin := namesOf_join hplain.1 hhead
  rw [hplain.2] at hjoin
  have habs := isAbsolute_join hplain.1 hhead
  rw [hplain.2] at habs
  refine locate_of_filter_namesOf hd habsolute habs ?_ ?_ ?_ hlocate
  · refine isUsable_of_sublist ?_
      (sublist_join_shortestSpelling hroots habsolute hfile hhome)
      (isUsable_of_locate hlocate)
    intro hempty
    rw [Path.isAbsolute, hempty] at habs
    cases habs
  · rw [hnames, hjoin, List.filter_cons_of_neg (by decide),
      List.filter_eq_self.2]
    exact fun n hn => by simp [hsilent n hn]
  · rw [hjoin, ← List.cons_append]
    refine EndsInName.append hne (fun n hn => ?_) _
    exact hsilent n (List.mem_append_right _ (List.mem_of_getLast? hn))

/-- The shortest spelling of a plain path leads to the file from no other plain
directory. -/
theorem eq_start_of_locate (hd : d.LinkFree) (hplain : file.IsPlain)
    (hdir : dir.IsPlain)
    (hlocate : d.locate (dir.join (shortestSpelling file roots))
      = some (q, .file bytes)) (hq : pathOf q = file) : dir = home := by
  obtain ⟨hhomePlain, _, hnames⟩ :=
    namesOf_shortestSpelling hroots habsolute hfile hhome
  have hsilent (n : String) := not_isSilentName_of_mem (n := n) hroots
    habsolute hfile hhome
  have hhead := head?_shortestSpelling hroots habsolute hfile hhome
  rw [hplain.filter_namesOf] at hnames
  generalize shortestSpelling file roots = spelling at *
  have hspelling : ∀ n ∈ namesOf ⟨spelling⟩, IsName n :=
    fun n hn => hplain.1 n (hnames ▸ List.mem_append_right _ hn)
  have hfilter : (namesOf ⟨spelling⟩).filter (!isSilentName ·)
      = namesOf ⟨spelling⟩ :=
    List.filter_eq_self.2 fun n hn =>
      by simp [hsilent n (List.mem_append_right _ hn)]
  rw [← hdir.2] at hlocate
  obtain ⟨rfl, _⟩ :=
    locate_join hd hdir.1 hhead hfilter hspelling hlocate
  have hnamed := List.forall_mem_append.2 ⟨hdir.1, hspelling⟩
  have hplace : dir.place ++ namesOf ⟨spelling⟩ = file.place :=
    pathOf_injective hnamed hplain.1 (hq.trans hplain.2.symm)
  rw [hnames] at hplace
  exact hdir.eq_of_place hhomePlain (List.append_cancel_right hplace)

end

/-- **The shortest spelling of a file below a root** leads to it from where the
spelling starts, and from no other plain directory if the path is plain. -/
theorem exists_start (hd : d.LinkFree) (hroots : ∀ p ∈ roots, p.IsPlain)
    (hfile : d.isFile file = true)
    (hwithin : ∃ root ∈ roots, file.isWithin root = true) :
    let spelling := shortestSpelling file roots
    ∃ home, start? file roots = some home
      ∧ d.isFile (home.join spelling) = true
      ∧ d.canonical (home.join spelling) = d.canonical file
      ∧ ∀ dir : Path, dir.IsPlain → file.IsPlain →
          d.isFile (dir.join spelling) = true →
          d.canonical (dir.join spelling) = d.canonical file → dir = home := by
  intro spelling
  obtain ⟨root, hroot, hbelow⟩ := hwithin
  have habsolute := (hroots root hroot).isAbsolute_of_isWithin hbelow
  obtain ⟨q, bytes, hlocate⟩ := isFile_iff_locate.1 hfile
  have hname := components_ne_root hd habsolute hlocate
  obtain ⟨home, hhome⟩ := Option.ne_none_iff_exists'.1
    (start?_ne_none (List.ne_nil_of_mem (List.mem_filter.2 ⟨hroot, hbelow⟩)))
  have hback : d.locate (home.join spelling) = some (q, .file bytes) :=
    locate_start hroots habsolute hname hhome hd hlocate
  refine ⟨home, hhome, isFile_of_locate hback,
    (canonical_of_locate hback).trans (canonical_of_locate hlocate).symm, ?_⟩
  intro dir hdir hplain hother hsame
  obtain ⟨q', bytes', hlocate'⟩ := isFile_iff_locate.1 hother
  rw [canonical_of_isPlain hd hplain, canonical_of_locate hlocate'] at hsame
  exact eq_start_of_locate hroots habsolute hname hhome hd hplain hdir hlocate'
    hsame

end Resolution

end IncludeBlock
