import IncludeBlock.Proofs.Disk.Search
import IncludeBlock.Resolution

/-!
# What a spelling means

On a disk without links a spelling means the first file that a search comes
upon: the roots come in their order, and below each of them the files in the
order of their names (`resolve_eq_some_iff`).
-/

namespace IncludeBlock.Resolution

open Disk

variable {d : Disk} {wanted root file : Path} {roots : List Path}
  {ns : List String} {spelling : String}

/-! ## Hits -/

/-- The names `ns` lead from a root that is there to a file that a search for a
path finds: it is not too deep, and the last components of the path by which
it is reached are those of the path searched for. -/
structure Hit (d : Disk) (wanted root : Path) (ns : List String) : Prop where
  reached : d.pathExists root = true
  names : ∀ n ∈ ns, IsName n
  depth : ns.length ≤ maxDepth
  file : d.LeadsToFile root ns
  ends : (ns.foldl Path.join root).endsWith wanted = true

/-- The file that a search comes upon first: below the first root that has one,
and of those below this root the one that is earlier than all others. -/
def FirstHit (d : Disk) (wanted : Path) (roots : List Path) (file : Path) :
    Prop :=
  ∃ pre root post ns, roots = pre ++ root :: post
    ∧ Hit d wanted root ns ∧ file = d.canonical (ns.foldl Path.join root)
    ∧ (∀ other ∈ pre, ∀ ms, ¬ Hit d wanted other ms)
    ∧ ∀ ms, Hit d wanted root ms → ¬ Earlier ms ns

theorem hit_iff_mem_filesFrom (hd : d.LinkFree) (hn : d.Named)
    (hstart : d.Holds (d.start root) .directory) :
    Hit d wanted root ns
      ↔ ns ∈ d.filesFrom maxDepth root
        ∧ (ns.foldl Path.join root).endsWith wanted = true := by
  rw [mem_filesFrom hd hn hstart]
  constructor
  · rintro ⟨hreached, hnames, hdepth, hfile, hends⟩
    exact ⟨⟨hreached, hnames, hdepth, hfile⟩, hends⟩
  · rintro ⟨⟨hreached, hnames, hdepth, hfile⟩, hends⟩
    exact ⟨hreached, hnames, hdepth, hfile, hends⟩

/-- The path to a hit ends in a name. -/
theorem Hit.exists_fileName? (hd : d.LinkFree) (hn : d.Named)
    (hstart : d.Holds (d.start root) .directory) (h : Hit d wanted root ns) :
    ∃ n, (ns.foldl Path.join root).fileName? = some n := by
  rcases h.file with ⟨rfl, hfile⟩ | ⟨front, n, rfl, _⟩
  · obtain ⟨q, bytes, hlocate⟩ := isFile_iff_locate.1 hfile
    obtain ⟨names, _, n, hnames, hname, _⟩ :=
      exists_namesOf_of_locate hd hn hstart hlocate
    exact ⟨n, Path.fileName?_of_namesOf hname hnames⟩
  · have hname : IsName n := h.names n (by simp)
    refine ⟨n, ?_⟩
    rw [List.foldl_append]
    exact Path.fileName?_join_name hname _

/-- What a search finds ends in a name, and so does what it looks for. -/
theorem Hit.fileName?_isSome (hd : d.LinkFree) (hn : d.Named)
    (hstart : d.Holds (d.start root) .directory) (h : Hit d wanted root ns)
    (hwanted : wanted.text ≠ "") : wanted.fileName?.isSome = true := by
  obtain ⟨n, hname⟩ := h.exists_fileName? hd hn hstart
  obtain ⟨front, hfront⟩ := List.isSuffixOf_iff_suffix.1 h.ends
  have hlast := congrArg List.getLast? hfront
  rw [List.getLast?_append, List.getLast?_eq_some_getLast
    (Path.components_ne_nil hwanted), Option.some_or,
    ← List.getLast?_eq_some_getLast] at hlast
  rw [Path.fileName?, hlast, ← Path.fileName?, hname]
  rfl

/-! ## The search -/

/-- In a list in order the first element with a property is the one that no
other with the property comes before. -/
theorem find?_eq_some_iff_of_pairwise {α : Type} {R : α → α → Prop}
    (hasymm : ∀ a b, R a b → ¬ R b a) {as : List α} (has : as.Pairwise R)
    {p : α → Bool} {a : α} :
    as.find? p = some a
      ↔ a ∈ as ∧ p a = true ∧ ∀ b ∈ as, p b = true → ¬ R b a := by
  constructor
  · intro h
    refine ⟨List.mem_of_find?_eq_some h, List.find?_some h, ?_⟩
    intro b hb hpb hba
    obtain ⟨_, front, rest, rfl, hfront⟩ := List.find?_eq_some_iff_append.1 h
    rcases List.mem_append.1 hb with hmem | hmem
    · exact absurd hpb (by simpa using hfront b hmem)
    · rcases List.mem_cons.1 hmem with rfl | hmem
      · exact hasymm _ _ hba hba
      · have hrest := (List.pairwise_append.1 has).2.1
        exact hasymm _ _ hba ((List.pairwise_cons.1 hrest).1 b hmem)
  · rintro ⟨ha, hpa, hfirst⟩
    cases h : as.find? p with
    | none => exact absurd hpa (List.find?_eq_none.1 h a ha)
    | some b =>
        obtain ⟨hpb, front, rest, rfl, hfront⟩ :=
          List.find?_eq_some_iff_append.1 h
        rcases List.mem_append.1 ha with hmem | hmem
        · exact absurd hpa (by simpa using hfront a hmem)
        · rcases List.mem_cons.1 hmem with rfl | hmem
          · rfl
          · have hrest := (List.pairwise_append.1 has).2.1
            refine absurd ((List.pairwise_cons.1 hrest).1 a hmem) ?_
            exact hfirst b (by simp) hpb

/-- What the search below one root finds. -/
def searchBelow (d : Disk) (wanted root : Path) : Option Path :=
  ((d.walk filesFirst maxDepth root).bind
    (·.find? (matchesSpelling wanted))).map fun v => d.canonical v.path

theorem searchBelow_eq (hd : d.LinkFree) (wanted root : Path) :
    searchBelow d wanted root
      = ((d.filesFrom maxDepth root).find? fun ns =>
          (ns.foldl Path.join root).endsWith wanted).map
        fun ns => d.canonical (ns.foldl Path.join root) := by
  have hvisits : (d.walk filesFirst maxDepth root).bind
        (·.find? (matchesSpelling wanted))
      = (((d.walk filesFirst maxDepth root).getD []).filter (·.isFile)).find?
          fun v => v.path.endsWith wanted := by
    rw [List.find?_filter]
    cases d.walk filesFirst maxDepth root with
    | none => rfl
    | some visits =>
        refine congrArg (visits.find? ·) (funext fun v => ?_)
        simp [matchesSpelling, Bool.decide_and]
  rw [searchBelow, hvisits, filter_walk hd, List.find?_map, Option.map_map]
  rfl

theorem searchBelow_eq_some_iff (hd : d.LinkFree) (hn : d.Named)
    (hstart : d.Holds (d.start root) .directory) :
    searchBelow d wanted root = some file
      ↔ ∃ ns, Hit d wanted root ns ∧ file = d.canonical (ns.foldl Path.join root)
        ∧ ∀ ms, Hit d wanted root ms → ¬ Earlier ms ns := by
  rw [searchBelow_eq hd, Option.map_eq_some_iff]
  refine exists_congr fun ns => ?_
  rw [find?_eq_some_iff_of_pairwise (fun _ _ h => h.asymm)
    (pairwise_filesFrom d maxDepth root)]
  simp only [hit_iff_mem_filesFrom hd hn hstart]
  constructor
  · rintro ⟨⟨hmem, hends, hfirst⟩, rfl⟩
    exact ⟨⟨hmem, hends⟩, rfl, fun ms h => hfirst ms h.1 h.2⟩
  · rintro ⟨⟨hmem, hends⟩, rfl, hfirst⟩
    exact ⟨⟨hmem, hends, fun ms h h' => hfirst ms ⟨h, h'⟩⟩, rfl⟩

theorem searchBelow_eq_none_iff (hd : d.LinkFree) (hn : d.Named)
    (hstart : d.Holds (d.start root) .directory) :
    searchBelow d wanted root = none ↔ ∀ ns, ¬ Hit d wanted root ns := by
  rw [searchBelow_eq hd, Option.map_eq_none_iff, List.find?_eq_none]
  simp only [hit_iff_mem_filesFrom hd hn hstart, not_and]

section

variable (hd : d.LinkFree) (hn : d.Named)
  (hroots : ∀ p ∈ roots, d.Holds (d.start p) .directory)
  (hspelling : Text.trim spelling ≠ "")
include hd hn hroots hspelling

/-- A path that does not end in a name has no hits, so nothing is lost by not
searching for it. -/
theorem resolve_eq_findSome? : resolve d spelling roots
    = roots.findSome? (searchBelow d ⟨Text.trim spelling⟩) := by
  have hresolve : resolve d spelling roots
      = if (Path.mk (Text.trim spelling)).fileName?.isNone then none
        else roots.findSome? (searchBelow d ⟨Text.trim spelling⟩) := rfl
  rw [hresolve]
  split
  · rename_i hname
    refine (List.findSome?_eq_none_iff.2 fun root hroot => ?_).symm
    refine (searchBelow_eq_none_iff hd hn (hroots root hroot)).2 ?_
    intro ns hhit
    have hsome := hhit.fileName?_isSome hd hn (hroots root hroot) hspelling
    rw [Option.isNone_iff_eq_none.1 hname] at hsome
    cases hsome
  · rfl

/-- A spelling means nothing if there are no hits. -/
theorem resolve_eq_none_iff : resolve d spelling roots = none
    ↔ ∀ root ∈ roots, ∀ ns, ¬ Hit d ⟨Text.trim spelling⟩ root ns := by
  rw [resolve_eq_findSome? hd hn hroots hspelling,
    List.findSome?_eq_none_iff]
  exact forall₂_congr fun root hroot =>
    searchBelow_eq_none_iff hd hn (hroots root hroot)

/-- **A spelling means the first file that the search comes upon.** -/
theorem resolve_eq_some_iff : resolve d spelling roots = some file
    ↔ FirstHit d ⟨Text.trim spelling⟩ roots file := by
  rw [resolve_eq_findSome? hd hn hroots hspelling,
    List.findSome?_eq_some_iff, FirstHit]
  constructor
  · rintro ⟨pre, root, post, rfl, hroot, hpre⟩
    obtain ⟨ns, hhit, hfile, hns⟩ :=
      (searchBelow_eq_some_iff hd hn (hroots root (by simp))).1 hroot
    refine ⟨pre, root, post, ns, rfl, hhit, hfile, fun p hp => ?_, hns⟩
    exact (searchBelow_eq_none_iff hd hn
      (hroots p (List.mem_append_left _ hp))).1 (hpre p hp)
  · rintro ⟨pre, root, post, ns, rfl, hhit, hfile, hpre, hns⟩
    refine ⟨pre, root, post, rfl, ?_, fun p hp => ?_⟩
    · exact (searchBelow_eq_some_iff hd hn (hroots root (by simp))).2
        ⟨ns, hhit, hfile, hns⟩
    · exact (searchBelow_eq_none_iff hd hn
        (hroots p (List.mem_append_left _ hp))).2 (hpre p hp)

/-- Where there are hits, one of them comes first. -/
theorem exists_firstHit (hroot : root ∈ roots)
    (hhit : Hit d ⟨Text.trim spelling⟩ root ns) :
    ∃ file, FirstHit d ⟨Text.trim spelling⟩ roots file := by
  have hsome : resolve d spelling roots ≠ none := fun hnone =>
    (resolve_eq_none_iff hd hn hroots hspelling).1 hnone root hroot ns hhit
  obtain ⟨file, hfile⟩ := Option.ne_none_iff_exists'.1 hsome
  exact ⟨file, (resolve_eq_some_iff hd hn hroots hspelling).1 hfile⟩

end

/-- What comes first is one of the hits. -/
theorem FirstHit.exists_hit (h : FirstHit d wanted roots file) :
    ∃ root ∈ roots, ∃ ns, Hit d wanted root ns
      ∧ file = d.canonical (ns.foldl Path.join root) := by
  obtain ⟨pre, root, post, ns, rfl, hhit, hfile, _⟩ := h
  exact ⟨root, by simp, ns, hhit, hfile⟩

/-! ## Plain roots -/

/-- Below a plain root a hit is found by its plain path. -/
theorem Hit.canonical (hd : d.LinkFree) (hroot : root.IsPlain)
    (h : Hit d wanted root ns) :
    d.canonical (ns.foldl Path.join root) = pathOf (root.place ++ ns) := by
  have hpath := foldl_join_pathOf hroot.1 h.names
  rw [hroot.2] at hpath
  rw [hpath]
  exact canonical_of_isPlain hd
    (Path.isPlain_pathOf (List.forall_mem_append.2 ⟨hroot.1, h.names⟩))

/-- The path to a directory has no characters but those of a text that leads to
something in it. -/
theorem isUsable_pathOf_of_join {place : Location} {names : List String}
    (hplace : ∀ n ∈ place ++ names, IsName n)
    (htail : spelling.toList.head? ≠ some '/')
    (hnames : names.Sublist (namesOf ⟨spelling⟩))
    (h : isUsable ((pathOf place).join spelling) = true) :
    isUsable (pathOf (place ++ names)) = true := by
  refine isUsable_of_sublist (Path.isPlain_pathOf hplace).text_ne ?_ h
  have hpieces := hnames.map String.toList
  rw [namesOf, List.map_map] at hpieces
  simp only [Function.comp_def, String.toList_ofList, List.map_id'] at hpieces
  rw [toList_join (fun n hn => hplace n (List.mem_append_left _ hn)) htail,
    toList_pathOf, List.map_append]
  exact (Text.unpieces_sublist
    ((List.Sublist.refl _).append hpieces)).cons_cons '/'

/-- A file below a root that a text of plain names leads to is a hit of the
search for this text. -/
theorem hit_of_join (hd : d.LinkFree) (hroot : root.IsPlain)
    (hcomponents : (Path.mk spelling).components = ns.map .name)
    (hdepth : ns.length ≤ maxDepth) (hne : ns ≠ [])
    (h : d.isFile (root.join spelling) = true) :
    Hit d ⟨spelling⟩ root ns := by
  obtain ⟨hrelative, _⟩ := Path.filterMap_ofName?_of_components hcomponents
  obtain ⟨hfilter, hns⟩ := Path.filter_namesOf_of_components hcomponents
  have htail : spelling.toList.head? ≠ some '/' := by
    simpa [Path.isAbsolute] using hrelative
  obtain ⟨q, bytes, hlocate⟩ := isFile_iff_locate.1 h
  have hjoin := hlocate
  rw [← hroot.2] at hjoin
  obtain ⟨rfl, hbytes⟩ :=
    locate_join hd hroot.1 htail hfilter hns hjoin
  have hexists : d.pathExists root = true := by
    have husable := isUsable_of_join hroot.text_ne htail
      (isUsable_of_locate hlocate)
    rw [pathExists, (locate_of_isPlain hd hroot).2
      ⟨husable, rfl, hbytes.of_append hne⟩]
    rfl
  have hnames := List.forall_mem_append.2 ⟨hroot.1, hns⟩
  obtain ⟨front, n, rfl⟩ : ∃ front n, ns = front ++ [n] :=
    ⟨_, _, (List.dropLast_concat_getLast hne).symm⟩
  refine ⟨hexists, hns, hdepth, .inr ⟨front, n, rfl, ?_⟩, ?_⟩
  · have hfront : ∀ m ∈ root.place ++ front, IsName m :=
      fun m hm => hnames m (by
        rw [← List.append_assoc]
        exact List.mem_append_left _ hm)
    have hpath := foldl_join_pathOf hroot.1
      fun m hm => hns m (List.mem_append_left [n] hm)
    rw [hroot.2] at hpath
    rw [← List.append_assoc] at hbytes
    refine (hasFile_iff hd).2 ⟨root.place ++ front, bytes, ?_, hbytes.node?⟩
    rw [hpath, locate_pathOf hd hfront]
    refine ⟨?_, rfl, (holds_concat.1 hbytes).2⟩
    have hsublist : front.Sublist (namesOf ⟨spelling⟩) := by
      refine (List.sublist_append_left front [n]).trans ?_
      exact hfilter ▸ List.filter_sublist
    refine isUsable_pathOf_of_join hfront htail hsublist ?_
    exact isUsable_of_locate (hroot.2.symm ▸ hlocate)
  · have hpath := foldl_join_pathOf hroot.1 hns
    rw [hroot.2] at hpath
    rw [hpath, Path.endsWith, List.isSuffixOf_iff_suffix, hcomponents,
      components_pathOf hnames]
    exact ⟨.root :: root.place.map .name, by simp⟩

end IncludeBlock.Resolution
