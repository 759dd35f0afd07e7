import IncludeBlock.Proofs.Resolution.Meaning
import Mathlib.Algebra.Ring.Nat
import Mathlib.Data.List.Perm.Subperm

/-!
# What a search finds

A search ends, however the links of a disk lead round (`length_visitsBelow_lt`).
What it finds is a file that names lead to from a root, by way of a directory
that opens by the path that these names make (`leadsToFile_of_mem_walk`). Without
links it finds the first one, and if it finds nothing there is none
(`resolve_finds_first`).
-/

namespace IncludeBlock

namespace Disk

variable {d : Disk} {here mid dir : Location} {n : String}
  {names tail : List String} {node : Node} {path root : Path} {depth : Nat}
  {open_ : List Location} {found : Location × Node} {v : Visit}

/-! ## How long a walk is -/

theorem length_entries_le (d : Disk) (dir : Location) :
    (d.entries dir).length ≤ d.nodes.length := by
  let names := d.nodes.filterMap fun a => nameIn dir a.1
  have hdistinct : names.eraseDups.length ≤ names.length :=
    ((nodup_eraseDups names).subperm
      fun n hn => List.mem_eraseDups.1 hn).length_le
  calc (d.entries dir).length
      ≤ (Sorting.sortBy (fun m n => !decide (n < m)) names.eraseDups).length :=
        List.length_filterMap_le _ _
    _ = names.eraseDups.length := (Sorting.sortBy_perm _ _).length_eq
    _ ≤ d.nodes.length := Nat.le_trans hdistinct (List.length_filterMap_le _ _)

theorem length_filesFirst (entries : List (String × Node)) :
    (filesFirst entries).length = entries.length := by
  have hparts := List.filter_append_perm
    (fun e : String × Node => !e.2.isDirectory) entries
  simpa [filesFirst] using hparts.length_eq

theorem length_flatMap_le {α β : Type} {visits : α → List β} {bound : Nat}
    (h : ∀ a, (visits a).length ≤ bound) (as : List α) :
    (as.flatMap visits).length ≤ as.length * bound := by
  induction as with
  | nil => simp
  | cons a as ih =>
      rw [List.flatMap_cons, List.length_append, List.length_cons,
        Nat.add_mul, Nat.one_mul, Nat.add_comm]
      exact Nat.add_le_add ih (h a)

/-- **A walk ends**, whatever its links lead to: a level more multiplies the
visits by no more than the number of nodes and one. -/
theorem length_visitsBelow_lt (d : Disk) (depth : Nat) (open_ : List Location)
    (dir : Location) (path : Path) :
    (d.visitsBelow filesFirst depth open_ dir path).length
      < (d.nodes.length + 1) ^ depth := by
  induction depth generalizing open_ dir path with
  | zero => exact Nat.one_pos
  | succ depth ih =>
      let bound := (d.nodes.length + 1) ^ depth
      have hpos : 0 < bound := Nat.pow_pos (Nat.succ_pos _)
      have hentries : (filesFirst (d.entries dir)).length ≤ d.nodes.length :=
        length_filesFirst (d.entries dir) ▸ length_entries_le d dir
      have hvisits : (d.visitsBelow filesFirst (depth + 1) open_ dir path).length
          ≤ (filesFirst (d.entries dir)).length * bound := by
        refine length_flatMap_le (fun entry => ?_) _
        dsimp only
        split
        · split
          · exact ih _ _ _
          · exact hpos
        · exact hpos
        · exact Nat.zero_le _
      calc (d.visitsBelow filesFirst (depth + 1) open_ dir path).length
          ≤ d.nodes.length * bound :=
            Nat.le_trans hvisits (Nat.mul_le_mul_right _ hentries)
        _ < d.nodes.length * bound + bound := Nat.lt_add_of_pos_right hpos
        _ = (d.nodes.length + 1) ^ (depth + 1) := by
            rw [Nat.pow_succ', Nat.add_mul, Nat.one_mul]

theorem length_walk_le {visits : List Visit}
    (h : d.walk filesFirst depth root = some visits) :
    visits.length ≤ (d.nodes.length + 1) ^ depth := by
  rw [walk] at h
  split at h
  · cases h
    exact length_visitsBelow_lt d depth _ _ root
  · cases h
    exact Nat.pow_pos (Nat.succ_pos _)
  · cases h

/-! ## Entries by their paths -/

theorem descend_silent {through : Bool}
    {onLink : Location → List String → Option Target}
    (htail : ∀ m ∈ tail, isSilentName m = true) :
    d.descend through onLink here tail
      = (d.node? here).map (.present here) := by
  induction tail with
  | nil => rfl
  | cons m tail ih =>
      obtain ⟨hm, htail⟩ := List.forall_mem_cons.1 htail
      rw [descend, if_pos (by simpa [isSilentName] using hm), ih htail]

/-- Names that lead to a directory go on to what lies in it. Silent names behind
them do not matter. -/
theorem descend_concat {onLink : Location → List String → Option Target}
    (hn : IsName n) (htail : ∀ m ∈ tail, isSilentName m = true)
    (hnode : d.node? (mid ++ [n]) = some node) (hlink : node.isLink = false)
    (honLink : ∀ here names,
      onLink here (names ++ tail) = some (.present mid .directory) →
      onLink here (names ++ [n]) = some (.present (mid ++ [n]) node))
    (h : d.descend true onLink here (names ++ tail)
      = some (.present mid .directory)) :
    d.descend true onLink here (names ++ [n])
      = some (.present (mid ++ [n]) node) := by
  have hnot : ¬ (n = "" ∨ n = ".") := by simp [hn.1, hn.2.1]
  induction names generalizing here with
  | nil =>
      rw [List.nil_append, descend_silent htail] at h
      obtain ⟨_, _, heq⟩ := Option.map_eq_some_iff.1 h
      cases heq
      rw [List.nil_append, descend, if_neg hnot, if_neg hn.2.2.1, hnode]
      cases node with
      | directory =>
          change (d.node? (mid ++ [n])).map _ = _
          rw [hnode]
          rfl
      | file bytes => rfl
      | link target => cases hlink
  | cons m names ih =>
      rw [List.cons_append, descend] at h ⊢
      split at h
      · rename_i hm
        rw [if_pos hm]
        exact ih h
      rename_i hm
      rw [if_neg hm]
      split at h
      · rename_i hup
        rw [if_pos hup]
        exact ih h
      rename_i hup
      rw [if_neg hup]
      split at h
      · split at h <;> cases h
      · exact ih h
      · split at h <;> cases h
      · -- what stands for the link ends in the same names
        simp only [Bool.true_eq_false, and_false, if_false] at h ⊢
        rw [← List.append_assoc] at h ⊢
        exact honLink _ _ h

theorem followWithin_concat (hn : IsName n)
    (htail : ∀ m ∈ tail, isSilentName m = true)
    (hnode : d.node? (mid ++ [n]) = some node) (hlink : node.isLink = false)
    (links : Nat)
    (h : d.followWithin true links here (names ++ tail)
      = some (.present mid .directory)) :
    d.followWithin true links here (names ++ [n])
      = some (.present (mid ++ [n]) node) := by
  induction links generalizing here names with
  | zero => exact descend_concat hn htail hnode hlink (fun _ _ => nofun) h
  | succ links ih =>
      exact descend_concat hn htail hnode hlink (fun _ _ => ih) h

theorem locate_iff_lookup {place : Location} :
    d.locate path = some (place, node)
      ↔ d.lookup true path = some (.present place node) := by
  rw [locate]
  cases d.lookup true path with
  | none => simp
  | some target => cases target <;> simp

/-- **An entry is reached by the path of its directory**, whatever links this
path goes through. -/
theorem locate_join_name (hn : IsName n)
    (hdir : d.locate path = some (mid, .directory))
    (hnode : d.node? (mid ++ [n]) = some node) (hlink : node.isLink = false)
    (husable : isUsable (path.join n) = true) :
    d.locate (path.join n) = some (mid ++ [n], node) := by
  have hpath := isUsable_of_locate hdir
  rw [locate_iff_lookup, lookup, if_pos hpath] at hdir
  rw [locate_iff_lookup, lookup, if_pos husable,
    Path.isAbsolute_join_eq hn.head?_ne]
  obtain ⟨front, hfront, hjoin⟩ := Path.exists_namesOf_join hn.head?_ne path
  rw [hjoin, Path.namesOf_of_isName hn]
  rcases hfront with hfront | hfront
  · have hnil : ∀ m ∈ ([] : List String), isSilentName m = true := by simp
    refine followWithin_concat hn hnil hnode hlink _ ?_
    rwa [List.append_nil, ← hfront]
  · have hempty : ∀ m ∈ [""], isSilentName m = true := by decide
    refine followWithin_concat hn hempty hnode hlink _ ?_
    rwa [← hfront]

/-- An entry that is no link stands for itself, and a link for what it leads
to. -/
theorem resolveEntry_cases (h : d.resolveEntry open_ dir path (n, node)
      = some found) :
    (node.isLink = true ∧ d.locate path = some found)
      ∨ (node.isLink = false ∧ found = (dir ++ [n], node)) := by
  rw [resolveEntry] at h
  split at h
  · rename_i hlink
    refine .inl ⟨hlink, ?_⟩
    split at h
    · rename_i hlocate
      split at h
      · cases h
      · rw [hlocate]
        exact h
    · exact h
  · rename_i hlink
    cases h
    exact .inr ⟨by simpa using hlink, rfl⟩

/-! ## Walks -/

theorem LeadsToFile.cons (hne : names ≠ [])
    (h : d.LeadsToFile (path.join n) names) :
    d.LeadsToFile path (n :: names) := by
  rcases h with ⟨hnil, _⟩ | ⟨front, m, rfl, h⟩
  · exact absurd hnil hne
  · exact .inr ⟨n :: front, m, rfl, h⟩

/-- What a walk visits as a file below a directory is one that names lead
to. -/
theorem leadsToFile_of_mem_visitsBelow (hn : d.Named)
    (hdir : d.locate path = some (dir, .directory))
    (hv : v ∈ d.visitsBelow filesFirst depth open_ dir path)
    (hfile : v.isFile = true) :
    ∃ names, names ≠ [] ∧ (∀ n ∈ names, IsName n) ∧ names.length ≤ depth
      ∧ v.path = names.foldl Path.join path ∧ d.LeadsToFile path names := by
  induction depth generalizing open_ dir path with
  | zero => cases hv
  | succ depth ih =>
      rw [visitsBelow, List.mem_flatMap] at hv
      obtain ⟨⟨n, node⟩, hentry, hv⟩ := hv
      rw [mem_filesFirst] at hentry
      have hname : IsName n :=
        isName_of_node? hn (mem_entries.1 hentry) n (by simp)
      dsimp only at hv
      split at hv
      · rename_i place hfound
        rcases List.mem_cons.1 hv with rfl | hv
        · cases hfile
        split at hv
        · rename_i husable
          have hnext : d.locate (path.join n) = some (place, .directory) := by
            rcases resolveEntry_cases hfound with ⟨_, h⟩ | ⟨hlink, heq⟩
            · exact h
            · rw [heq]
              exact locate_join_name hname hdir (mem_entries.1 hentry) hlink
                husable
          obtain ⟨names, hne, hnames, hdepth, hpath, hleads⟩ := ih hnext hv
          exact ⟨n :: names, by simp, List.forall_mem_cons.2 ⟨hname, hnames⟩,
            by simpa using hdepth, hpath, hleads.cons hne⟩
        · cases hv
      · rename_i place bytes hfound
        obtain rfl := List.mem_singleton.1 hv
        refine ⟨[n], by simp, by simpa using hname, by simp, rfl,
          .inr ⟨[], n, rfl, dir, hdir, node, hentry, ?_⟩⟩
        rcases resolveEntry_cases hfound with ⟨hlink, h⟩ | ⟨_, heq⟩
        · exact .inr ⟨hlink, isFile_of_locate h⟩
        · cases heq
          exact .inl ⟨bytes, rfl⟩
      · cases hv

/-- **What a walk visits as a file** is one that names lead to from its root. -/
theorem leadsToFile_of_mem_walk {visits : List Visit} (hn : d.Named)
    (hwalk : d.walk filesFirst depth root = some visits) (hv : v ∈ visits)
    (hfile : v.isFile = true) :
    d.pathExists root = true
      ∧ ∃ names, (∀ n ∈ names, IsName n) ∧ names.length ≤ depth
        ∧ v.path = names.foldl Path.join root ∧ d.LeadsToFile root names := by
  rw [walk] at hwalk
  split at hwalk
  · rename_i place hroot
    cases hwalk
    refine ⟨by rw [pathExists, hroot]; rfl, ?_⟩
    rcases List.mem_cons.1 hv with rfl | hv
    · cases hfile
    · obtain ⟨names, _, hnames, hdepth, hpath, hleads⟩ :=
        leadsToFile_of_mem_visitsBelow hn hroot hv hfile
      exact ⟨names, hnames, hdepth, hpath, hleads⟩
  · rename_i place bytes hroot
    cases hwalk
    obtain rfl := List.mem_singleton.1 hv
    exact ⟨by rw [pathExists, hroot]; rfl, [], by simp, Nat.zero_le _, rfl,
      .inl ⟨rfl, isFile_of_locate hroot⟩⟩
  · cases hwalk

end Disk

namespace Resolution

open Disk

variable {d : Disk} {file : Path} {roots : List Path} {spelling : String}

/-- **A search finds nothing but hits**, also where links lead round. -/
theorem exists_hit_of_resolve (hn : d.Named)
    (h : resolve d spelling roots = some file) :
    ∃ root ∈ roots, ∃ ns, Hit d ⟨Text.trim spelling⟩ root ns
      ∧ file = d.canonical (ns.foldl Path.join root) := by
  simp only [resolve] at h
  split at h
  · cases h
  · obtain ⟨root, hroot, hfound⟩ := List.exists_of_findSome?_eq_some h
    obtain ⟨v, hv, rfl⟩ := Option.map_eq_some_iff.1 hfound
    obtain ⟨visits, hwalk, hfind⟩ := Option.bind_eq_some_iff.1 hv
    have hmatch := List.find?_some hfind
    rw [matchesSpelling, Bool.and_eq_true] at hmatch
    obtain ⟨hreached, ns, hns, hdepth, hpath, hleads⟩ :=
      leadsToFile_of_mem_walk hn hwalk (List.mem_of_find?_eq_some hfind)
        hmatch.1
    rw [hpath] at hmatch ⊢
    exact ⟨root, hroot, ns, ⟨hreached, hns, hdepth, hleads, hmatch.2⟩, rfl⟩

/-- A spelling of blanks means nothing. -/
theorem resolve_of_blank (d : Disk) (hspelling : Text.trim spelling = "")
    (roots : List Path) : resolve d spelling roots = none := by
  rw [resolve, hspelling]
  rfl

/-- **What a search finds.** The walk below a root ends, however links lead
round. A file that is found is that of a hit, a path from a root by names. Without
links nothing is found exactly if there are no hits, and otherwise the first
one, unless the spelling is blank: this means nothing. -/
theorem resolve_finds_first (d : Disk) (hn : d.Named) (spelling : String)
    (roots : List Path) :
    let wanted : Path := ⟨Text.trim spelling⟩
    (∀ root visits, d.walk filesFirst maxDepth root = some visits →
        visits.length ≤ (d.nodes.length + 1) ^ maxDepth)
      ∧ (∀ file, resolve d spelling roots = some file →
        ∃ root ∈ roots, ∃ ns, Hit d wanted root ns
          ∧ file = d.canonical (ns.foldl Path.join root))
      ∧ (d.Ordinary → wanted.text ≠ "" →
        (resolve d spelling roots = none
            ↔ ∀ root ∈ roots, ∀ ns, ¬ Hit d wanted root ns)
          ∧ ∀ file, resolve d spelling roots = some file
            ↔ FirstHit d wanted roots file)
      ∧ (wanted.text = "" → resolve d spelling roots = none) := by
  intro wanted
  refine ⟨fun root visits h => length_walk_le h,
    fun file h => exists_hit_of_resolve hn h, fun hd hspelling => ?_,
    fun hspelling => resolve_of_blank d hspelling roots⟩
  have hroots : ∀ p ∈ roots, d.Holds (d.start p) .directory :=
    fun p _ => hd.holds_start p
  exact ⟨resolve_eq_none_iff hd.linkFree hn hroots hspelling,
    fun file => resolve_eq_some_iff hd.linkFree hn hroots hspelling⟩

/-- A disk with a link from a directory back to the one above it. -/
def loopedDisk : Disk where
  nodes := [(["s"], .directory), (["s", "a"], .directory),
    (["s", "a", "loop"], .link ⟨"/s"⟩), (["s", "a", "x.h"], .file [])]
  workingDirectory := []

/-- The same disk with a second header in the place of the link. -/
def shelvedDisk : Disk where
  nodes := [(["s"], .directory), (["s", "a"], .directory),
    (["s", "a", "x.h"], .file []), (["s", "b"], .directory),
    (["s", "b", "x.h"], .file [])]
  workingDirectory := []

theorem ordinary_shelvedDisk : shelvedDisk.Ordinary where
  linkFree := by decide
  named := by decide +kernel
  workingDirectory := holds_nil

theorem resolve_finds_first_looped :
    (∃ root ∈ [(⟨"/s"⟩ : Path)], ∃ ns, Hit loopedDisk ⟨Text.trim " a/x.h"⟩ root ns
        ∧ ⟨"/s/a/x.h"⟩ = loopedDisk.canonical (ns.foldl Path.join root))
      ∧ FirstHit shelvedDisk ⟨Text.trim "x.h"⟩ [⟨"/t"⟩, ⟨"s/./b/.."⟩]
          ⟨"/s/a/x.h"⟩ := by
  obtain ⟨_, hlooped, _⟩ := resolve_finds_first loopedDisk
    (by decide +kernel) " a/x.h" [⟨"/s"⟩]
  obtain ⟨_, _, hshelved, _⟩ := resolve_finds_first shelvedDisk
    ordinary_shelvedDisk.named "x.h" [⟨"/t"⟩, ⟨"s/./b/.."⟩]
  refine ⟨hlooped _ (by decide +kernel), ?_⟩
  refine ((hshelved ordinary_shelvedDisk (by decide +kernel)).2 _).1 ?_
  decide +kernel

/-- **A blank spelling finds nothing**, although it has no components that a
path would have to end in. -/
theorem not_resolve_blank :
    shelvedDisk.Ordinary
      ∧ Hit shelvedDisk ⟨Text.trim ""⟩ ⟨"/s/a"⟩ ["x.h"]
      ∧ resolve shelvedDisk "" [⟨"/s/a"⟩] = none := by
  refine ⟨ordinary_shelvedDisk, ?_, by decide +kernel⟩
  have hfile : shelvedDisk.LeadsToFile ⟨"/s/a"⟩ ["x.h"] :=
    .inr ⟨[], "x.h", rfl, ["s", "a"], by decide +kernel, .file [],
      by decide +kernel, .inl ⟨[], rfl⟩⟩
  exact ⟨by decide +kernel, by decide +kernel, by decide, hfile,
    by decide +kernel⟩

end Resolution

end IncludeBlock
