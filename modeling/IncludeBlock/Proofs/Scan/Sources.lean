import IncludeBlock.Proofs.Disk.Search
import IncludeBlock.Scan
import Mathlib.Data.List.Perm.Subperm

/-!
# Where a scan starts

A scan starts from the source files below its roots. Without links a walk comes
by all that stands below its root and goes deep enough for that
(`length_le_levels`), so these are the files that a root with names behind it
leads to (`mem_sourcesBelow`).
-/

namespace IncludeBlock

namespace Disk

variable {d : Disk} {dir place q : Location} {ns : List String}
  {node : Node} {p path root : Path} {depth : Nat}

/-! ## Walks by name -/

/-- Every directory on the way to a place is a node of the disk. -/
theorem length_le_of_holds (h : d.Holds place node) :
    place.length ≤ d.nodes.length := by
  have hsubset : (List.range' 1 place.length)
      ⊆ d.nodes.map (·.1.length) := by
    intro k hk
    obtain ⟨hpos, hlt⟩ := List.mem_range'_1.1 hk
    have hlength : (place.take k).length = k := by
      rw [List.length_take]
      omega
    have hne : place.take k ≠ [] := by
      rintro hnil
      rw [hnil] at hlength
      exact absurd hlength (Nat.ne_of_lt hpos)
    have hnode : (d.node? (place.take k)).isSome := by
      by_cases hall : place.take k = place
      · rw [hall, h.node?]
        rfl
      · rw [h.way _ (List.take_prefix k place) hall]
        rfl
    rw [node?, if_neg hne, Option.isSome_map, List.find?_isSome] at hnode
    obtain ⟨a, ha, heq⟩ := hnode
    exact List.mem_map.2 ⟨a, ha, by rw [beq_iff_eq.1 heq, hlength]⟩
  have hnodup : (List.range' 1 place.length).Nodup := List.nodup_range'
  have hle := (hnodup.subperm hsubset).length_le
  rwa [List.length_range', List.length_map] at hle

theorem length_le_levels (h : d.Holds (place ++ ns) node) :
    ns.length ≤ d.levels := by
  have hle := length_le_of_holds h
  rw [List.length_append] at hle
  rw [levels]
  calc ns.length ≤ d.nodes.length + 1 := by omega
    _ ≤ (d.nodes.length + 2) * (d.nodes.length + 1) :=
        Nat.le_mul_of_pos_left _ (Nat.succ_pos _)

/-- **A walk comes by all that stands below its directory**, up to its depth
and as far as the system takes the paths of the directories. -/
theorem mem_visitsBelow (hd : d.LinkFree) (hn : d.Named)
    (hdir : d.Holds dir .directory) (husable : isUsable path = true)
    (open_ : List Location) :
    p ∈ (d.visitsBelow byName depth open_ dir path).map (·.path)
      ↔ ∃ ns node, ns ≠ [] ∧ ns.length ≤ depth ∧ d.Holds (dir ++ ns) node
        ∧ isUsable (ns.dropLast.foldl Path.join path) = true
        ∧ p = ns.foldl Path.join path := by
  induction depth generalizing dir open_ path with
  | zero =>
      refine ⟨nofun, fun ⟨ns, node, hne, hlength, _⟩ => ?_⟩
      exact absurd (List.length_eq_zero_iff.1 (Nat.le_zero.1 hlength)) hne
  | succ depth ih =>
      rw [visitsBelow, List.map_flatMap, List.mem_flatMap, byName]
      constructor
      · rintro ⟨⟨n, node⟩, hentry, hp⟩
        have hnode := mem_entries.1 hentry
        have hholds := holds_concat.2 ⟨hnode, hdir⟩
        simp only [resolveEntry_of_linkFree hd hnode] at hp
        have hself (hp : p = path.join n) : ∃ ns node, ns ≠ []
            ∧ ns.length ≤ depth + 1 ∧ d.Holds (dir ++ ns) node
            ∧ isUsable (ns.dropLast.foldl Path.join path) = true
            ∧ p = ns.foldl Path.join path :=
          ⟨[n], node, by simp, by simp, hholds, husable, hp⟩
        cases node with
        | directory =>
            rw [List.map_cons, List.mem_cons] at hp
            rcases hp with hp | hp
            · exact hself hp
            · split at hp
              · rename_i hnext
                obtain ⟨ns, node, hne, hlength, hns, hlast, hp⟩ :=
                  (ih hholds hnext _).1 hp
                refine ⟨n :: ns, node, by simp, by simpa using hlength, ?_, ?_,
                  hp⟩
                · simpa using hns
                · rwa [List.dropLast_cons_of_ne_nil hne]
              · cases hp
        | file bytes => exact hself (List.mem_singleton.1 hp)
        | link target => cases hp
      · rintro ⟨ns, node, hne, hlength, hns, hlast, rfl⟩
        obtain ⟨n, rest, rfl⟩ := List.exists_cons_of_ne_nil hne
        by_cases hrest : rest = []
        · subst hrest
          refine ⟨(n, node), mem_entries.2 hns.node?, ?_⟩
          simp only [resolveEntry_of_linkFree hd hns.node?]
          cases node with
          | directory => exact List.mem_cons_self
          | file bytes => exact List.mem_cons_self
          | link target => cases not_isLink_of_node? hd hns.node?
        · have hbelow : d.Holds (dir ++ [n] ++ rest) node := by
            simpa using hns
          have hplace := hbelow.of_append hrest
          rw [List.dropLast_cons_of_ne_nil hrest, List.foldl_cons] at hlast
          have hnext := isUsable_join_of_foldl_join hn husable hbelow hlast
          refine ⟨(n, .directory), mem_entries.2 hplace.node?, ?_⟩
          simp only [resolveEntry_of_linkFree hd hplace.node?, if_pos hnext]
          refine List.mem_cons_of_mem _ ((ih hplace hnext _).2 ?_)
          exact ⟨rest, node, hrest, by simpa using hlength, hbelow, hlast, rfl⟩

end Disk

namespace Scan

open Disk

variable {d : Disk} {root p : Path} {roots : List Path}

/-- A source file that lies below a root, by the path that leads there from the
root; the root itself may lead to the file. -/
structure SourceBelow (d : Disk) (root p : Path) : Prop where
  below : ∃ names : List String, (∀ n ∈ names, IsName n)
    ∧ p = names.foldl Path.join root
  isFile : d.isFile p = true
  extension : p.extension?.isSome = true
  isSource : isSource p = true

/-- A file below a root lies in the directory that the root leads to. -/
theorem holds_of_below {place : Location} {node : Node} {names : List String}
    (hd : d.Ordinary)
    (hroot : d.follow (d.start root) (namesOf root)
      = some (.present place node))
    (hne : names ≠ []) (hnames : ∀ n ∈ names, IsName n)
    (hfile : d.isFile (names.foldl Path.join root) = true) :
    node = .directory ∧ ∃ bytes, d.Holds (place ++ names) (.file bytes) := by
  obtain ⟨q, bytes, hq⟩ := isFile_iff_locate.1 hfile
  obtain ⟨_, hq⟩ := (locate_iff hd.linkFree).1 hq
  rw [follow_foldl_join hd.linkFree (hd.holds_start root) hnames hne] at hq
  obtain ⟨place', hleads, rfl, hq⟩ := hq
  rw [LeadsTo, hroot] at hleads
  cases hleads
  exact ⟨rfl, bytes, hq⟩

/-- The visits that are told as sources are those below a root, if the walk
comes by all of them and by nothing else. -/
theorem mem_sourcesBelow_iff {visits : List Visit}
    (h : SourceBelow d root p → p ∈ visits.map (·.path))
    (h' : p ∈ visits.map (·.path) → ∃ names : List String,
      (∀ n ∈ names, IsName n) ∧ p = names.foldl Path.join root) :
    p ∈ sourcesBelow d visits ↔ SourceBelow d root p := by
  rw [sourcesBelow, List.mem_filter, Bool.and_eq_true, Bool.and_eq_true]
  constructor
  · rintro ⟨hp, ⟨hfile, hext⟩, hsource⟩
    exact ⟨h' hp, hfile, hext, hsource⟩
  · intro hp
    exact ⟨h hp, ⟨hp.isFile, hp.extension⟩, hp.isSource⟩

theorem mem_sourcesBelow (hd : d.Ordinary) (hroot : d.pathExists root = true) :
    ∃ visits, d.walk byName d.levels root = some visits
      ∧ ∀ p, p ∈ sourcesBelow d visits ↔ SourceBelow d root p := by
  obtain ⟨⟨place, node⟩, hlocate⟩ := Option.isSome_iff_exists.1 hroot
  obtain ⟨husable, hfollow⟩ := (locate_iff hd.linkFree).1 hlocate
  have hplace := holds_of_follow (hd.holds_start root) hfollow
  cases node with
  | directory =>
      have hvisits {p : Path} :
          p ∈ (d.visitsBelow byName d.levels [place] place root).map (·.path)
            ↔ _ :=
        mem_visitsBelow hd.linkFree hd.named hplace husable [place]
      refine ⟨_, by rw [walk, hlocate],
        fun p => mem_sourcesBelow_iff (fun hp => ?_) ?_⟩
      · obtain ⟨names, hnames, heq⟩ := hp.below
        by_cases hne : names = []
        · subst hne
          exact List.mem_cons.2 (.inl heq)
        · obtain ⟨_, bytes, hholds⟩ :=
            holds_of_below hd hfollow hne hnames (heq ▸ hp.isFile)
          refine List.mem_cons_of_mem _ (hvisits.2 ?_)
          refine ⟨names, _, hne, length_le_levels hholds, hholds, ?_, heq⟩
          obtain ⟨q, _, hq⟩ := isFile_iff_locate.1 hp.isFile
          exact isUsable_dropLast_of_foldl_join (text_ne_of_isUsable husable)
            hnames (heq ▸ isUsable_of_locate hq)
      · intro hp
        rcases List.mem_cons.1 hp with hp | hp
        · exact ⟨[], by simp, hp⟩
        · obtain ⟨names, _, _, _, hholds, _, heq⟩ := hvisits.1 hp
          refine ⟨names, fun n hn => ?_, heq⟩
          exact isName_of_node? hd.named hholds.node? n
            (List.mem_append_right _ hn)
  | file bytes =>
      refine ⟨_, by rw [walk, hlocate],
        fun p => mem_sourcesBelow_iff (fun hp => ?_) ?_⟩
      · obtain ⟨names, hnames, heq⟩ := hp.below
        by_cases hne : names = []
        · subst hne
          exact List.mem_singleton.2 heq
        · cases (holds_of_below hd hfollow hne hnames (heq ▸ hp.isFile)).1
      · exact fun hp => ⟨[], by simp, List.mem_singleton.1 hp⟩
  | link target => cases not_isLink_of_node? hd.linkFree hplace.node?

/-- A step that never fails, for each of a list. -/
theorem mapM_eq_ok {α β : Type} {f : α → Except Failure β} {g : α → β}
    {as : List α} (h : ∀ a ∈ as, f a = .ok (g a)) :
    as.mapM f = .ok (as.map g) := by
  induction as with
  | nil => rfl
  | cons a as ih =>
      obtain ⟨ha, has⟩ := List.forall_mem_cons.1 h
      rw [List.mapM_cons, ha, ih has]
      rfl

/-- The source files below roots that are there. -/
theorem sources_eq (h : ∀ root ∈ roots,
    (d.walk byName d.levels root).isSome = true) :
    sources d roots = .ok (roots.flatMap fun root =>
      sourcesBelow d ((d.walk byName d.levels root).getD [])) := by
  let found (root : Path) : List Path :=
    sourcesBelow d ((d.walk byName d.levels root).getD [])
  have hall {walks : Except Failure (List (List Path))}
      (h : walks = .ok (roots.map found)) :
      (do return (← walks).flatten) = Except.ok (roots.flatMap found) := by
    rw [h, List.flatMap_def]
    rfl
  refine hall (mapM_eq_ok fun root hroot => ?_)
  obtain ⟨visits, hvisits⟩ := Option.isSome_iff_exists.1 (h root hroot)
  simp only [found, hvisits, Option.getD_some]

/-- **A scan starts from the source files below its roots**, if all of them are
there. -/
theorem exists_sources (hd : d.Ordinary)
    (hroots : ∀ root ∈ roots, d.pathExists root = true) :
    ∃ queue, sources d roots = .ok queue
      ∧ ∀ p, p ∈ queue ↔ ∃ root ∈ roots, SourceBelow d root p := by
  refine ⟨_, sources_eq fun root hroot => ?_, fun p => ?_⟩
  · obtain ⟨visits, hvisits, _⟩ := mem_sourcesBelow hd (hroots root hroot)
    rw [hvisits]
    rfl
  · rw [List.mem_flatMap]
    refine exists_congr fun root => and_congr_right fun hroot => ?_
    obtain ⟨visits, hvisits, hmem⟩ := mem_sourcesBelow hd (hroots root hroot)
    rw [hvisits, Option.getD_some, hmem]

end Scan

end IncludeBlock
