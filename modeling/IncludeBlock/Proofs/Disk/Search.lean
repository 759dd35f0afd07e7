import IncludeBlock.Disk.Walk
import IncludeBlock.Proofs.Disk.Ways

/-!
# The order of a walk

Without links a walk that takes files first visits just the files that stand
below its directory, up to its depth, as far as the system takes the path to
their directory (`mem_filesBelow`). They come in an order that can be told from
their names alone (`Earlier`, `pairwise_filesBelow`): a file comes before all
that lies in the directories beside it, and what stands side by side comes by
name.
-/

namespace IncludeBlock.Disk

variable {d : Disk} {dir : Location} {n : String} {ns : List String}
  {node : Node} {depth : Nat} {path root : Path}

/-! ## The entries of a directory -/

theorem nameIn_concat (dir : Location) (n : String) :
    nameIn dir (dir ++ [n]) = some n := by
  simp [nameIn]

theorem mem_entries :
    (n, node) ∈ d.entries dir ↔ d.node? (dir ++ [n]) = some node := by
  rw [entries, List.mem_filterMap]
  constructor
  · rintro ⟨m, _, hm⟩
    obtain ⟨node', hnode, heq⟩ := Option.map_eq_some_iff.1 hm
    cases heq
    exact hnode
  · intro hnode
    refine ⟨n, ?_, by rw [hnode]; rfl⟩
    rw [(Sorting.sortBy_perm _ _).mem_iff, List.mem_eraseDups,
      List.mem_filterMap]
    rw [node?, if_neg (by simp)] at hnode
    obtain ⟨a, ha, _⟩ := Option.map_eq_some_iff.1 hnode
    have hplace : a.1 = dir ++ [n] := by simpa using List.find?_some ha
    exact ⟨a, List.mem_of_find?_eq_some ha, hplace ▸ nameIn_concat dir n⟩

theorem nodup_eraseDups (names : List String) : names.eraseDups.Nodup := by
  induction hlength : names.length using Nat.strongRecOn generalizing names with
  | ind length ih =>
      cases names with
      | nil => exact List.nodup_nil
      | cons n rest =>
          have hshorter : (rest.filter fun m => !m == n).length < length :=
            hlength ▸ Nat.lt_succ_of_le (List.length_filter_le _ _)
          rw [List.eraseDups_cons, List.nodup_cons]
          exact ⟨by simp, ih _ hshorter _ rfl⟩

/-- The entries of a directory come by name. -/
theorem pairwise_entries (d : Disk) (dir : Location) :
    (d.entries dir).Pairwise fun a b => a.1 < b.1 := by
  rw [entries]
  have hdistinct := nodup_eraseDups (d.nodes.filterMap fun a => nameIn dir a.1)
  generalize (d.nodes.filterMap fun a => nameIn dir a.1).eraseDups = names
    at hdistinct
  let le (m n : String) : Bool := !decide (n < m)
  have hle (m n : String) : le m n = true ↔ ¬ n < m := by simp [le]
  have hsorted : (Sorting.sortBy le names).Pairwise fun m n => le m n := by
    refine Sorting.pairwise_sortBy (fun a b c => ?_) (fun a b => ?_) names
    · rw [hle, hle, hle]
      exact fun hab hbc => String.le_trans hab hbc
    · rw [Bool.or_eq_true, hle, hle]
      exact String.le_total a b
  have hnodup : (Sorting.sortBy le names).Nodup :=
    (Sorting.sortBy_perm le names).nodup_iff.2 hdistinct
  refine List.Pairwise.filterMap _ ?_ (hsorted.and hnodup)
  rintro m n ⟨hmn, hne⟩ a ha b hb
  obtain ⟨_, _, rfl⟩ := Option.map_eq_some_iff.1 ha
  obtain ⟨_, _, rfl⟩ := Option.map_eq_some_iff.1 hb
  refine Decidable.byContradiction fun hlt => hne ?_
  exact String.le_antisymm ((hle m n).1 hmn) hlt

/-- Of two entries of a directory, the one that a walk takes first. -/
def TakenFirst (a b : String × Node) : Prop :=
  (a.2.isDirectory = false ∧ b.2.isDirectory = true)
    ∨ (a.2.isDirectory = b.2.isDirectory ∧ a.1 < b.1)

theorem pairwise_filesFirst (d : Disk) (dir : Location) :
    (filesFirst (d.entries dir)).Pairwise TakenFirst := by
  rw [filesFirst, List.pairwise_append]
  refine ⟨?_, ?_, ?_⟩
  · refine List.pairwise_filter.2 ((pairwise_entries d dir).imp ?_)
    intro a b hlt ha hb
    exact .inr ⟨by simp_all, hlt⟩
  · refine List.pairwise_filter.2 ((pairwise_entries d dir).imp ?_)
    intro a b hlt ha hb
    exact .inr ⟨by simp_all, hlt⟩
  · intro a ha b hb
    have ha := (List.mem_filter.1 ha).2
    have hb := (List.mem_filter.1 hb).2
    exact .inl ⟨by simpa using ha, hb⟩

theorem mem_filesFirst {e : String × Node} :
    e ∈ filesFirst (d.entries dir) ↔ e ∈ d.entries dir := by
  rw [filesFirst, List.mem_append, List.mem_filter, List.mem_filter]
  cases e.2.isDirectory <;> simp

/-! ## Files below a directory -/

/-- The files that an entry of a directory stands for, given those below it if
it is a directory itself. -/
def filesAt (below : Location → Path → List (List String)) (dir : Location)
    (path : Path) (entry : String × Node) : List (List String) :=
  let next := path.join entry.1
  match entry.2 with
  | .directory =>
      if isUsable next then
        (below (dir ++ [entry.1]) next).map (entry.1 :: ·)
      else []
  | .file _ => [[entry.1]]
  | .link _ => []

/-- The files below a directory, by the names that lead to them from there, as
a walk that takes files first visits them. -/
def filesBelow (d : Disk) :
    (depth : Nat) → Location → Path → List (List String)
  | 0, _, _ => []
  | depth + 1, dir, path =>
      (filesFirst (d.entries dir)).flatMap
        (filesAt (d.filesBelow depth) dir path)

theorem mem_filesAt {m : String} {below : Location → Path → List (List String)}
    (hns : ns ∈ filesAt below dir path (m, node)) :
    ∃ rest, ns = m :: rest
      ∧ ((node = .directory ∧ isUsable (path.join m) = true
          ∧ rest ∈ below (dir ++ [m]) (path.join m))
        ∨ (rest = [] ∧ ∃ bytes, node = .file bytes)) := by
  cases node with
  | directory =>
      simp only [filesAt] at hns
      split at hns
      · rename_i husable
        obtain ⟨rest, hrest, rfl⟩ := List.mem_map.1 hns
        exact ⟨rest, rfl, .inl ⟨rfl, husable, hrest⟩⟩
      · cases hns
  | file bytes =>
      exact ⟨[], List.mem_singleton.1 hns, .inr ⟨rfl, bytes, rfl⟩⟩
  | link target => cases hns

/-- With the path of the last directory the system takes that of the first one
on the way. -/
theorem isUsable_join_of_foldl_join {rest : List String} (hn : d.Named)
    (husable : isUsable path = true) (hbelow : d.Holds (dir ++ [n] ++ rest) node)
    (h : isUsable (rest.dropLast.foldl Path.join (path.join n)) = true) :
    isUsable (path.join n) = true := by
  have hnames := isName_of_node? hn hbelow.node?
  have hname : IsName n := hnames n (by simp)
  refine isUsable_of_foldl_join ?_ (fun m hm => hnames m ?_) h
  · exact text_join_ne (text_ne_of_isUsable husable) hname.head?_ne
  · exact List.mem_append_right _ (List.dropLast_subset _ hm)

/-- **What a walk visits**: the files that are not too deep, if the system takes
the path of their directory. -/
theorem mem_filesBelow (hn : d.Named) (hdir : d.Holds dir .directory)
    (husable : isUsable path = true) :
    ns ∈ d.filesBelow depth dir path
      ↔ ns ≠ [] ∧ ns.length ≤ depth
        ∧ (∃ bytes, d.Holds (dir ++ ns) (.file bytes))
        ∧ isUsable (ns.dropLast.foldl Path.join path) = true := by
  induction depth generalizing dir path ns with
  | zero =>
      refine ⟨nofun, fun ⟨hne, hlength, _⟩ => ?_⟩
      exact absurd (List.length_eq_zero_iff.1 (Nat.le_zero.1 hlength)) hne
  | succ depth ih =>
      rw [filesBelow, List.mem_flatMap]
      constructor
      · rintro ⟨⟨n, node⟩, hentry, hns⟩
        have hnode := mem_entries.1 (mem_filesFirst.1 hentry)
        obtain ⟨rest, rfl, ⟨rfl, hnext, hrest⟩ | ⟨rfl, bytes, rfl⟩⟩ :=
          mem_filesAt hns
        · obtain ⟨hne, hlength, ⟨bytes, hbytes⟩, hlast⟩ :=
            (ih (holds_concat.2 ⟨hnode, hdir⟩) hnext).1 hrest
          refine ⟨by simp, by simpa using hlength, ⟨bytes, ?_⟩, ?_⟩
          · simpa using hbytes
          · rwa [List.dropLast_cons_of_ne_nil hne]
        · exact ⟨by simp, by simp, ⟨bytes, holds_concat.2 ⟨hnode, hdir⟩⟩,
            husable⟩
      · rintro ⟨hne, hlength, ⟨bytes, hbytes⟩, hlast⟩
        obtain ⟨n, rest, rfl⟩ := List.exists_cons_of_ne_nil hne
        by_cases hrest : rest = []
        · subst hrest
          refine ⟨(n, .file bytes), ?_, List.mem_singleton.2 rfl⟩
          exact mem_filesFirst.2 (mem_entries.2 hbytes.node?)
        · have hbelow : d.Holds (dir ++ [n] ++ rest) (.file bytes) := by
            simpa using hbytes
          have hplace := hbelow.of_append hrest
          rw [List.dropLast_cons_of_ne_nil hrest, List.foldl_cons] at hlast
          have hnext := isUsable_join_of_foldl_join hn husable hbelow hlast
          refine ⟨(n, .directory), ?_, ?_⟩
          · exact mem_filesFirst.2 (mem_entries.2 hplace.node?)
          · simp only [filesAt, if_pos hnext]
            refine List.mem_map_of_mem ((ih hplace hnext).2 ?_)
            exact ⟨hrest, by simpa using hlength, ⟨bytes, hbelow⟩, hlast⟩

/-! ## The order of the files -/

/-- What a walk that takes files first comes upon earlier, told from the names
that lead there. -/
inductive Earlier : List String → List String → Prop
  | byName {m n : String} : m < n → Earlier [m] [n]
  /-- The files of a directory come before those of the directories in it. -/
  | above {m n k : String} {ns : List String} : Earlier [m] (n :: k :: ns)
  | beside {m n j k : String} {ms ns : List String} :
      m < n → Earlier (m :: j :: ms) (n :: k :: ns)
  | inside {n : String} {ms ns : List String} :
      Earlier ms ns → Earlier (n :: ms) (n :: ns)

theorem Earlier.asymm {ms ns : List String} (h : Earlier ms ns) :
    ¬ Earlier ns ms := by
  induction h with
  | byName hlt =>
      intro h
      cases h with
      | byName hlt' => exact String.lt_asymm hlt hlt'
      | inside h => cases h
  | above =>
      intro h
      cases h with
      | inside h => cases h
  | beside hlt =>
      intro h
      cases h with
      | beside hlt' => exact String.lt_asymm hlt hlt'
      | inside h => exact String.lt_irrefl _ hlt
  | inside h ih =>
      intro h'
      cases h' with
      | byName hlt => cases h
      | above => cases h
      | beside hlt => exact String.lt_irrefl _ hlt
      | inside h' => exact ih h'

theorem ne_nil_of_mem_filesAt {m : String}
    {below : Location → Path → List (List String)}
    (hbelow : ∀ dir path, ∀ ns ∈ below dir path, ns ≠ [])
    (hns : ns ∈ filesAt below dir path (m, node)) :
    ∃ rest, ns = m :: rest ∧ (rest = [] ↔ node.isDirectory = false) := by
  obtain ⟨rest, rfl, ⟨rfl, _, hrest⟩ | ⟨rfl, bytes, rfl⟩⟩ := mem_filesAt hns
  · exact ⟨rest, rfl, by simp [hbelow _ _ _ hrest, Node.isDirectory]⟩
  · exact ⟨[], rfl, by simp [Node.isDirectory]⟩

theorem ne_nil_of_mem_filesBelow (depth : Nat) (dir : Location) (path : Path) :
    ∀ ns ∈ d.filesBelow depth dir path, ns ≠ [] := by
  intro ns hns
  cases depth with
  | zero => cases hns
  | succ depth =>
      rw [filesBelow, List.mem_flatMap] at hns
      obtain ⟨⟨n, node⟩, _, hns⟩ := hns
      obtain ⟨rest, rfl, _⟩ := mem_filesAt hns
      exact List.cons_ne_nil n rest

/-- **A walk that takes files first goes by the order of the names.** -/
theorem pairwise_filesBelow (d : Disk) (depth : Nat) (dir : Location)
    (path : Path) : (d.filesBelow depth dir path).Pairwise Earlier := by
  induction depth generalizing dir path with
  | zero => exact List.Pairwise.nil
  | succ depth ih =>
      have hbelow := ne_nil_of_mem_filesBelow (d := d) depth
      rw [filesBelow, List.pairwise_flatMap]
      constructor
      · rintro ⟨n, node⟩ _
        cases node with
        | directory =>
            simp only [filesAt]
            split
            · exact List.pairwise_map.2 ((ih _ _).imp fun h => .inside h)
            · exact List.Pairwise.nil
        | file bytes => exact List.pairwise_singleton _ _
        | link target => exact List.Pairwise.nil
      · refine (pairwise_filesFirst d dir).imp ?_
        rintro ⟨m, node⟩ ⟨n, node'⟩ hfirst ms hms ns hns
        obtain ⟨ms, rfl, hm⟩ := ne_nil_of_mem_filesAt hbelow hms
        obtain ⟨ns, rfl, hn⟩ := ne_nil_of_mem_filesAt hbelow hns
        rcases hfirst with ⟨hfile, hdirectory⟩ | ⟨hsame, hlt⟩
        · -- a file before a directory
          obtain rfl := hm.2 hfile
          cases ns with
          | nil => simp [hdirectory] at hn
          | cons k ns => exact .above
        · cases ms with
          | nil =>
              obtain rfl := hn.2 (hsame ▸ hm.1 rfl)
              exact .byName hlt
          | cons j ms =>
              cases ns with
              | nil => simp [hsame, hn.1 rfl] at hm
              | cons k ns => exact .beside hlt

/-! ## Walks -/

theorem resolveEntry_of_linkFree (hd : d.LinkFree)
    (hnode : d.node? (dir ++ [n]) = some node) (open_ : List Location)
    (p : Path) :
    d.resolveEntry open_ dir p (n, node) = some (dir ++ [n], node) := by
  simp [resolveEntry, not_isLink_of_node? hd hnode]

/-- Without links a walk visits the files below its directory by the paths that
their names make. -/
theorem filter_visitsBelow (hd : d.LinkFree) (depth : Nat)
    (open_ : List Location) (dir : Location) (path : Path) :
    (d.visitsBelow filesFirst depth open_ dir path).filter (·.isFile)
      = (d.filesBelow depth dir path).map
          fun ns => ⟨ns.foldl Path.join path, true⟩ := by
  induction depth generalizing dir open_ path with
  | zero => rfl
  | succ depth ih =>
      rw [visitsBelow, filesBelow, List.filter_flatMap, List.map_flatMap,
        List.flatMap_def, List.flatMap_def]
      refine congrArg _ (List.map_congr_left fun ⟨n, node⟩ hentry => ?_)
      have hnode := mem_entries.1 (mem_filesFirst.1 hentry)
      simp only [resolveEntry_of_linkFree hd hnode]
      cases node with
      | directory =>
          rw [List.filter_cons_of_neg (by simp)]
          simp only [filesAt]
          split
          · rw [ih, List.map_map]
            rfl
          · rfl
      | file bytes => rfl
      | link target => cases not_isLink_of_node? hd hnode

/-- The files that a walk from a path visits, by the names that lead to them
from there; the path itself may lead to a file. -/
def filesFrom (d : Disk) (depth : Nat) (root : Path) : List (List String) :=
  match d.locate root with
  | some (place, .directory) => d.filesBelow depth place root
  | some (_, .file _) => [[]]
  | _ => []

theorem pairwise_filesFrom (d : Disk) (depth : Nat) (root : Path) :
    (d.filesFrom depth root).Pairwise Earlier := by
  rw [filesFrom]
  split
  · exact pairwise_filesBelow d depth _ _
  · exact List.pairwise_singleton _ _
  · exact List.Pairwise.nil

/-- The files among the visits of a walk. -/
theorem filter_walk (hd : d.LinkFree) (depth : Nat) (root : Path) :
    ((d.walk filesFirst depth root).getD []).filter (·.isFile)
      = (d.filesFrom depth root).map
          fun ns => ⟨ns.foldl Path.join root, true⟩ := by
  rw [walk, filesFrom]
  cases hlocate : d.locate root with
  | none => rfl
  | some found =>
      obtain ⟨place, node⟩ := found
      cases node with
      | directory =>
          simpa using filter_visitsBelow hd depth [place] place root
      | file bytes => simp
      | link target => rfl

/-! ## Files that a path leads by -/

/-- The directory that a path leads to has an entry of a name that is a file, or
a link that leads to one. -/
def HasFile (d : Disk) (path : Path) (n : String) : Prop :=
  ∃ place, d.locate path = some (place, .directory)
    ∧ ∃ node, (n, node) ∈ d.entries place
      ∧ ((∃ bytes, node = .file bytes)
        ∨ (node.isLink = true ∧ d.isFile (path.join n) = true))

/-- Names lead from a path to a file: the path leads to it, or the directory
before the last name has a file of that name. -/
def LeadsToFile (d : Disk) (root : Path) (ns : List String) : Prop :=
  (ns = [] ∧ d.isFile root = true)
    ∨ ∃ front n, ns = front ++ [n] ∧ d.HasFile (front.foldl Path.join root) n

theorem hasFile_iff (hd : d.LinkFree) : d.HasFile path n
    ↔ ∃ place bytes, d.locate path = some (place, .directory)
      ∧ d.node? (place ++ [n]) = some (.file bytes) := by
  constructor
  · rintro ⟨place, hplace, node, hentry, ⟨bytes, rfl⟩ | ⟨hlink, _⟩⟩
    · exact ⟨place, bytes, hplace, mem_entries.1 hentry⟩
    · rw [not_isLink_of_node? hd (mem_entries.1 hentry)] at hlink
      cases hlink
  · rintro ⟨place, bytes, hplace, hnode⟩
    exact ⟨place, hplace, _, mem_entries.2 hnode, .inl ⟨bytes, rfl⟩⟩

/-- The place of a directory that names behind a root lead to. -/
theorem locate_foldl_join (hd : d.LinkFree)
    (hstart : d.Holds (d.start root) .directory)
    {place q : Location} (hroot : d.locate root = some (place, .directory))
    (hns : ∀ n ∈ ns, IsName n) :
    d.locate (ns.foldl Path.join root) = some (q, .directory)
      ↔ q = place ++ ns ∧ d.Holds q .directory
        ∧ isUsable (ns.foldl Path.join root) = true := by
  obtain ⟨husable, hfollow⟩ := (locate_iff hd).1 hroot
  by_cases hne : ns = []
  · subst hne
    rw [List.foldl_nil, hroot, Option.some.injEq, Prod.mk.injEq]
    constructor
    · rintro ⟨rfl, _⟩
      exact ⟨by simp, holds_of_follow hstart hfollow, husable⟩
    · rintro ⟨rfl, _⟩
      exact ⟨by simp, rfl⟩
  · rw [locate_iff hd, follow_foldl_join hd hstart hns hne]
    constructor
    · rintro ⟨husable, place', hplace', rfl, hholds⟩
      rw [LeadsTo, hfollow] at hplace'
      cases hplace'
      exact ⟨rfl, hholds, husable⟩
    · rintro ⟨rfl, hholds, husable⟩
      exact ⟨husable, place, hfollow, rfl, hholds⟩

/-- **Without links a walk visits all files that names lead to**, up to its
depth. -/
theorem mem_filesFrom (hd : d.LinkFree) (hn : d.Named)
    (hstart : d.Holds (d.start root) .directory) :
    ns ∈ d.filesFrom depth root
      ↔ d.pathExists root = true ∧ (∀ n ∈ ns, IsName n) ∧ ns.length ≤ depth
        ∧ d.LeadsToFile root ns := by
  rw [filesFrom, pathExists]
  cases hlocate : d.locate root with
  | none => simp
  | some found =>
      obtain ⟨place, node⟩ := found
      obtain ⟨husable, hfollow⟩ := (locate_iff hd).1 hlocate
      have hplace := holds_of_follow hstart hfollow
      cases node with
      | directory =>
          rw [mem_filesBelow hn hplace husable]
          constructor
          · rintro ⟨hne, hlength, ⟨bytes, hbytes⟩, hlast⟩
            obtain ⟨front, n, rfl⟩ : ∃ front n, ns = front ++ [n] :=
              ⟨_, _, (List.dropLast_concat_getLast hne).symm⟩
            have hnames := isName_of_node? hn hbytes.node?
            have hns : ∀ m ∈ front ++ [n], IsName m :=
              fun m hm => hnames m (List.mem_append_right _ hm)
            rw [List.dropLast_concat] at hlast
            rw [← List.append_assoc] at hbytes
            refine ⟨rfl, hns, hlength, .inr ⟨front, n, rfl, ?_⟩⟩
            refine (hasFile_iff hd).2 ⟨place ++ front, bytes, ?_, hbytes.node?⟩
            refine (locate_foldl_join hd hstart hlocate
              fun m hm => hns m (List.mem_append_left _ hm)).2 ⟨rfl, ?_, hlast⟩
            exact (holds_concat.1 hbytes).2
          · rintro ⟨_, hns, hlength, ⟨_, hfile⟩ | ⟨front, n, rfl, hfile⟩⟩
            · rw [isFile, read?, hlocate] at hfile
              cases hfile
            · obtain ⟨q, bytes, hq, hnode⟩ := (hasFile_iff hd).1 hfile
              obtain ⟨rfl, hholds, hlast⟩ := (locate_foldl_join hd hstart
                hlocate fun m hm => hns m (List.mem_append_left _ hm)).1 hq
              refine ⟨by simp, hlength, ⟨bytes, ?_⟩, ?_⟩
              · rw [← List.append_assoc]
                exact holds_concat.2 ⟨hnode, hholds⟩
              · rwa [List.dropLast_concat]
      | file bytes =>
          simp only [List.mem_singleton, Option.isSome_some, true_and]
          constructor
          · rintro rfl
            exact ⟨by simp, Nat.zero_le _, .inl ⟨rfl, isFile_of_locate hlocate⟩⟩
          · rintro ⟨hns, _, ⟨hnil, _⟩ | ⟨front, n, rfl, hfile⟩⟩
            · exact hnil
            · -- a file has no entries, and nothing lies below it
              obtain ⟨q, _, hq, _⟩ := (hasFile_iff hd).1 hfile
              have hfront : ∀ m ∈ front, IsName m :=
                fun m hm => hns m (List.mem_append_left _ hm)
              by_cases hne : front = []
              · rw [hne, List.foldl_nil, hlocate] at hq
                cases hq
              · obtain ⟨_, hq⟩ := (locate_iff hd).1 hq
                obtain ⟨place', hplace', _⟩ :=
                  (follow_foldl_join hd hstart hfront hne).1 hq
                rw [LeadsTo, hfollow] at hplace'
                cases hplace'
      | link target => cases not_isLink_of_node? hd hplace.node?

end IncludeBlock.Disk
