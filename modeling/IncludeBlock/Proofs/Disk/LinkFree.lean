import IncludeBlock.Proofs.Disk.Names

/-!
# Disks without links

Without links a look-up goes down the names of a path and nothing else: it
ends at a node exactly if that node stands at the place that the names spell
and all places on the way are directories (`follow_names`). Silent names do
not count, but for the end: a file is only found by a path that ends in its
name (`follow_filter`, `endsInName_of_file`).
-/

namespace IncludeBlock.Disk

variable {d : Disk} {here place q : Location} {n : String} {node : Node}
  {bytes : List UInt8} {names : List String} {p : Path} {tail : String}

/-! ## What stands at a place -/

/-- A node stands at a place, and all places on the way to it are
directories. -/
structure Holds (d : Disk) (place : Location) (node : Node) : Prop where
  node? : d.node? place = some node
  way : ∀ q, q <+: place → q ≠ place → d.node? q = some .directory

theorem holds_nil : d.Holds [] .directory where
  node? := rfl
  way := fun _ hq hne => absurd (List.prefix_nil.1 hq) hne

theorem holds_concat : d.Holds (place ++ [n]) node
    ↔ d.node? (place ++ [n]) = some node ∧ d.Holds place .directory := by
  constructor
  · refine fun h => ⟨h.node?, ⟨?_, fun q hq hne => ?_⟩⟩
    · exact h.way place (List.prefix_append _ _) (by simp)
    · refine h.way q (hq.trans (List.prefix_append _ _)) fun heq => ?_
      have hlength := hq.length_le
      rw [heq, List.length_append, List.length_singleton] at hlength
      exact absurd hlength (Nat.not_succ_le_self _)
  · refine fun ⟨hnode, hplace⟩ => ⟨hnode, fun q hq hne => ?_⟩
    have hq : q <+: place := (List.prefix_concat_iff.1 hq).resolve_left hne
    by_cases heq : q = place
    · rw [heq, hplace.node?]
    · exact hplace.way q hq heq

theorem Holds.unique {node' : Node} (h : d.Holds place node)
    (h' : d.Holds place node') : node = node' :=
  Option.some.inj (h.node?.symm.trans h'.node?)

/-- Above what stands somewhere there are directories. -/
theorem Holds.of_append {below : List String} (hne : below ≠ [])
    (h : d.Holds (place ++ below) node) : d.Holds place .directory where
  node? := h.way place (List.prefix_append _ _) (by simpa using hne)
  way := by
    intro q hq hq'
    refine h.way q (hq.trans (List.prefix_append _ _)) fun heq => hq' ?_
    exact hq.eq_of_length_le (by simp [heq])

theorem Holds.dropLast (h : d.Holds place .directory) :
    d.Holds place.dropLast .directory := by
  by_cases hnil : place = []
  · subst hnil
    exact h
  · rw [← List.dropLast_concat_getLast hnil] at h
    exact (holds_concat.1 h).2

theorem not_isLink_of_node? (hd : d.LinkFree)
    (h : d.node? place = some node) : node.isLink = false := by
  rw [node?] at h
  split at h
  · cases h
    rfl
  · obtain ⟨a, ha, rfl⟩ := Option.map_eq_some_iff.1 h
    exact hd a (List.mem_of_find?_eq_some ha)

/-! ## Looking up names -/

/-- Following names where no link can be met. -/
def follow (d : Disk) : Location → List String → Option Target :=
  d.descend true fun _ _ => none

theorem descend_eq_follow (hd : d.LinkFree) (through : Bool)
    (onLink : Location → List String → Option Target) (here : Location)
    (names : List String) :
    d.descend through onLink here names = d.follow here names := by
  induction names generalizing here with
  | nil => rfl
  | cons n rest ih =>
      rw [follow, descend, descend, ← follow]
      split
      · exact ih here
      · split
        · exact ih here.dropLast
        · split
          · rfl
          · exact ih (here ++ [n])
          · rfl
          · rename_i hnode
            cases not_isLink_of_node? hd hnode

theorem followWithin_eq_follow (hd : d.LinkFree) (through : Bool)
    (links : Nat) : d.followWithin through links = d.follow := by
  funext here names
  cases links with
  | zero => exact descend_eq_follow hd through _ here names
  | succ links => exact descend_eq_follow hd through _ here names

theorem follow_cons_of_isSilentName (h : isSilentName n = true)
    (rest : List String) : d.follow here (n :: rest) = d.follow here rest := by
  rw [follow, descend, if_pos (by simpa [isSilentName] using h)]

theorem follow_cons (h : isSilentName n = false) (rest : List String) :
    d.follow here (n :: rest)
      = if n = ".." then d.follow here.dropLast rest
        else
          match d.node? (here ++ [n]) with
          | none => if rest = [] then some (.vacant (here ++ [n])) else none
          | some .directory => d.follow (here ++ [n]) rest
          | some (.file bytes) =>
              if rest = [] then some (.present (here ++ [n]) (.file bytes))
              else none
          | some (.link _) => none := by
  rw [follow, descend, if_neg (by simpa [isSilentName] using h)]
  split
  · rfl
  · cases d.node? (here ++ [n]) with
    | none => rfl
    | some node => cases node <;> simp

/-- The last of some names, if there is one, is not silent. -/
def EndsInName (names : List String) : Prop :=
  ∀ n ∈ names.getLast?, isSilentName n = false

theorem EndsInName.of_cons (h : EndsInName (n :: names)) : EndsInName names := by
  intro m hm
  refine h m ?_
  rw [List.getLast?_cons, Option.mem_def.1 hm]
  rfl

theorem EndsInName.cons (hn : isSilentName n = false) (h : EndsInName names) :
    EndsInName (n :: names) := by
  intro m hm
  cases hlast : names.getLast? with
  | none =>
      rw [List.getLast?_cons, hlast] at hm
      cases hm
      exact hn
  | some k =>
      rw [List.getLast?_cons, hlast] at hm
      cases hm
      exact h _ hlast

theorem EndsInName.append (hne : names ≠ []) (h : EndsInName names)
    (front : List String) : EndsInName (front ++ names) := by
  intro n hn
  refine h n ?_
  rwa [List.getLast?_append, List.getLast?_eq_some_getLast hne,
    Option.some_or, ← List.getLast?_eq_some_getLast hne] at hn

theorem EndsInName.filter_eq_nil_iff (h : EndsInName names) :
    names.filter (!isSilentName ·) = [] ↔ names = [] := by
  refine ⟨fun hfilter => Decidable.byContradiction fun hne => ?_,
    fun hnil => by rw [hnil]; rfl⟩
  have hlast := h _ (List.getLast?_eq_some_getLast hne)
  have hsilent := List.filter_eq_nil_iff.1 hfilter _ (List.getLast_mem hne)
  simp [hlast] at hsilent

/-- Only names that end in one lead to a file. -/
theorem endsInName_of_file (hhere : d.Holds here .directory)
    (h : d.follow here names = some (.present q (.file bytes))) :
    EndsInName names := by
  induction names generalizing here with
  | nil => nofun
  | cons n rest ih =>
      cases hn : isSilentName n with
      | true =>
          rw [follow_cons_of_isSilentName hn] at h
          have hrest := ih hhere h
          cases rest with
          | nil =>
              -- the way would end at the directory that it starts from
              change (d.node? here).map _ = _ at h
              rw [hhere.node?] at h
              cases h
          | cons k ks =>
              rwa [EndsInName, List.getLast?_cons_cons]
      | false =>
          refine EndsInName.cons hn ?_
          rw [follow_cons hn] at h
          split at h
          · exact ih hhere.dropLast h
          · split at h
            · split at h <;> cases h
            · rename_i hnode
              exact ih (holds_concat.2 ⟨hnode, hhere⟩) h
            · split at h
              · rename_i hnil
                rw [hnil]
                nofun
              · cases h
            · cases h

/-- Silent names do not matter, except at the end. -/
theorem follow_filter (hlast : EndsInName names) :
    d.follow here (names.filter (!isSilentName ·)) = d.follow here names := by
  induction names generalizing here with
  | nil => rfl
  | cons n rest ih =>
      cases hn : isSilentName n with
      | true =>
          rw [List.filter_cons_of_neg (by simp [hn]),
            follow_cons_of_isSilentName hn]
          exact ih hlast.of_cons
      | false =>
          rw [List.filter_cons_of_pos (by simp [hn]), follow_cons hn,
            follow_cons hn]
          simp only [ih hlast.of_cons, hlast.of_cons.filter_eq_nil_iff]

/-- **Names lead to what stands at the place that they spell**, if there are
directories all the way. -/
theorem follow_names (hd : d.LinkFree) (hhere : d.Holds here .directory)
    (hnames : ∀ n ∈ names, IsName n) :
    d.follow here names = some (.present q node)
      ↔ q = here ++ names ∧ d.Holds q node := by
  induction names generalizing here with
  | nil =>
      rw [List.append_nil]
      change (d.node? here).map _ = _ ↔ _
      rw [hhere.node?, Option.map_some, Option.some.injEq, Target.present.injEq]
      constructor
      · rintro ⟨rfl, rfl⟩
        exact ⟨rfl, hhere⟩
      · rintro ⟨rfl, h⟩
        exact ⟨rfl, hhere.unique h⟩
  | cons n rest ih =>
      obtain ⟨hn, hrest⟩ := List.forall_mem_cons.1 hnames
      have hplace : here ++ n :: rest = here ++ [n] ++ rest := by simp
      -- what lies behind further names lies in a directory
      have hway {other : Node} (hne : rest ≠ [])
          (h : d.Holds (here ++ [n] ++ rest) other) :
          d.node? (here ++ [n]) = some .directory :=
        (h.of_append hne).node?
      rw [follow_cons hn.isSilentName, if_neg hn.2.2.1, hplace]
      split
      · rename_i hnode
        by_cases hnil : rest = []
        · subst hnil
          rw [if_pos rfl, List.append_nil]
          refine ⟨nofun, ?_⟩
          rintro ⟨rfl, h⟩
          rw [h.node?] at hnode
          cases hnode
        · rw [if_neg hnil]
          refine ⟨nofun, ?_⟩
          rintro ⟨rfl, h⟩
          rw [hway hnil h] at hnode
          cases hnode
      · rename_i hnode
        exact ih (holds_concat.2 ⟨hnode, hhere⟩) hrest
      · rename_i bytes hnode
        by_cases hnil : rest = []
        · subst hnil
          rw [if_pos rfl, List.append_nil, Option.some.injEq,
            Target.present.injEq]
          constructor
          · rintro ⟨rfl, rfl⟩
            exact ⟨rfl, holds_concat.2 ⟨hnode, hhere⟩⟩
          · rintro ⟨rfl, h⟩
            exact ⟨rfl, Option.some.inj (hnode.symm.trans h.node?)⟩
        · rw [if_neg hnil]
          refine ⟨nofun, ?_⟩
          rintro ⟨rfl, h⟩
          rw [hway hnil h] at hnode
          cases hnode
      · rename_i hnode
        cases not_isLink_of_node? hd hnode

/-! ## Looking up paths -/

theorem lookup_of_isAbsolute (hd : d.LinkFree) (hp : p.isAbsolute = true)
    (through : Bool) : d.lookup through p
      = if isUsable p then d.follow [] (namesOf p) else none := by
  rw [lookup, followWithin_eq_follow hd, if_pos hp]

theorem locate_eq_some_iff (hd : d.LinkFree) (hp : p.isAbsolute = true) :
    d.locate p = some (place, node)
      ↔ isUsable p = true
        ∧ d.follow [] (namesOf p) = some (.present place node) := by
  rw [locate, lookup_of_isAbsolute hd hp]
  by_cases husable : isUsable p = true
  · rw [if_pos husable]
    cases d.follow [] (namesOf p) with
    | none => simp
    | some target => cases target <;> simp [husable]
  · simp [husable]

/-- A plain path leads to what stands at its place. -/
theorem locate_pathOf (hd : d.LinkFree) (hplace : ∀ n ∈ place, IsName n) :
    d.locate (pathOf place) = some (q, node)
      ↔ isUsable (pathOf place) = true ∧ q = place ∧ d.Holds q node := by
  rw [locate_eq_some_iff hd (isAbsolute_pathOf place)]
  refine and_congr_right fun _ => ?_
  have hnames : d.follow [] (namesOf (pathOf place)) = d.follow [] place := by
    by_cases hne : place = []
    · subst hne
      rfl
    · rw [namesOf_pathOf hplace hne, follow_cons_of_isSilentName (by rfl)]
  rw [hnames, follow_names hd holds_nil hplace, List.nil_append]

theorem locate_of_isPlain (hd : d.LinkFree) (hp : p.IsPlain) :
    d.locate p = some (q, node)
      ↔ isUsable p = true ∧ q = p.place ∧ d.Holds q node := by
  have h : d.locate (pathOf p.place) = some (q, node) ↔ _ :=
    locate_pathOf hd hp.1
  rwa [hp.2] at h

/-- **Plain paths are canonical.** -/
theorem canonical_of_isPlain (hd : d.LinkFree) (hp : p.IsPlain) :
    d.canonical p = p := by
  rw [canonical, canonical?]
  cases h : d.locate p with
  | none => rfl
  | some found =>
      obtain ⟨q, node⟩ := found
      obtain ⟨_, rfl, _⟩ := (locate_of_isPlain hd hp).1 h
      exact hp.2

theorem isFile_iff_locate :
    d.isFile p = true ↔ ∃ q bytes, d.locate p = some (q, .file bytes) := by
  rw [isFile, read?]
  cases d.locate p with
  | none => simp
  | some found =>
      obtain ⟨q, node⟩ := found
      cases node <;> simp

theorem isFile_of_locate (h : d.locate p = some (q, .file bytes)) :
    d.isFile p = true :=
  isFile_iff_locate.2 ⟨q, bytes, h⟩

theorem canonical_of_locate (h : d.locate p = some (q, node)) :
    d.canonical p = pathOf q := by
  rw [canonical, canonical?, h]
  rfl

theorem isUsable_of_locate (h : d.locate p = some (q, node)) :
    isUsable p = true := by
  rw [locate, lookup] at h
  split at h
  · rename_i hlookup
    split at hlookup
    · assumption
    · cases hlookup
  · cases h

/-- Paths that differ in silent names lead to the same file, if the system
takes both and both end in a name. -/
theorem locate_of_filter_namesOf (hd : d.LinkFree)
    {p' : Path} (hp : p.isAbsolute = true) (hp' : p'.isAbsolute = true)
    (husable : isUsable p' = true)
    (hnames : (namesOf p').filter (!isSilentName ·)
      = (namesOf p).filter (!isSilentName ·))
    (hlast : EndsInName (namesOf p'))
    (h : d.locate p = some (q, .file bytes)) :
    d.locate p' = some (q, .file bytes) := by
  obtain ⟨_, hfollow⟩ := (locate_eq_some_iff hd hp).1 h
  refine (locate_eq_some_iff hd hp').2 ⟨husable, ?_⟩
  rw [← follow_filter hlast, hnames,
    follow_filter (endsInName_of_file holds_nil hfollow), hfollow]

/-- What a text of plain names leads to below a plain path. -/
theorem locate_join (hd : d.LinkFree) (hplace : ∀ n ∈ place, IsName n)
    (htail : tail.toList.head? ≠ some '/')
    (hfilter : (namesOf ⟨tail⟩).filter (!isSilentName ·) = names)
    (hnames : ∀ n ∈ names, IsName n)
    (h : d.locate ((pathOf place).join tail) = some (q, .file bytes)) :
    q = place ++ names ∧ d.Holds q (.file bytes) := by
  obtain ⟨_, hfollow⟩ :=
    (locate_eq_some_iff hd (isAbsolute_join hplace htail)).1 h
  have hall : (namesOf ((pathOf place).join tail)).filter (!isSilentName ·)
      = place ++ names := by
    rw [namesOf_join hplace htail, List.filter_cons_of_neg (by decide),
      List.filter_append, hfilter, List.filter_eq_self.2]
    exact fun n hn => by simp [(hplace n hn).isSilentName]
  rw [← follow_filter (endsInName_of_file holds_nil hfollow), hall,
    follow_names hd holds_nil (List.forall_mem_append.2 ⟨hplace, hnames⟩),
    List.nil_append] at hfollow
  exact hfollow

end IncludeBlock.Disk
