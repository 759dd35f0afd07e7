import IncludeBlock.Proofs.Snapshot.Versions
import Mathlib.Data.List.Nodup

/-!
# A graph stands for an include relation

What a graph says about files can be told without slots: which paths are
mentioned, the sizes of the files that were read and which file includes which
(`IncludeRelation`). As long as the table and the slots agree with each other
(`Arena.Tabled`) every edit of the graph is the plain edit of the relation
(`Represents.insertFile`, `Represents.getOrAdd`, `Represents.addInclude`), and
the answers of the graph are read off the relation.
-/

namespace IncludeBlock

/-! ## Slots after an addition -/

namespace Slots

variable {α : Type} {slots : List (Option α)} {a b : α}

theorem mem_add : some b ∈ (add slots a).2 ↔ b = a ∨ some b ∈ slots := by
  refine ⟨mem_of_mem_add, ?_⟩
  rintro (rfl | h)
  · exact List.mem_of_getElem? (getElem?_add_self slots b)
  · obtain ⟨i, hi⟩ := List.mem_iff_getElem?.1 h
    exact List.mem_of_getElem? (getElem?_add_of_some hi a)

/-- Only the slot of the new element has changed. -/
theorem join_getElem?_add (slots : List (Option α)) (a : α) (i : Nat) :
    ((add slots a).2[i]?).join
      = if i = (add slots a).1 then some a else (slots[i]?).join := by
  split
  · rename_i heq
    rw [heq, getElem?_add_self]
    rfl
  · rename_i hne
    unfold add at hne ⊢
    cases hv : lastVacant? slots with
    | some j =>
        simp only [hv] at hne ⊢
        rw [List.getElem?_set_ne (Ne.symm hne)]
    | none =>
        simp only [hv] at hne ⊢
        rcases Nat.lt_or_gt_of_ne hne with hi | hi
        · rw [List.getElem?_append_left hi]
        · rw [List.getElem?_eq_none (by simpa using Nat.succ_le_of_lt hi),
            List.getElem?_eq_none (Nat.le_of_lt hi)]

end Slots

/-! ## Plain relations -/

/-- What a graph tells: the paths that are mentioned, the sizes of those that
were read and what includes what. -/
structure IncludeRelation where
  mentions : Path → Prop
  size? : Path → Option Nat
  includes : Path → Path → Prop

namespace IncludeRelation

def empty : IncludeRelation :=
  ⟨fun _ => False, fun _ => none, fun _ _ => False⟩

def mention (r : IncludeRelation) (f : Path) : IncludeRelation :=
  { r with mentions := fun g => g = f ∨ r.mentions g }

/-- A file was read and has a size. -/
def read (r : IncludeRelation) (f : Path) (size : Nat) : IncludeRelation :=
  { r.mention f with size? := fun g => if g = f then some size else r.size? g }

def addInclude (r : IncludeRelation) (source target : Path) :
    IncludeRelation :=
  { (r.mention source).mention target with
    includes := fun f g => (f = source ∧ g = target) ∨ r.includes f g }

end IncludeRelation

namespace Arena

variable {a : Arena} {f g source target : Path} {i j : Nat} {n : FileNode}
  {r : IncludeRelation}

/-! ## Tables that agree with the slots -/

/-- The table knows each node by its path, and edges join nodes. -/
structure Tabled (a : Arena) : Prop where
  slot? : ∀ {f : Path} {i : Nat},
    a.slot? f = some i ↔ ∃ n, a.node? i = some n ∧ n.path = f
  edges : ∀ {i j : Nat}, some (i, j) ∈ a.edges →
    (a.node? i).isSome ∧ (a.node? j).isSome

theorem Tabled.linked (h : a.Tabled) : a.Linked where
  table hslot := by
    obtain ⟨n, hn, _⟩ := h.slot?.1 hslot
    simp [hn]
  edges := h.edges

theorem tabled_empty : empty.Tabled where
  slot? := by simp [Arena.slot?, node?, empty]
  edges := by simp [empty]

theorem slot?_addNode (a : Arena) (n : FileNode) (f : Path) :
    (a.addNode n).2.slot? f
      = if f = n.path then some (a.addNode n).1 else a.slot? f :=
  FileMap.get?_insert

theorem node?_addNode (a : Arena) (n : FileNode) (i : Nat) :
    (a.addNode n).2.node? i
      = if i = (a.addNode n).1 then some n else a.node? i :=
  Slots.join_getElem?_add a.nodes n i

theorem node?_fst_addNode (a : Arena) (n : FileNode) :
    a.node? (a.addNode n).1 = none :=
  Slots.join_getElem?_fst_add a.nodes n

/-- A node for a path that is not in the table yet. -/
theorem Tabled.addNode (h : a.Tabled) (hnew : a.slot? n.path = none) :
    (a.addNode n).2.Tabled where
  slot? {f i} := by
    rw [slot?_addNode, node?_addNode]
    by_cases hi : i = (a.addNode n).1
    · -- the slot was vacant, so no path led to it
      have hold : a.slot? f ≠ some i := by
        intro hslot
        obtain ⟨m, hm, _⟩ := h.slot?.1 hslot
        rw [hi, node?_fst_addNode] at hm
        cases hm
      rw [if_pos hi]
      by_cases hf : f = n.path
      · simp [hi, hf]
      · simp [hf, Ne.symm hf, hold]
    · rw [if_neg hi, ← h.slot?]
      by_cases hf : f = n.path
      · simp [hf, hnew, Ne.symm hi]
      · rw [if_neg hf]
  edges := (h.linked.addNode n).edges

/-- Records a size at the node of a path that is in the table. -/
theorem Tabled.set (h : a.Tabled) (hslot : a.slot? f = some i) (size : Nat) :
    ({ a with nodes := a.nodes.set i (some (.parsed f size)) } : Arena).Tabled
      ∧ ∀ k, ({ a with nodes := a.nodes.set i (some (.parsed f size)) }
          : Arena).node? k
        = if k = i then some (.parsed f size) else a.node? k := by
  obtain ⟨m, hm, hpath⟩ := h.slot?.1 hslot
  have hlt := (List.getElem?_eq_some_iff.1 (node?_eq_some_iff.1 hm)).1
  have hnode (k : Nat) :
      ((a.nodes.set i (some (.parsed f size)))[k]?).join
        = if k = i then some (.parsed f size) else a.node? k := by
    split
    · rename_i hk
      rw [hk, List.getElem?_set_self hlt]
      rfl
    · rename_i hk
      rw [List.getElem?_set_ne (Ne.symm hk)]
      rfl
  refine ⟨⟨fun {g k} => ?_, fun {k l} he => ?_⟩, hnode⟩
  · show a.slot? g = some k
      ↔ ∃ n, ((a.nodes.set i (some (.parsed f size)))[k]?).join = some n
        ∧ n.path = g
    rw [h.slot?, hnode]
    by_cases hk : k = i
    · rw [if_pos hk, hk, hm]
      simp only [Option.some.injEq, exists_eq_left']
      rw [hpath]
      rfl
    · rw [if_neg hk]
  · show ((a.nodes.set i (some (.parsed f size)))[k]?).join.isSome
      ∧ ((a.nodes.set i (some (.parsed f size)))[l]?).join.isSome
    rw [hnode, hnode]
    constructor
    · split
      · rfl
      · exact (h.edges he).1
    · split
      · rfl
      · exact (h.edges he).2

/-! ## The relation of a graph -/

/-- An edge leads from the node of one path to that of another. -/
def Joins (a : Arena) (f g : Path) : Prop :=
  ∃ i j, a.slot? f = some i ∧ a.slot? g = some j ∧ some (i, j) ∈ a.edges

/-- A graph stands for a relation. -/
structure Represents (a : Arena) (r : IncludeRelation) : Prop where
  tabled : a.Tabled
  mentions : ∀ f, (a.slot? f).isSome ↔ r.mentions f
  size? : ∀ f, a.byteSize? f = r.size? f
  includes : ∀ f g, a.Joins f g ↔ r.includes f g

theorem represents_empty : empty.Represents .empty where
  tabled := tabled_empty
  mentions _ := by simp [slot?, empty, IncludeRelation.empty]
  size? _ := rfl
  includes _ _ := by simp [Joins, empty, IncludeRelation.empty]

/-- What is not in the table has no size. -/
theorem byteSize?_of_slot? (h : a.slot? f = none) : a.byteSize? f = none := by
  simp [byteSize?, fileNode?, h]

theorem byteSize?_addNode (h : a.Tabled) (g : Path) :
    (a.addNode n).2.byteSize? g
      = if g = n.path then n.size? else a.byteSize? g := by
  rw [byteSize?, fileNode?, slot?_addNode]
  by_cases hg : g = n.path
  · rw [if_pos hg, if_pos hg, Option.bind_some, node?_addNode, if_pos rfl]
    rfl
  · rw [if_neg hg, if_neg hg, byteSize?, fileNode?]
    cases hi : a.slot? g with
    | none => rfl
    | some i =>
        rw [Option.bind_some, Option.bind_some,
          node?_addNode_of_isSome (h.linked.table hi)]

/-- A new node is at no end of an edge. -/
theorem joins_addNode (h : a.Tabled) (hnew : a.slot? n.path = none) :
    (a.addNode n).2.Joins f g ↔ a.Joins f g := by
  have hvacant {k : Nat} (hk : (a.node? k).isSome) : k ≠ (a.addNode n).1 := by
    rintro rfl
    rw [node?_fst_addNode] at hk
    cases hk
  constructor
  · rintro ⟨i, j, hi, hj, he⟩
    rw [slot?_addNode] at hi hj
    refine ⟨i, j, ?_, ?_, he⟩
    · split at hi
      · exact absurd (Option.some.inj hi).symm (hvacant (h.edges he).1)
      · exact hi
    · split at hj
      · exact absurd (Option.some.inj hj).symm (hvacant (h.edges he).2)
      · exact hj
  · rintro ⟨i, j, hi, hj, he⟩
    have hold {k : Path} {m : Nat} (hk : a.slot? k = some m) :
        (a.addNode n).2.slot? k = some m := by
      rw [slot?_addNode, if_neg, hk]
      rintro rfl
      rw [hnew] at hk
      cases hk
    exact ⟨i, j, hold hi, hold hj, he⟩

theorem mentions_addNode (h : a.Represents r) (n : FileNode) (f : Path) :
    ((a.addNode n).2.slot? f).isSome ↔ (r.mention n.path).mentions f := by
  rw [slot?_addNode]
  by_cases hf : f = n.path
  · simp [hf, IncludeRelation.mention]
  · simp [hf, IncludeRelation.mention, h.mentions]

/-- **A stub is a mention.** -/
theorem Represents.getOrAdd (h : a.Represents r) (f : Path) :
    (a.getOrAdd f).2.Represents (r.mention f)
      ∧ (a.getOrAdd f).2.slot? f = some (a.getOrAdd f).1 := by
  unfold Arena.getOrAdd
  split
  · rename_i i hslot
    refine ⟨⟨h.tabled, fun g => ?_, h.size?, h.includes⟩, hslot⟩
    have hmention : r.mentions f := (h.mentions f).1 (by simp [hslot])
    rw [h.mentions g]
    refine ⟨.inr, ?_⟩
    rintro (rfl | hg)
    · exact hmention
    · exact hg
  · rename_i hslot
    refine ⟨⟨h.tabled.addNode hslot, mentions_addNode h (.stub f), fun g => ?_,
      fun _ _ => ?_⟩, ?_⟩
    · rw [byteSize?_addNode h.tabled]
      show (if g = f then none else a.byteSize? g) = r.size? g
      rw [← h.size?]
      split
      · rename_i hg
        rw [hg, byteSize?_of_slot? hslot]
      · rfl
    · exact (joins_addNode h.tabled (by exact hslot)).trans (h.includes _ _)
    · exact (slot?_addNode a (.stub f) f).trans (if_pos rfl)

/-- **A file that is inserted was read.** -/
theorem Represents.insertFile (h : a.Represents r) (f : Path) (size : Nat) :
    (a.insertFile f size).2.Represents (r.read f size) := by
  unfold Arena.insertFile
  split
  · rename_i i hslot
    obtain ⟨htabled, hnode⟩ := h.tabled.set hslot size
    refine ⟨htabled, fun g => ?_, fun g => ?_, h.includes⟩
    · have hmention : r.mentions f := (h.mentions f).1 (by simp [hslot])
      refine (h.mentions g).trans ⟨.inr, ?_⟩
      rintro (rfl | hg)
      · exact hmention
      · exact hg
    · show ((a.slot? g).bind _).bind FileNode.size?
        = if g = f then some size else r.size? g
      rw [← h.size?, byteSize?, fileNode?]
      split
      · rename_i hg
        rw [hg, hslot, Option.bind_some, hnode, if_pos rfl]
        rfl
      · rename_i hg
        cases hk : a.slot? g with
        | none => rfl
        | some k =>
            -- another path has another slot
            have hne : k ≠ i := by
              rintro rfl
              obtain ⟨m, hm, hpath⟩ := h.tabled.slot?.1 hslot
              obtain ⟨m', hm', hpath'⟩ := h.tabled.slot?.1 hk
              rw [hm] at hm'
              cases hm'
              exact hg (hpath'.symm.trans hpath)
            rw [Option.bind_some, hnode, if_neg hne, Option.bind_some]
  · rename_i hslot
    refine ⟨h.tabled.addNode hslot, mentions_addNode h (.parsed f size),
      fun g => ?_, fun _ _ => ?_⟩
    · rw [byteSize?_addNode h.tabled, h.size?]
      rfl
    · exact (joins_addNode h.tabled (by exact hslot)).trans (h.includes _ _)

theorem mem_edges_addEdge {e : Nat × Nat} :
    some e ∈ (a.addEdge i j).edges ↔ e = (i, j) ∨ some e ∈ a.edges := by
  unfold addEdge
  split
  · rename_i hold
    refine ⟨.inr, ?_⟩
    rintro (rfl | he)
    · exact hold
    · exact he
  · exact Slots.mem_add

theorem nodes_addEdge (a : Arena) (i j : Nat) :
    (a.addEdge i j).nodes = a.nodes ∧ (a.addEdge i j).slots = a.slots := by
  unfold addEdge
  split <;> exact ⟨rfl, rfl⟩

/-- **An edge is an include.** -/
theorem Represents.addEdge (h : a.Represents r)
    (hi : a.slot? source = some i) (hj : a.slot? target = some j) :
    (a.addEdge i j).Represents
      { r with includes := fun f g =>
          (f = source ∧ g = target) ∨ r.includes f g } := by
  obtain ⟨hnodes, hslots⟩ := nodes_addEdge a i j
  have hslot (f : Path) : (a.addEdge i j).slot? f = a.slot? f := by
    rw [slot?, hslots, slot?]
  have hnode (k : Nat) : (a.addEdge i j).node? k = a.node? k := by
    rw [node?, hnodes, node?]
  have hlinked := h.tabled.linked.addEdge (h.tabled.linked.table hi)
    (h.tabled.linked.table hj)
  -- a slot is that of one path only
  have hinj {f g : Path} {k : Nat} (hf : a.slot? f = some k)
      (hg : a.slot? g = some k) : f = g := by
    obtain ⟨m, hm, rfl⟩ := h.tabled.slot?.1 hf
    obtain ⟨m', hm', rfl⟩ := h.tabled.slot?.1 hg
    rw [Option.some.inj (hm.symm.trans hm')]
  refine ⟨⟨fun {f k} => ?_, hlinked.edges⟩, fun f => ?_, fun f => ?_,
    fun f g => ?_⟩
  · rw [hslot, hnode, h.tabled.slot?]
  · rw [hslot, h.mentions]
  · refine Eq.trans ?_ (h.size? f)
    rw [byteSize?, byteSize?, fileNode?, fileNode?, hslot, funext hnode]
  · show _ ↔ (f = source ∧ g = target) ∨ r.includes f g
    rw [← h.includes]
    simp only [Joins, hslot, mem_edges_addEdge]
    constructor
    · rintro ⟨k, l, hk, hl, heq | he⟩
      · cases heq
        exact .inl ⟨hinj hk hi, hinj hl hj⟩
      · exact .inr ⟨k, l, hk, hl, he⟩
    · rintro (⟨rfl, rfl⟩ | ⟨k, l, hk, hl, he⟩)
      · exact ⟨i, j, hi, hj, .inl rfl⟩
      · exact ⟨k, l, hk, hl, .inr he⟩

theorem slot?_getOrAdd_of_some (hi : a.slot? source = some i)
    (target : Path) : (a.getOrAdd target).2.slot? source = some i := by
  unfold getOrAdd
  split
  · exact hi
  · rename_i hnew
    rw [slot?_addNode, if_neg, hi]
    rintro rfl
    cases hnew.symm.trans hi

/-- **An include is recorded as one**, with both ends mentioned. -/
theorem Represents.addInclude (h : a.Represents r) (source target : Path) :
    (a.addInclude source target).Represents (r.addInclude source target) := by
  obtain ⟨hsource, hi⟩ := h.getOrAdd source
  obtain ⟨htarget, hj⟩ := hsource.getOrAdd target
  exact htarget.addEdge (slot?_getOrAdd_of_some hi target) hj

/-- A graph stands for whatever says the same. -/
theorem Represents.congr {r' : IncludeRelation} (h : a.Represents r)
    (hmentions : ∀ f, r.mentions f ↔ r'.mentions f)
    (hsize : ∀ f, r.size? f = r'.size? f)
    (hincludes : ∀ f g, r.includes f g ↔ r'.includes f g) :
    a.Represents r' where
  tabled := h.tabled
  mentions f := (h.mentions f).trans (hmentions f)
  size? f := (h.size? f).trans (hsize f)
  includes f g := (h.includes f g).trans (hincludes f g)

/-- What a file includes is recorded one after the other. -/
theorem Represents.foldl_addInclude (h : a.Represents r)
    (hsource : r.mentions source) (ts : List Path) :
    (ts.foldl (·.addInclude source) a).Represents
      { r with
        mentions := fun f => f ∈ ts ∨ r.mentions f
        includes := fun f g => (f = source ∧ g ∈ ts) ∨ r.includes f g } := by
  induction ts generalizing a r with
  | nil => exact h.congr (by simp) (by simp) (by simp)
  | cons t ts ih =>
      rw [List.foldl_cons]
      refine (ih (h.addInclude source t) (.inr (.inl rfl))).congr
        (fun f => ?_) (fun _ => rfl) fun f g => ?_
      · show f ∈ ts ∨ f = t ∨ f = source ∨ r.mentions f
          ↔ f ∈ t :: ts ∨ r.mentions f
        rw [List.mem_cons]
        constructor
        · rintro (hf | hf | rfl | hf)
          · exact .inl (.inr hf)
          · exact .inl (.inl hf)
          · exact .inr hsource
          · exact .inr hf
        · rintro ((hf | hf) | hf)
          · exact .inr (.inl hf)
          · exact .inl hf
          · exact .inr (.inr (.inr hf))
      · show (f = source ∧ g ∈ ts) ∨ (f = source ∧ g = t) ∨ r.includes f g
          ↔ (f = source ∧ g ∈ t :: ts) ∨ r.includes f g
        rw [List.mem_cons]
        tauto

/-! ## Answers read off the relation -/

theorem mem_targets : g ∈ a.targets i
    ↔ ∃ j n, some (i, j) ∈ a.edges ∧ a.node? j = some n ∧ n.path = g := by
  rw [targets, FileSet.mem_ofList, List.mem_filterMap]
  constructor
  · rintro ⟨e, he, hg⟩
    obtain ⟨⟨k, j⟩, rfl, hg⟩ := Option.bind_eq_some_iff.1 hg
    change (if k = i then _ else none) = some g at hg
    split at hg
    · rename_i hk
      obtain ⟨n, hn, hpath⟩ := Option.map_eq_some_iff.1 hg
      exact ⟨j, n, hk ▸ he, hn, hpath⟩
    · cases hg
  · rintro ⟨j, n, he, hn, hpath⟩
    exact ⟨_, he, by simp [hn, hpath]⟩

theorem Represents.mem_includes (h : a.Represents r) :
    g ∈ a.includes f ↔ r.includes f g := by
  rw [← h.includes, Arena.includes]
  cases hf : a.slot? f with
  | none => simp [Joins, hf]
  | some i =>
      simp only [mem_targets, Joins, hf, Option.some.injEq]
      constructor
      · rintro ⟨j, n, he, hn⟩
        exact ⟨i, j, rfl, h.tabled.slot?.2 ⟨n, hn⟩, he⟩
      · rintro ⟨_, j, rfl, hg, he⟩
        obtain ⟨n, hn⟩ := h.tabled.slot?.1 hg
        exact ⟨j, n, he, hn⟩

theorem mem_files_iff : f ∈ a.files ↔ ∃ i n, a.node? i = some n ∧ n.path = f := by
  simp only [files, occupied, Slots.occupied, List.mem_map, List.mem_filterMap]
  constructor
  · rintro ⟨⟨i, n⟩, ⟨⟨s, k⟩, hs, heq⟩, rfl⟩
    obtain ⟨m, rfl, heq⟩ := Option.map_eq_some_iff.1 heq
    cases heq
    exact ⟨_, _, node?_eq_some_iff.2 (List.mem_zipIdx_iff_getElem?.1 hs), rfl⟩
  · rintro ⟨i, n, hn, rfl⟩
    exact ⟨(i, n), ⟨(some n, i),
      List.mem_zipIdx_iff_getElem?.2 (node?_eq_some_iff.1 hn), rfl⟩, rfl⟩

/-- No path has two nodes. -/
theorem Tabled.nodup_files (h : a.Tabled) : a.files.Nodup := by
  have hdistinct : (a.nodes.zipIdx.map (·.2)).Nodup := by
    rw [List.zipIdx_map_snd]
    exact List.nodup_range'
  have hoccupied : a.occupied.Nodup := by
    refine (List.Nodup.of_map _ hdistinct).filterMap fun x y z hx hy => ?_
    obtain ⟨n, hn, rfl⟩ := Option.map_eq_some_iff.1 (Option.mem_def.1 hx)
    obtain ⟨m, hm, heq⟩ := Option.map_eq_some_iff.1 (Option.mem_def.1 hy)
    obtain ⟨hslot, rfl⟩ := Prod.mk.inj heq
    exact Prod.ext (hn.trans hm.symm) hslot.symm
  refine hoccupied.map_on fun x hx y hy heq => ?_
  have hslot {i : Nat} {n : FileNode} (hmem : (i, n) ∈ a.occupied) :
      a.slot? n.path = some i ∧ a.node? i = some n := by
    obtain ⟨⟨s, k⟩, hs, hsome⟩ := List.mem_filterMap.1 hmem
    obtain ⟨m, rfl, heq⟩ := Option.map_eq_some_iff.1 hsome
    obtain ⟨rfl, rfl⟩ := Prod.mk.inj heq
    have hnode := node?_eq_some_iff.2 (List.mem_zipIdx_iff_getElem?.1 hs)
    exact ⟨h.slot?.2 ⟨_, hnode, rfl⟩, hnode⟩
  obtain ⟨i, n⟩ := x
  obtain ⟨j, m⟩ := y
  obtain ⟨hi, hn⟩ := hslot hx
  obtain ⟨hj, hm⟩ := hslot hy
  rw [show n.path = m.path from heq, hj] at hi
  cases hi
  rw [hn] at hm
  cases hm
  rfl

theorem Represents.mem_files (h : a.Represents r) :
    f ∈ a.files ↔ r.mentions f := by
  rw [← h.mentions, mem_files_iff, Option.isSome_iff_exists]
  exact exists_congr fun i => h.tabled.slot?.symm

/-- A file that is mentioned and has no size is a stub. -/
theorem Represents.fileNode? (h : a.Represents r) (hf : r.mentions f)
    (hsize : r.size? f = none) : a.fileNode? f = some (.stub f) := by
  obtain ⟨i, hi⟩ := Option.isSome_iff_exists.1 ((h.mentions f).2 hf)
  obtain ⟨n, hn, hpath⟩ := h.tabled.slot?.1 hi
  have hnode : a.fileNode? f = some n := by
    rw [Arena.fileNode?, hi, Option.bind_some, hn]
  rw [← h.size?, byteSize?, hnode, Option.bind_some] at hsize
  rw [hnode]
  cases n with
  | parsed file size => cases hsize
  | stub file => exact congrArg (some <| FileNode.stub ·) hpath

theorem Represents.knows_iff (h : a.Represents r) :
    a.knows f = true ↔ (r.size? f).isSome := by
  rw [knows, h.size?]

end Arena

end IncludeBlock
