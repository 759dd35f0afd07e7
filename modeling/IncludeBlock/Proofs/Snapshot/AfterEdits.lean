import IncludeBlock.Proofs.Snapshot.Edits
import IncludeBlock.Proofs.Snapshot.Relation
import Mathlib.Data.List.Induction

/-!
# A snapshot after edits

What the edits of the empty snapshot tell can be read off them: the paths that
they mention, the last size of each file that was read, and the includes. The
graph stands for just that (`Arena.represents_edited`). It has no vacant slots,
so a path that is new gets the next one, and the files stand in the order in
which they were mentioned first (`Arena.Enlists`). Together this is all that a
snapshot tells (`Snapshot.edited_spec`).
-/

namespace IncludeBlock

/-! ## What edits tell -/

namespace Edit

/-- The paths that an edit mentions, in their order. -/
def mentions : Edit → List Path
  | insertFile f _ => [f]
  | addInclude source target => [source, target]
  | getOrAdd f => [f]

/-- The size that an edit records for a file. -/
def size? (f : Path) : Edit → Option Nat
  | insertFile g size => if g = f then some size else none
  | addInclude _ _ => none
  | getOrAdd _ => none

end Edit

/-- The relation that edits tell: all that is mentioned, the last sizes and all
includes. -/
def IncludeRelation.ofEdits (es : List Edit) : IncludeRelation where
  mentions f := f ∈ es.flatMap Edit.mentions
  size? f := (es.filterMap (Edit.size? f)).getLast?
  includes f g := .addInclude f g ∈ es

/-- A later size takes the place of the earlier ones. -/
theorem IncludeRelation.size?_ofEdits_concat (es : List Edit) (e : Edit)
    (f : Path) : (ofEdits (es ++ [e])).size? f
      = (e.size? f).or ((ofEdits es).size? f) := by
  rw [ofEdits, ofEdits]
  dsimp only
  rw [List.filterMap_append, List.getLast?_append]
  cases h : e.size? f <;> simp [h]

theorem IncludeRelation.isSome_size?_ofEdits (es : List Edit) (f : Path) :
    ((ofEdits es).size? f).isSome = true
      ↔ ∃ size, .insertFile f size ∈ es := by
  show (es.filterMap (Edit.size? f)).getLast?.isSome = true ↔ _
  rw [List.getLast?_isSome, List.ne_nil_iff_exists_cons]
  constructor
  · rintro ⟨size, sizes, h⟩
    have hmem : size ∈ es.filterMap (Edit.size? f) := h ▸ List.mem_cons_self
    obtain ⟨e, he, hsize⟩ := List.mem_filterMap.1 hmem
    cases e with
    | insertFile g k =>
        obtain ⟨rfl, -⟩ := Option.ite_none_right_eq_some.1 hsize
        exact ⟨k, he⟩
    | addInclude source target => cases hsize
    | getOrAdd g => cases hsize
  · rintro ⟨size, he⟩
    have hmem : size ∈ es.filterMap (Edit.size? f) :=
      List.mem_filterMap.2 ⟨_, he, if_pos rfl⟩
    exact List.exists_cons_of_ne_nil (List.ne_nil_of_mem hmem)

theorem eraseDups_concat (fs : List Path) (f : Path) : (fs ++ [f]).eraseDups
    = if f ∈ fs then fs.eraseDups else fs.eraseDups ++ [f] := by
  rw [List.eraseDups_append, List.removeAll]
  split
  · rename_i h
    simp [h]
  · rename_i h
    simp [h, List.eraseDups_cons]

namespace Arena

variable {a : Arena} {f g : Path} {i : Nat} {n : FileNode}
  {fs : List Path} {es : List Edit} {r : IncludeRelation}

/-! ## Graphs without vacant slots -/

/-- The files of a graph, by what its slots hold. -/
theorem files_eq (a : Arena) :
    a.files = a.nodes.filterMap (Option.map FileNode.path) := by
  rw [files, occupied, Slots.occupied, List.map_filterMap]
  have hfst := List.zipIdx_map_fst 0 a.nodes
  conv => rhs; rw [← hfst, List.filterMap_map]
  refine List.filterMap_congr fun s _ => ?_
  rw [Option.map_map]
  rfl

/-- Without vacant slots the files are numbered by their slots. -/
theorem getElem?_files (h : none ∉ a.nodes) (i : Nat) :
    a.files[i]? = (a.node? i).map FileNode.path := by
  have hnodes (slots : List (Option FileNode)) (h : none ∉ slots) (i : Nat) :
      (slots.filterMap (Option.map FileNode.path))[i]?
        = (slots[i]?).join.map FileNode.path := by
    induction slots generalizing i with
    | nil => rfl
    | cons s slots ih =>
        rw [List.mem_cons, not_or] at h
        obtain ⟨n, rfl⟩ := Option.ne_none_iff_exists'.1 (Ne.symm h.1)
        cases i with
        | zero => rfl
        | succ i => exact ih h.2 i
  rw [files_eq, node?, hnodes a.nodes h]

theorem files_addNode (h : none ∉ a.nodes) (n : FileNode) :
    (a.addNode n).2.files = a.files ++ [n.path]
      ∧ none ∉ (a.addNode n).2.nodes := by
  have hadd : (a.addNode n).2.nodes = a.nodes ++ [some n] := by
    show (Slots.add a.nodes n).2 = _
    rw [Slots.add, Slots.lastVacant?_eq_none_iff.2 h]
  rw [files_eq, files_eq, hadd, List.filterMap_append]
  exact ⟨rfl, by simpa using h⟩

/-- A graph lists the paths of a list, those that come again left out. -/
structure Enlists (a : Arena) (fs : List Path) : Prop where
  full : none ∉ a.nodes
  files : a.files = fs.eraseDups

theorem enlists_empty : empty.Enlists [] :=
  ⟨List.not_mem_nil, rfl⟩

namespace Enlists

theorem mem_iff (h : a.Enlists fs) (ht : a.Tabled) :
    f ∈ fs ↔ (a.slot? f).isSome := by
  rw [← List.mem_eraseDups, ← h.files, mem_files_iff,
    Option.isSome_iff_exists]
  exact exists_congr fun i => ht.slot?.symm

/-- A path that has a node is in the list. -/
theorem again (h : a.Enlists fs) (hf : f ∈ fs) : a.Enlists (fs ++ [f]) where
  full := h.full
  files := by rw [eraseDups_concat, if_pos hf, h.files]

theorem addNode (h : a.Enlists fs) (ht : a.Tabled)
    (hnew : a.slot? n.path = none) :
    (a.addNode n).2.Enlists (fs ++ [n.path]) where
  full := (files_addNode h.full n).2
  files := by
    have hn : n.path ∉ fs := by rw [h.mem_iff ht, hnew]; simp
    rw [(files_addNode h.full n).1, eraseDups_concat, if_neg hn, h.files]

theorem getOrAdd (h : a.Enlists fs) (ht : a.Tabled) (f : Path) :
    (a.getOrAdd f).2.Enlists (fs ++ [f]) := by
  unfold Arena.getOrAdd
  split
  · rename_i i hslot
    exact h.again ((h.mem_iff ht).2 (by rw [hslot]; rfl))
  · rename_i hslot
    exact h.addNode (n := .stub f) ht hslot

theorem insertFile (h : a.Enlists fs) (ht : a.Tabled) (f : Path)
    (size : Nat) : (a.insertFile f size).2.Enlists (fs ++ [f]) := by
  unfold Arena.insertFile
  split
  · rename_i i hslot
    obtain ⟨-, hnode⟩ := ht.set hslot size
    obtain ⟨m, hm, hpath⟩ := ht.slot?.1 hslot
    have hfull : none ∉ a.nodes.set i (some (.parsed f size)) := by
      intro hmem
      rcases List.mem_or_eq_of_mem_set hmem with hmem | heq
      · exact h.full hmem
      · cases heq
    have hagain := h.again ((h.mem_iff ht).2 (by rw [hslot]; rfl))
    refine ⟨hfull, ?_⟩
    rw [← hagain.files]
    -- the node in the slot is another one, but for the same path
    refine List.ext_getElem? fun k => ?_
    rw [getElem?_files (by exact hfull), getElem?_files h.full, hnode]
    split
    · rename_i hk
      rw [hk, hm, Option.map_some, Option.map_some, hpath]
      rfl
    · rfl
  · rename_i hslot
    exact h.addNode (n := .parsed f size) ht hslot

theorem addInclude (h : a.Enlists fs) (hr : a.Represents r)
    (source target : Path) :
    (a.addInclude source target).Enlists (fs ++ [source, target]) := by
  have hsource := (hr.getOrAdd source).1.tabled
  have hlisted := (h.getOrAdd hr.tabled source).getOrAdd hsource target
  rw [List.append_assoc] at hlisted
  -- an edge is no node
  have hnodes : (a.addInclude source target).nodes
      = ((a.getOrAdd source).2.getOrAdd target).2.nodes :=
    (nodes_addEdge _ _ _).1
  refine ⟨hnodes ▸ hlisted.full, ?_⟩
  rw [files_eq, hnodes, ← files_eq]
  exact hlisted.files

end Enlists

/-! ## Edits one after the other -/

/-- The graph after edits of the empty one. -/
def edited (es : List Edit) : Arena :=
  es.foldl (fun a e => (a.edit e).2) empty

theorem edited_concat (es : List Edit) (e : Edit) :
    edited (es ++ [e]) = ((edited es).edit e).2 := by
  rw [edited, List.foldl_append]
  rfl

theorem Represents.edit (h : a.Represents (.ofEdits es)) (e : Edit) :
    (a.edit e).2.Represents (.ofEdits (es ++ [e])) := by
  have hmention (g : Path) : (IncludeRelation.ofEdits (es ++ [e])).mentions g
      ↔ g ∈ e.mentions ∨ (IncludeRelation.ofEdits es).mentions g := by
    simp [IncludeRelation.ofEdits, or_comm]
  have hsize := IncludeRelation.size?_ofEdits_concat es e
  have hinclude (g k : Path) :
      (IncludeRelation.ofEdits (es ++ [e])).includes g k
        ↔ .addInclude g k = e ∨ (IncludeRelation.ofEdits es).includes g k := by
    simp [IncludeRelation.ofEdits, or_comm]
  cases e with
  | insertFile f size =>
      refine (h.insertFile f size).congr (fun g => ?_) (fun g => ?_)
        fun g k => ?_
      · rw [hmention, Edit.mentions, List.mem_singleton]
        rfl
      · rw [hsize, Edit.size?, IncludeRelation.read]
        by_cases hg : g = f
        · simp [hg]
        · simp [hg, Ne.symm hg]
      · rw [hinclude]
        simp [IncludeRelation.read, IncludeRelation.mention]
  | addInclude source target =>
      refine (h.addInclude source target).congr (fun g => ?_) (fun g => ?_)
        fun g k => ?_
      · rw [hmention]
        simp [IncludeRelation.addInclude, IncludeRelation.mention,
          Edit.mentions, or_left_comm, or_assoc]
      · rw [hsize]
        rfl
      · rw [hinclude, Edit.addInclude.injEq]
        rfl
  | getOrAdd f =>
      refine (h.getOrAdd f).1.congr (fun g => ?_) (fun g => ?_)
        fun g k => ?_
      · rw [hmention, Edit.mentions, List.mem_singleton]
        rfl
      · rw [hsize]
        rfl
      · rw [hinclude]
        simp [IncludeRelation.mention]

theorem Enlists.edit (h : a.Enlists fs) (hr : a.Represents r) (e : Edit) :
    (a.edit e).2.Enlists (fs ++ e.mentions) := by
  cases e with
  | insertFile f size => exact h.insertFile hr.tabled f size
  | addInclude source target => exact h.addInclude hr source target
  | getOrAdd f => exact h.getOrAdd hr.tabled f

/-- **A graph after edits stands for what the edits tell**, and lists the paths
as they were mentioned. -/
theorem represents_edited (es : List Edit) :
    (edited es).Represents (.ofEdits es)
      ∧ (edited es).Enlists (es.flatMap Edit.mentions) := by
  induction es using List.reverseRecOn with
  | nil =>
      refine ⟨represents_empty.congr (fun f => ?_) (fun _ => rfl) fun f g => ?_,
        enlists_empty⟩
      · simp [IncludeRelation.empty, IncludeRelation.ofEdits]
      · simp [IncludeRelation.empty, IncludeRelation.ofEdits]
  | append_singleton es e ih =>
      rw [edited_concat]
      refine ⟨ih.1.edit e, ?_⟩
      rw [List.flatMap_append, List.flatMap_singleton]
      exact ih.2.edit ih.1 e

end Arena

namespace Snapshot

/-! ## Snapshots after edits -/

/-- A snapshot after an edit, which may draw a version. -/
def edit (s : Snapshot) (v : Versions) : Edit → Snapshot × Versions
  | .insertFile f size => s.insertFile f size v
  | .addInclude source target => s.addInclude source target v
  | .getOrAdd f => ((s.getOrAdd f).2, v)

/-- The snapshot after edits of the empty one. -/
def edited (es : List Edit) (v : Versions) : Snapshot × Versions :=
  es.foldl (fun a e => a.1.edit a.2 e) (empty, v)

theorem arena_edit (s : Snapshot) (v : Versions) (e : Edit) :
    (s.edit v e).1.arena = (s.arena.edit e).2 := by
  cases e <;> rfl

theorem arena_edited (es : List Edit) (v : Versions) :
    (edited es v).1.arena = Arena.edited es := by
  induction es using List.reverseRecOn with
  | nil => rfl
  | append_singleton es e ih =>
      rw [edited, List.foldl_append, List.foldl_cons, List.foldl_nil,
        arena_edit, Arena.edited_concat, ← ih]
      rfl

/-- The edits that the rows of a table stand for. -/
def rowEdits (rows : List (Path × Nat × List Path)) : List Edit :=
  rows.flatMap fun r => .insertFile r.1 r.2.1 :: r.2.2.map (.addInclude r.1)

/-- The snapshot of a table is one after edits. -/
theorem ofRows_eq_edited (rows : List (Path × Nat × List Path))
    (v : Versions) : ofRows rows v = edited (rowEdits rows) v := by
  rw [ofRows, edited, rowEdits, List.foldl_flatMap]
  refine congrArg (List.foldl · _ _) ?_
  funext a r
  rw [List.foldl_cons, List.foldl_map]
  rfl

/-- What a snapshot tells after edits, by the edits alone. -/
structure Tells (s : Snapshot) (es : List Edit) : Prop where
  /-- The files stand in the order in which they were mentioned first. -/
  files : s.arena.files = (es.flatMap Edit.mentions).eraseDups
  nodup : s.arena.files.Nodup
  /-- Each has one node, and its slot is its place in that order. -/
  node : ∀ f i, (∃ n, s.arena.node? i = some n ∧ n.path = f)
    ↔ s.arena.files[i]? = some f
  slot? : ∀ f i, s.arena.slot? f = some i ↔ s.arena.files[i]? = some f
  knows : ∀ f, s.toSource.knows f = true ↔ ∃ size, .insertFile f size ∈ es
  size? : ∀ f, s.toSource.size? f = (es.filterMap (Edit.size? f)).getLast?
  ascending : ∀ f, (s.toSource.includes f).Pairwise (· < ·)
  includes : ∀ f g, g ∈ s.toSource.includes f ↔ .addInclude f g ∈ es

theorem tells_edited (es : List Edit) (v : Versions) :
    (edited es v).1.Tells es := by
  obtain ⟨hr, hlisted⟩ := Arena.represents_edited es
  rw [← arena_edited es v] at hr hlisted
  have hnode (f : Path) (i : Nat) :
      (∃ n, (edited es v).1.arena.node? i = some n ∧ n.path = f)
        ↔ (edited es v).1.arena.files[i]? = some f := by
    rw [Arena.getElem?_files hlisted.full, Option.map_eq_some_iff]
  refine ⟨hlisted.files, hr.tabled.nodup_files, hnode,
    fun f i => hr.tabled.slot?.trans (hnode f i), fun f => ?_, fun f => ?_,
    fun f => ?_, fun f g => ?_⟩
  · rw [Source.knows, row_toSource]
    dsimp only
    rw [hr.knows_iff]
    exact IncludeRelation.isSome_size?_ofEdits es f
  · rw [Source.size?, row_toSource]
    exact hr.size? f
  · rw [Source.includes, row_toSource]
    exact FileSet.ascending _
  · rw [Source.includes, row_toSource]
    exact hr.mem_includes

/-- **A snapshot is a plain include relation.** After any edits of the empty
snapshot its answers are those that the edits tell. A path keeps its slot
whatever comes later, and what a file includes is only changed by includes of
that file. The snapshot of a table is one after edits. -/
theorem edited_spec (es : List Edit) (v : Versions) :
    (edited es v).1.Tells es
      ∧ (∀ later f i, (edited es v).1.arena.slot? f = some i →
          (edited (es ++ later) v).1.arena.slot? f = some i)
      ∧ (∀ later f, (∀ g, .addInclude f g ∉ later) →
          (edited (es ++ later) v).1.toSource.includes f
            = (edited es v).1.toSource.includes f)
      ∧ ∀ rows, ofRows rows v = edited (rowEdits rows) v := by
  have h := tells_edited es v
  refine ⟨h, fun later f i hslot => ?_, fun later f hlater => ?_,
    fun rows => ofRows_eq_edited rows v⟩
  · have h' := tells_edited (es ++ later) v
    rw [h.slot?] at hslot
    rw [h'.slot?, h'.files, List.flatMap_append, List.eraseDups_append,
      ← h.files]
    have hlt := (List.getElem?_eq_some_iff.1 hslot).1
    rw [List.getElem?_append_left hlt, hslot]
  · have h' := tells_edited (es ++ later) v
    refine FileSet.eq_of_ascending (h'.ascending f) (h.ascending f) fun g => ?_
    rw [h'.includes, h.includes, List.mem_append]
    exact or_iff_left (hlater g)

/-- A file that includes itself, is inserted twice and includes a stub that is
read later. -/
def selfIncluding : List Edit :=
  [.addInclude ⟨"/b"⟩ ⟨"/a"⟩, .insertFile ⟨"/b"⟩ 1, .addInclude ⟨"/b"⟩ ⟨"/b"⟩,
    .addInclude ⟨"/b"⟩ ⟨"/a"⟩, .insertFile ⟨"/b"⟩ 2]

/-- The stub keeps its slot when it is read, and the file its includes. -/
theorem edited_spec_selfIncluding :
    let later : List Edit := [.insertFile ⟨"/a"⟩ 3, .addInclude ⟨"/a"⟩ ⟨"/c"⟩]
    let s := (edited selfIncluding {}).1
    let s' := (edited (selfIncluding ++ later) {}).1
    (s.toSource.includes ⟨"/b"⟩ = [⟨"/a"⟩, ⟨"/b"⟩]
        ∧ s.toSource.size? ⟨"/b"⟩ = some 2)
      ∧ s.arena.slot? ⟨"/a"⟩ = some 1 ∧ (∀ g, .addInclude ⟨"/b"⟩ g ∉ later)
      ∧ s.Tells selfIncluding ∧ s'.arena.slot? ⟨"/a"⟩ = some 1
      ∧ s'.toSource.includes ⟨"/b"⟩ = s.toSource.includes ⟨"/b"⟩ := by
  intro later s s'
  obtain ⟨htells, hslots, hincludes, -⟩ := edited_spec selfIncluding {}
  have hslot : s.arena.slot? ⟨"/a"⟩ = some 1 := by decide
  have hlater : ∀ g, .addInclude ⟨"/b"⟩ g ∉ later := by simp [later]
  exact ⟨by decide, hslot, hlater, htells, hslots later _ _ hslot,
    hincludes later _ hlater⟩

end Snapshot

end IncludeBlock
