import IncludeBlock.Proofs.Expansion.Memo
import IncludeBlock.Proofs.Snapshot.Readable
import IncludeBlock.Proofs.Snapshot.Session

/-!
# A kept index is never stale

An index is kept for as long as the version of the snapshot stays the same. So
two snapshots of one version must give the same answers. A step that changes an
answer draws a version, and the one that draws none adds a stub, of which
nothing is known (`Makes.honest`). The kept index was made from some snapshot
of the session and has that snapshot's version, hence its answers, whatever was
expanded since.

That holds of linked graphs. A graph that was read may lead to vacant slots, of
which there is no answer; a new stub that takes such a slot makes one
(`not_same_answers_dangling`).
-/

namespace IncludeBlock

/-! ## A new stub changes no answer -/

namespace Slots

variable {α : Type} {slots : List (Option α)}

/-- The slot for a new element was vacant, or there was none. -/
theorem join_getElem?_fst_add (slots : List (Option α)) (a : α) :
    (slots[(add slots a).1]?).join = none := by
  unfold add
  cases h : lastVacant? slots with
  | some i => simp [getElem?_lastVacant? h]
  | none => simp

end Slots

namespace Arena

variable {a b c : Arena}

/-- Two graphs give the same answers about all files. -/
structure SameAnswers (a b : Arena) : Prop where
  includes : ∀ f, a.includes f = b.includes f
  byteSize : ∀ f, a.byteSize? f = b.byteSize? f

theorem SameAnswers.refl (a : Arena) : a.SameAnswers a :=
  ⟨fun _ => rfl, fun _ => rfl⟩

theorem SameAnswers.symm (h : a.SameAnswers b) : b.SameAnswers a :=
  ⟨fun f => (h.includes f).symm, fun f => (h.byteSize f).symm⟩

theorem SameAnswers.trans (h : a.SameAnswers b) (h' : b.SameAnswers c) :
    a.SameAnswers c :=
  ⟨fun f => (h.includes f).trans (h'.includes f),
    fun f => (h.byteSize f).trans (h'.byteSize f)⟩

theorem SameAnswers.knows (h : a.SameAnswers b) (f : Path) :
    a.knows f = b.knows f :=
  congrArg Option.isSome (h.byteSize f)

theorem node?_addNode_of_isSome {n : FileNode} {i : Nat}
    (h : (a.node? i).isSome) : (a.addNode n).2.node? i = a.node? i := by
  obtain ⟨m, hm⟩ := Option.isSome_iff_exists.1 h
  rw [hm]
  exact node?_eq_some_iff.2
    (Slots.getElem?_add_of_some (node?_eq_some_iff.1 hm) n)

/-- Where all edges lead to nodes, a new node changes no targets. -/
theorem targets_addNode (h : a.Linked) (n : FileNode) (i : Nat) :
    (a.addNode n).2.targets i = a.targets i := by
  refine congrArg FileSet.ofList (List.filterMap_congr fun e he => ?_)
  cases e with
  | none => rfl
  | some e =>
      have hnode : (a.addNode n).2.node? e.2 = a.node? e.2 :=
        node?_addNode_of_isSome (h.edges he).2
      simp only [Option.bind_some, hnode]

/-- Where the table leads to nodes, every file has a size or is not read. -/
theorem isPlaced_eq (h : a.Linked) (f : Path) : a.isPlaced f = true := by
  rw [isPlaced]
  cases hslot : a.slot? f with
  | none => rfl
  | some i => exact h.table hslot

/-- Where all edges lead to nodes, every file has its includes. -/
theorem includes?_eq (h : a.Linked) (f : Path) :
    a.includes? f = some (a.includes f) := by
  refine if_pos ?_
  cases a.slot? f with
  | none => rfl
  | some i =>
      refine List.all_eq_true.2 fun e he => ?_
      cases e with
      | none => rfl
      | some e => simp [(h.edges he).2]

/-- No edge starts at a slot without a node. -/
theorem targets_of_node?_eq_none (h : a.Linked) {i : Nat}
    (hi : a.node? i = none) : a.targets i = ∅ := by
  have hnone : a.targets i = FileSet.ofList [] := by
    refine congrArg FileSet.ofList (List.filterMap_eq_nil_iff.2 fun e he => ?_)
    cases e with
    | none => rfl
    | some e =>
        have hne : e.1 ≠ i := by
          rintro rfl
          have hpresent := (h.edges he).1
          rw [hi] at hpresent
          cases hpresent
        simp [hne]
  exact hnone

/-- **A new stub changes no answer**: nothing leads on from it, and its size is
not known. -/
theorem sameAnswers_getOrAdd (h : a.Linked) (f : Path) :
    (a.getOrAdd f).2.SameAnswers a := by
  unfold getOrAdd
  split
  · exact SameAnswers.refl a
  · rename_i hf
    have hslot (g : Path) : (a.addNode (.stub f)).2.slot? g
        = if g = f then some (a.addNode (.stub f)).1 else a.slot? g :=
      FileMap.get?_insert
    have hvacant : a.node? (a.addNode (.stub f)).1 = none :=
      Slots.join_getElem?_fst_add a.nodes (.stub f)
    have hstub : (a.addNode (.stub f)).2.node? (a.addNode (.stub f)).1
        = some (.stub f) :=
      node?_eq_some_iff.2 (Slots.getElem?_add_self a.nodes _)
    constructor
    · intro g
      rw [Arena.includes, Arena.includes, hslot]
      by_cases hg : g = f
      · subst hg
        rw [if_pos rfl, hf]
        exact (targets_addNode h _ _).trans (targets_of_node?_eq_none h hvacant)
      · rw [if_neg hg]
        cases a.slot? g with
        | none => rfl
        | some i => exact targets_addNode h _ i
    · intro g
      rw [byteSize?, byteSize?, fileNode?, fileNode?, hslot]
      by_cases hg : g = f
      · subst hg
        rw [if_pos rfl, hf, Option.bind_some, hstub]
        rfl
      · rw [if_neg hg]
        cases hi : a.slot? g with
        | none => rfl
        | some i =>
            rw [Option.bind_some, Option.bind_some,
              node?_addNode_of_isSome (h.table hi)]

end Arena

/-! ## What a snapshot answers -/

namespace Snapshot

theorem row_toSource (s : Snapshot) (f : Path) : s.toSource.row f
    = ⟨s.arena.knows f, s.arena.byteSize? f, (s.arena.includes f).toList⟩ := by
  rw [Source.row, toSource, FileMap.get?_mapValues]
  cases hf : s.arena.slots.get? f with
  | some i => rfl
  | none =>
      have hslot : s.arena.slot? f = none := hf
      simp [Arena.knows, Arena.byteSize?, Arena.fileNode?, Arena.includes,
        hslot]
      rfl

theorem row_toSource_of_sameAnswers {s t : Snapshot}
    (h : s.arena.SameAnswers t.arena) (f : Path) :
    s.toSource.row f = t.toSource.row f := by
  rw [row_toSource, row_toSource, h.knows, h.byteSize, h.includes]

end Snapshot

/-! ## Snapshots of one version -/

/-- Snapshots are linked, those of one version give the same answers, and no
version was drawn that is still left. -/
structure Honest (made : List Snapshot) (v : Versions) : Prop where
  next : 0 < v.next
  linked : ∀ s ∈ made, s.arena.Linked
  drawn : ∀ s ∈ made, s.version < v.next
  answers : ∀ s ∈ made, ∀ t ∈ made, s.version = t.version → s.version ≠ 0 →
    s.arena.SameAnswers t.arena

variable {made read : List Snapshot} {v w : Versions} {c : IndexCache}
  {s : Snapshot} {x : Index}

/-- A snapshot that was made since has a version of its own, or none. -/
theorem Honest.drawn_cons (h : Honest made v) (hs : s.Drawn v w) :
    Honest (s :: made) w := by
  have hold : ∀ t ∈ made, s.version = t.version → s.version = 0 := by
    intro t ht heq
    rcases hs.drawn with hzero | ⟨hle, _⟩
    · exact hzero
    · have hlt := h.drawn t ht
      omega
  refine ⟨Nat.lt_of_lt_of_le h.next hs.supply,
    List.forall_mem_cons.2 ⟨hs.linked, h.linked⟩,
    List.forall_mem_cons.2 ⟨?_, fun t ht => ?_⟩, ?_⟩
  · rcases hs.drawn with hzero | ⟨_, hlt⟩
    · rw [hzero]
      exact Nat.lt_of_lt_of_le h.next hs.supply
    · exact hlt
  · exact Nat.lt_of_lt_of_le (h.drawn t ht) hs.supply
  · intro t ht t' ht' heq hne
    rcases List.mem_cons.1 ht with hnew | hmade
    · rw [hnew] at heq hne ⊢
      rcases List.mem_cons.1 ht' with hnew' | hmade'
      · rw [hnew']
        exact Arena.SameAnswers.refl _
      · exact absurd (hold t' hmade' heq) hne
    · rcases List.mem_cons.1 ht' with hnew' | hmade'
      · rw [hnew'] at heq
        exact absurd (heq.trans (hold t hmade heq.symm)) hne
      · exact h.answers t hmade t' hmade' heq hne

/-- A snapshot may keep the version of another if it gives its answers. -/
theorem Honest.cons (h : Honest made v) {t : Snapshot} (ht : t ∈ made)
    (hlinked : s.arena.Linked) (hversion : s.version = t.version)
    (hanswers : s.arena.SameAnswers t.arena) : Honest (s :: made) v := by
  have hlike : ∀ t' ∈ s :: made, ∃ k ∈ made, t'.version = k.version
      ∧ t'.arena.SameAnswers k.arena := by
    intro t' ht'
    rcases List.mem_cons.1 ht' with rfl | ht'
    · exact ⟨t, ht, hversion, hanswers⟩
    · exact ⟨t', ht', rfl, Arena.SameAnswers.refl _⟩
  refine ⟨h.next, List.forall_mem_cons.2 ⟨hlinked, h.linked⟩,
    fun t' ht' => ?_, fun t₁ h₁ t₂ h₂ heq hne => ?_⟩
  · obtain ⟨k, hk, heq, _⟩ := hlike t' ht'
    rw [heq]
    exact h.drawn k hk
  · obtain ⟨k₁, hk₁, heq₁, ha₁⟩ := hlike t₁ h₁
    obtain ⟨k₂, hk₂, heq₂, ha₂⟩ := hlike t₂ h₂
    have hk := h.answers k₁ hk₁ k₂ hk₂ (heq₁ ▸ heq₂ ▸ heq) (heq₁ ▸ hne)
    exact (ha₁.trans hk).trans ha₂.symm

/-- **A step draws a version or keeps the answers.** -/
theorem Makes.honest (h : Honest made v) (hs : Makes made v s w) :
    Honest (s :: made) w := by
  cases hs with
  | new => exact h.drawn_cons (Snapshot.drawn_empty v)
  | ofRows rows => exact h.drawn_cons (Snapshot.drawn_ofRows rows v)
  | scan hscan => exact h.drawn_cons (Scan.drawn_scan hscan)
  | copy hs => exact h.cons hs (h.linked _ hs) rfl (Arena.SameAnswers.refl _)
  | insertFile hs f size =>
      exact h.drawn_cons (Snapshot.drawn_stamped
        ((h.linked _ hs).insertFile f size).linked (Nat.le_refl _))
  | addInclude hs source target =>
      exact h.drawn_cons (Snapshot.drawn_stamped
        ((h.linked _ hs).addInclude source target) (Nat.le_refl _))
  | getOrAdd hs f =>
      have hlinked := h.linked _ hs
      exact h.cons hs (hlinked.getOrAdd f).linked rfl
        (Arena.sameAnswers_getOrAdd hlinked f)

namespace Session

/-- **Snapshots of one version give the same answers**, if those that were read
are linked. -/
theorem honest (h : Session made read v c)
    (hread : ∀ s ∈ read, s.arena.Linked) : Honest made v := by
  induction h with
  | start => exact ⟨by decide, by simp, by simp, by simp⟩
  | make _ hs ih => exact hs.honest (ih hread)
  | load _ hload ih =>
      obtain ⟨hlinked, hread⟩ := List.forall_mem_cons.1 hread
      exact (ih hread).drawn_cons (Snapshot.drawn_load hload hlinked)
  | indexFor _ _ ih => exact ih hread
  | expand _ _ _ _ ih => exact ih hread

/-- An index over a snapshot that was made, with any files expanded. -/
def Tracks (made : List Snapshot) (x : Index) : Prop :=
  ∃ s ∈ made, x.source = s.toSource

theorem Tracks.cons (h : Tracks made x) (s : Snapshot) :
    Tracks (s :: made) x := by
  obtain ⟨t, ht, hx⟩ := h
  exact ⟨t, List.mem_cons_of_mem _ ht, hx⟩

/-- The index for a snapshot is the kept one, or a new one. -/
theorem tracks_indexFor (hs : s ∈ made)
    (h : ∀ x, c.current = some x → Tracks made x) :
    Tracks made (c.indexFor s.toSource).1 := by
  have hindex : (c.indexFor s.toSource).1
      = (c.reusable? s.toSource).getD (Index.new s.toSource) := rfl
  rw [hindex]
  cases hx : c.reusable? s.toSource with
  | none => exact ⟨s, hs, rfl⟩
  | some x => exact h x (Option.filter_eq_some_iff.1 hx).1

/-- **The kept index is one over a snapshot of the session.** -/
theorem tracks (h : Session made read v c) :
    ∀ x, c.current = some x → Tracks made x := by
  induction h with
  | start => intro x hx; cases hx
  | make _ _ ih => exact fun x hx => (ih x hx).cons _
  | load _ _ ih => exact fun x hx => (ih x hx).cons _
  | indexFor _ hs ih =>
      intro x hx
      cases hx
      exact tracks_indexFor hs ih
  | expand _ hx d f ih =>
      intro y hy
      cases hy
      have hold := ih _ hx
      exact hold

/-- An index is handed out for a snapshot of its version, unless it is new. -/
theorem version_indexFor (c : IndexCache) (s : Snapshot) :
    (c.indexFor s.toSource).1 = Index.new s.toSource
      ∨ s.version ≠ 0 ∧ (c.indexFor s.toSource).1.version = s.version := by
  have hindex : (c.indexFor s.toSource).1
      = (c.reusable? s.toSource).getD (Index.new s.toSource) := rfl
  rw [hindex]
  cases hx : c.reusable? s.toSource with
  | none => exact .inl rfl
  | some x =>
      have htest := (Option.filter_eq_some_iff.1 hx).2
      simp only [Bool.and_eq_true, bne_iff_ne, beq_iff_eq] at htest
      exact .inr htest

/-- **A kept index is never stale**, if the graphs that were read are linked. In
every run, each snapshot has answers about every file, and snapshots of one
version other than zero give the same. So the index that is handed out for a
snapshot has a source with the answers of that snapshot, and on every disk
expands each file into what a new index would. -/
theorem never_stale (h : Session made read v c)
    (hread : ∀ s ∈ read, s.arena.Linked) :
    (∀ s ∈ made, ∀ t ∈ made, s.version = t.version → s.version ≠ 0 →
        ∀ f, s.arena.includes? f = t.arena.includes? f
          ∧ s.arena.byteSize? f = t.arena.byteSize? f
          ∧ s.arena.knows f = t.arena.knows f)
      ∧ ∀ s ∈ made,
          let x := (c.indexFor s.toSource).1
          (∀ f, s.arena.isPlaced f = true
              ∧ s.arena.includes? f = some (s.arena.includes f)
              ∧ x.source.includes f = (s.arena.includes f).toList
              ∧ x.source.size? f = s.arena.byteSize? f
              ∧ x.source.knows f = s.arena.knows f)
            ∧ ∀ d f, (x.expand d f).1.closure
                = ((Index.new s.toSource).expand d f).1.closure := by
  have hhonest := h.honest hread
  refine ⟨fun s hs t ht heq hne f => ?_, fun s hs => ?_⟩
  · have hanswers := hhonest.answers s hs t ht heq hne
    refine ⟨?_, hanswers.byteSize f, hanswers.knows f⟩
    rw [Arena.includes?_eq (hhonest.linked s hs),
      Arena.includes?_eq (hhonest.linked t ht), hanswers.includes f]
  intro x
  -- the snapshot that the index was made from answers as this one does
  obtain ⟨t, ht, hsource⟩ := tracks_indexFor hs h.tracks
  have hrow : ∀ f, t.toSource.row f = s.toSource.row f := by
    rcases version_indexFor c s with hnew | ⟨hne, hversion⟩
    · have heq : t.toSource = s.toSource := by
        rw [← hsource, hnew]
        rfl
      exact fun f => by rw [heq]
    · have heq : s.version = t.version := by
        rw [← hversion, Index.version, hsource]
        rfl
      intro f
      exact (Snapshot.row_toSource_of_sameAnswers
        (hhonest.answers s hs t ht heq hne) f).symm
  constructor
  · intro f
    have hx : x.source.row f
        = ⟨s.arena.knows f, s.arena.byteSize? f,
          (s.arena.includes f).toList⟩ := by
      rw [show x.source = t.toSource from hsource, hrow,
        Snapshot.row_toSource]
    rw [Source.includes, Source.size?, Source.knows, hx]
    have hlinked := hhonest.linked s hs
    exact ⟨Arena.isPlaced_eq hlinked f, Arena.includes?_eq hlinked f, rfl, rfl,
      rfl⟩
  · intro d f
    rw [Index.expand_fst, Index.expand_fst, Index.closure_expansion,
      Index.closure_expansion, show x.source = t.toSource from hsource]
    refine Source.closure_congr (fun g => ?_) f
    rw [Source.next, Source.knows, Source.includes, hrow]
    rfl

/-- A file that was read and one that it includes. -/
def twoFiles : Snapshot × Versions :=
  Snapshot.ofRows [(⟨"/a"⟩, 3, [⟨"/b"⟩])] {}

/-- A copy with a stub has the version of the original and is given the kept
index, with all that was expanded. -/
theorem never_stale_twoFiles :
    let s := twoFiles.1
    let t := (s.getOrAdd ⟨"/c"⟩).2
    let fresh := (IndexCache.empty.indexFor s.toSource).1
    let kept := (fresh.expand ∅ ⟨"/a"⟩).2
    let x := (IndexCache.indexFor ⟨some kept⟩ t.toSource).1
    t.version = s.version ∧ t.version ≠ 0 ∧ x.expandedCount = 2
      ∧ (∀ f, s.arena.includes? f = t.arena.includes? f)
      ∧ x.source.knows ⟨"/c"⟩ = t.arena.knows ⟨"/c"⟩
      ∧ (x.expand ∅ ⟨"/a"⟩).1.closure
        = ((Index.new t.toSource).expand ∅ ⟨"/a"⟩).1.closure := by
  intro s t fresh kept x
  have hs : Session [s] [] twoFiles.2 .empty := .make .start (.ofRows _)
  have hkept : Session [s] [] twoFiles.2 ⟨some kept⟩ :=
    .expand (.indexFor hs List.mem_cons_self) rfl ∅ ⟨"/a"⟩
  have ht : Session [t, s] [] twoFiles.2 ⟨some kept⟩ :=
    .make hkept (.getOrAdd List.mem_cons_self ⟨"/c"⟩)
  obtain ⟨halike, hindex⟩ := never_stale ht (by simp)
  obtain ⟨hsource, hclosure⟩ := hindex t List.mem_cons_self
  have hversion : s.version ≠ 0 := by decide +kernel
  refine ⟨rfl, hversion, by decide +kernel, fun f => ?_, (hsource _).2.2.2.2,
    hclosure ∅ ⟨"/a"⟩⟩
  exact (halike s (by simp) t (by simp) rfl hversion f).1

/-- A graph with a vacant slot that an edge and the table lead to. -/
def dangling : Layout :=
  ⟨[.parsed ⟨"/a"⟩ 3], [1], [some (0, 1)], [(⟨"/a"⟩, 0), (⟨"/x"⟩, 1)]⟩

/-- **Of a vacant slot there is no answer**, neither where an edge leads to it
nor where the table does, until a new file takes it; and that draws no
version. -/
theorem not_same_answers_dangling :
    let d : Disk :=
      { nodes := [(["s.json"], .file (Text.encode dangling.toJson.compact))]
        workingDirectory := [] }
    ∃ s, Session [(s.getOrAdd ⟨"/n"⟩).2, s] [s] ⟨2⟩ .empty
      ∧ Snapshot.load d ⟨"/s.json"⟩ {} = .ok (s, ⟨2⟩)
      ∧ (s.getOrAdd ⟨"/n"⟩).2.version = s.version ∧ s.version ≠ 0
      ∧ s.arena.includes? ⟨"/a"⟩ = none
      ∧ (s.getOrAdd ⟨"/n"⟩).2.arena.includes? ⟨"/a"⟩ ≠ none
      ∧ s.arena.isPlaced ⟨"/x"⟩ = false
      ∧ (s.getOrAdd ⟨"/n"⟩).2.arena.isPlaced ⟨"/x"⟩ = true := by
  intro d
  let a : Arena := ⟨[some (.parsed ⟨"/a"⟩ 3), none], [some (0, 1)],
    .ofList [(⟨"/a"⟩, 0), (⟨"/x"⟩, 1)]⟩
  have hopen : d.open? ⟨"/s.json"⟩
      = .ok (some (Text.encode dangling.toJson.compact)) := rfl
  have hload : Snapshot.load d ⟨"/s.json"⟩ {} = .ok (⟨a, 1⟩, ⟨2⟩) :=
    Snapshot.load_of_compact (by decide +kernel) hopen rfl {}
  exact ⟨⟨a, 1⟩, .make (.load .start hload) (.getOrAdd List.mem_cons_self _),
    hload, rfl, by decide, rfl, by decide +kernel, rfl, by decide +kernel⟩

end Session

end IncludeBlock
