import IncludeBlock.Proofs.Expansion.Condensation

/-!
# Regions are expanded exactly

Where the remembered expansions are those of the source and leave nothing out
that they pull in (`Remembered`), the expansions of a region are the same as if
each of its files were expanded by itself (`get?_expansions`). The search finds
all that is to be expanded; an include that leaves the region leads to
something that is complete; and the components are put together from what is
finished, whatever order the files of a component have. What is remembered
then is again exact and closed (`Remembered.remember`).
-/

namespace IncludeBlock

/-- What may be remembered of a source: with a file exactly what it reaches,
and with that all of it. -/
structure Remembered (s : Source) (memo : FileMap Expansion) : Prop where
  mem_closure : ∀ f e, memo.get? f = some e →
    ∀ g, g ∈ e.closure ↔ s.Reaches f g ∧ g ≠ f
  closed : ∀ f e, memo.get? f = some e → ∀ g ∈ e.closure,
    memo.contains g = true

theorem remembered_empty (s : Source) : Remembered s ∅ where
  mem_closure := nofun
  closed := nofun

variable {s : Source} {d : Disk} {memo : FileMap Expansion} {f g root : Path}

/-- What a remembered file provides is remembered. -/
theorem Remembered.contains_of_provides (h : Remembered s memo)
    (hf : memo.contains f = true) (hg : s.Provides f g) :
    memo.contains g = true := by
  by_cases hgf : g = f
  · exact hgf ▸ hf
  · obtain ⟨e, he⟩ := Option.isSome_iff_exists.1 hf
    exact h.closed f e he g
      ((h.mem_closure f e he g).2 ⟨hg.resolve_left hgf, hgf⟩)

/-- A remembered expansion tells what its file provides. -/
theorem Remembered.provides_iff (h : Remembered s memo) {e : Expansion}
    (he : memo.get? f = some e) :
    s.Provides f g ↔ g = f ∨ g ∈ e.closure := by
  rw [h.mem_closure f e he, Source.Provides]
  grind

namespace Region

/-! ## The search -/

theorem mem_fresh_iff {found : FileSet} {fs : List Path} :
    g ∈ fresh found fs ↔ g ∈ fs ∧ g ∉ found := by
  induction fs generalizing found with
  | nil => simp [fresh]
  | cons f fs ih =>
      rw [fresh]
      split
      · rw [ih, List.mem_cons]
        grind
      · rw [List.mem_cons, ih, List.mem_cons, FileSet.mem_insert]
        grind

theorem nodup_fresh (found : FileSet) (fs : List Path) :
    (fresh found fs).Nodup := by
  induction fs generalizing found with
  | nil => exact List.nodup_nil
  | cons f fs ih =>
      rw [fresh]
      split
      · exact ih found
      · refine List.nodup_cons.2 ⟨fun hf => ?_, ih _⟩
        exact (mem_fresh_iff.1 hf).2 (FileSet.mem_insert.2 (.inl rfl))

theorem length_fresh_le (found : FileSet) (fs : List Path) :
    (fresh found fs).length ≤ fs.length := by
  induction fs generalizing found with
  | nil => exact Nat.le_refl 0
  | cons f fs ih =>
      rw [fresh]
      split
      · exact Nat.le_succ_of_le (ih found)
      · exact Nat.succ_le_succ (ih _)

/-- **The invariant of the search**: each file is found once, settled as it
stands in the source, and its new includes are found with it. -/
structure Searching (s : Source) (d : Disk) (memo : FileMap Expansion)
    (root : Path) (queue : List Path) (found : FileSet) (r : Region) :
    Prop where
  nodup : queue.Nodup
  unsettled : ∀ f ∈ queue, r.files.contains f = false
  found_iff : ∀ f, f ∈ found ↔ f ∈ queue ∨ r.files.contains f = true
  root_mem : root ∈ found
  provided : ∀ f ∈ found, s.Provides root f
  unremembered : ∀ f ∈ found, memo.contains f = false
  settled : ∀ f a, r.files.get? f = some a → a = fileOf s d memo f
  followed : ∀ f, r.files.contains f = true →
    ∀ g ∈ (fileOf s d memo f).inner, g ∈ found

theorem searching_root (hroot : memo.contains root = false) :
    Searching s d memo root [root] (.ofList [root]) ⟨∅⟩ where
  nodup := List.nodup_cons.2 ⟨List.not_mem_nil, List.nodup_nil⟩
  unsettled _ _ := rfl
  found_iff f := by simp [FileMap.contains]
  root_mem := by simp
  provided f hf := .inl (by simpa using hf)
  unremembered f hf := by
    have hf : f = root := by simpa using hf
    exact hf ▸ hroot
  settled := nofun
  followed := nofun

theorem Searching.settle {queue : List Path} {found : FileSet} {r : Region}
    (h : Searching s d memo root (f :: queue) found r) :
    let new := fresh found (fileOf s d memo f).inner
    Searching s d memo root (queue ++ new) (found.insertMany new)
      ⟨r.files.insert f (fileOf s d memo f)⟩ := by
  intro new
  have hfound : f ∈ found := (h.found_iff f).2 (.inl List.mem_cons_self)
  have hnew {g : Path} (hg : g ∈ new) :
      g ∈ s.next f ∧ memo.contains g = false ∧ g ∉ found := by
    obtain ⟨hinner, hnot⟩ := mem_fresh_iff.1 hg
    obtain ⟨hnext, hmemo⟩ := List.mem_filter.1 hinner
    exact ⟨hnext, by simpa using hmemo, hnot⟩
  obtain ⟨hfq, hqueue⟩ := List.nodup_cons.1 h.nodup
  constructor
  · refine List.nodup_append.2
      ⟨hqueue, nodup_fresh .., fun a ha b hb hab => ?_⟩
    exact (hnew hb).2.2
      ((h.found_iff b).2 (.inl (List.mem_cons_of_mem _ (hab ▸ ha))))
  · intro g hg
    rw [FileMap.contains_insert, Bool.or_eq_false_iff, beq_eq_false_iff_ne]
    rcases List.mem_append.1 hg with hg | hg
    · exact ⟨fun e => hfq (e ▸ hg), h.unsettled g (List.mem_cons_of_mem _ hg)⟩
    · have hnot := (hnew hg).2.2
      exact ⟨fun e => hnot (e ▸ hfound), by
        simpa using fun hc => hnot ((h.found_iff g).2 (.inr hc))⟩
  · intro g
    simp only [FileSet.mem_insertMany, h.found_iff, List.mem_append,
      List.mem_cons, FileMap.contains_insert, Bool.or_eq_true, beq_iff_eq]
    grind
  · exact FileSet.mem_insertMany.2 (.inl h.root_mem)
  · intro g hg
    rcases FileSet.mem_insertMany.1 hg with hg | hg
    · exact h.provided g hg
    · exact (h.provided f hfound).append (.inr (.step (hnew hg).1))
  · intro g hg
    rcases FileSet.mem_insertMany.1 hg with hg | hg
    · exact h.unremembered g hg
    · exact (hnew hg).2.1
  · intro g a ha
    rw [FileMap.get?_insert] at ha
    split at ha
    · rename_i e
      cases ha
      rw [e]
    · exact h.settled g a ha
  · intro g hg k hk
    rw [FileSet.mem_insertMany]
    rw [FileMap.contains_insert, Bool.or_eq_true, beq_iff_eq] at hg
    rcases hg with rfl | hg
    · by_cases hkf : k ∈ found
      · exact .inl hkf
      · exact .inr (mem_fresh_iff.2 ⟨hk, hkf⟩)
    · exact .inl (h.followed g hg k hk)

/-- **The search comes to its end**, with fuel for its queue and for every
include that may still come up. -/
theorem exists_searching_search {fuel : Nat} {queue : List Path}
    {found seen : FileSet} {r : Region}
    (hseen : ∀ f, f ∈ seen ↔ r.files.contains f = true)
    (hfuel : queue.length + s.pending seen ≤ fuel)
    (h : Searching s d memo root queue found r) :
    ∃ found', Searching s d memo root [] found'
      (search s d memo fuel queue found r) := by
  induction fuel generalizing queue found seen r with
  | zero =>
      have hnil : queue = [] := List.length_eq_zero_iff.1 (by omega)
      rw [search]
      exact ⟨found, hnil ▸ h⟩
  | succ fuel ih =>
      cases queue with
      | nil => exact ⟨found, by simpa [search] using h⟩
      | cons f queue =>
          rw [List.length_cons] at hfuel
          rw [search]
          have hf : f ∉ seen := by
            rw [hseen, h.unsettled f List.mem_cons_self]
            exact Bool.false_ne_true
          have hcount := Source.length_next_add_pending (s := s) hf
          have hlength := length_fresh_le found (fileOf s d memo f).inner
          have hinner : (fileOf s d memo f).inner.length
              ≤ (s.next f).length := List.length_filter_le ..
          have hsettled (g : Path) : g ∈ seen.insert f
              ↔ (r.files.insert f (fileOf s d memo f)).contains g = true := by
            rw [FileSet.mem_insert, hseen, FileMap.contains_insert,
              Bool.or_eq_true, beq_iff_eq]
          refine ih hsettled ?_ h.settle
          rw [List.length_append]
          omega

/-- **The region of a file**: what it provides, as far as that is not
remembered, with each include inside of the region or remembered. -/
structure IsRegion (s : Source) (d : Disk) (memo : FileMap Expansion)
    (root : Path) (r : Region) : Prop where
  contains_root : r.files.contains root = true
  provided : ∀ f, r.files.contains f = true → s.Provides root f
  unremembered : ∀ f, r.files.contains f = true → memo.contains f = false
  settled : ∀ f a, r.files.get? f = some a → a = fileOf s d memo f
  followed : ∀ f, r.files.contains f = true → ∀ g ∈ s.next f,
    memo.contains g = true ∨ r.files.contains g = true

theorem isRegion_of (hroot : memo.contains root = false) :
    IsRegion s d memo root (of s d memo root) := by
  have hstart : Searching s d memo root [root] (.ofList [root]) ⟨∅⟩ :=
    searching_root hroot
  have hseen (f : Path) : f ∈ (∅ : FileSet)
      ↔ (∅ : FileMap RegionFile).contains f = true := by
    simp [FileMap.contains]
  have hfuel : [root].length + s.pending ∅ ≤ 1 + s.includeCount :=
    Nat.le_of_eq (by rw [Source.pending_empty]; rfl)
  obtain ⟨found, h⟩ := exists_searching_search hseen hfuel hstart
  have hfound (f : Path) : f ∈ found
      ↔ (of s d memo root).files.contains f = true := by
    rw [h.found_iff]
    exact or_iff_right List.not_mem_nil
  refine ⟨(hfound root).1 h.root_mem,
    fun f hf => h.provided f ((hfound f).2 hf),
    fun f hf => h.unremembered f ((hfound f).2 hf), h.settled,
    fun f hf g hg => ?_⟩
  cases hg' : memo.contains g with
  | true => exact .inl rfl
  | false =>
      refine .inr ((hfound g).1 (h.followed f hf g ?_))
      exact List.mem_filter.2 ⟨hg, by simpa using hg'⟩

namespace IsRegion

variable {r : Region} (h : IsRegion s d memo root r)

include h

theorem get?_files (hf : r.files.contains f = true) :
    r.files.get? f = some (fileOf s d memo f) := by
  obtain ⟨a, ha⟩ := Option.isSome_iff_exists.1 hf
  rw [ha, h.settled f a ha]

theorem mem_inner_iff (hf : r.files.contains f = true) :
    g ∈ r.inner f ↔ g ∈ s.next f ∧ memo.contains g = false := by
  rw [inner, h.get?_files hf, Option.map_some, Option.getD_some]
  simp [fileOf]

theorem mem_outer_iff (hf : r.files.contains f = true) {a : Path × Expansion} :
    a ∈ r.outer f ↔ a.1 ∈ s.next f ∧ memo.get? a.1 = some a.2 := by
  rw [outer, h.get?_files hf, Option.map_some, Option.getD_some]
  simp only [fileOf, List.mem_filterMap, Option.map_eq_some_iff]
  constructor
  · rintro ⟨g, hg, e, he, rfl⟩
    exact ⟨hg, he⟩
  · intro ⟨hg, he⟩
    exact ⟨a.1, hg, a.2, he, rfl⟩

theorem contains_of_mem_inner (hf : r.files.contains f = true)
    (hg : g ∈ r.inner f) : r.files.contains g = true := by
  obtain ⟨hnext, hmemo⟩ := (h.mem_inner_iff hf).1 hg
  rcases h.followed f hf g hnext with hg | hg
  · rw [hmemo] at hg
    cases hg
  · exact hg

/-- The includes that stay in a region are includes of the source. -/
theorem reaches_of_graph (hreach : r.graph.Reaches f g) : s.Reaches f g := by
  refine hreach.mono fun a b hb => ?_
  rw [next_graph] at hb
  cases ha : r.files.contains a with
  | true => exact ((h.mem_inner_iff ha).1 hb).1
  | false =>
      have hnone := FileMap.get?_eq_none_iff.2 ha
      simp [inner, hnone] at hb

/-- **Whatever a file of a region provides is remembered or in the region.** -/
theorem contains_of_reaches (hm : Remembered s memo)
    (hf : r.files.contains f = true) (hg : s.Reaches f g) :
    memo.contains g = true ∨ r.files.contains g = true := by
  induction hg with
  | step hg => exact h.followed _ hf _ hg
  | trans hb hreach ih =>
      rcases h.followed _ hf _ hb with hb | hb
      · exact .inl (hm.contains_of_provides hb (.inr hreach))
      · exact ih hb

end IsRegion

/-! ## What components reach -/

/-- Finished components tell what their files reach. -/
def Finished (s : Source) (done : List Component) : Prop :=
  ∀ c ∈ done, ∀ f ∈ c.members, ∀ g, g ∈ c.reach ↔ s.Reaches f g

theorem Finished.mem_reachOf_iff {done : List Component} (h : Finished s done)
    (hf : f ∈ done.flatMap (·.members)) :
    g ∈ reachOf done f ↔ s.Reaches f g := by
  obtain ⟨c, hc, hfc⟩ := List.mem_flatMap.1 hf
  cases hfind : done.find? fun c => decide (f ∈ c.members) with
  | none =>
      have hnone := List.find?_eq_none.1 hfind c hc
      simp [hfc] at hnone
  | some c' =>
      rw [reachOf, hfind, Option.map_some, Option.getD_some]
      have hfc' := List.find?_some hfind
      rw [decide_eq_true_eq] at hfc'
      exact h c' (List.mem_of_find?_eq_some hfind) f hfc' g

theorem mem_reach_iff {r : Region} {done : List Component}
    {members : List Path} : g ∈ r.reach done members
      ↔ (r.isCycle members = true ∧ g ∈ members)
        ∨ ∃ f ∈ members,
          (∃ k ∈ r.inner f, k ∉ members ∧ (g = k ∨ g ∈ reachOf done k))
            ∨ ∃ a ∈ r.outer f, g = a.1 ∨ g ∈ a.2.closure := by
  have hself : (g ∈ if r.isCycle members then members else [])
      ↔ r.isCycle members = true ∧ g ∈ members := by
    cases r.isCycle members <;> simp
  rw [reach, FileSet.mem_ofList, List.mem_append, hself, List.mem_flatMap]
  simp only [List.mem_append, List.mem_flatMap, List.mem_filter, List.mem_cons,
    Bool.not_eq_true', decide_eq_false_iff_not, ← FileSet.mem_def, and_assoc]

/-- A component with an include of its own is a cycle. -/
theorem isCycle_of_mem_inner {r : Region} {members : List Path}
    (hf : f ∈ members) (hg : g ∈ members) (hinner : g ∈ r.inner f) :
    r.isCycle members = true := by
  rw [isCycle, Bool.or_eq_true, decide_eq_true_eq]
  by_cases hgf : g = f
  · exact .inr (List.any_eq_true.2 ⟨f, hf, decide_eq_true (hgf ▸ hinner)⟩)
  · cases members with
    | nil => cases hf
    | cons a members =>
        refine .inl (Nat.succ_lt_succ (List.length_pos_iff.2 fun hnil => ?_))
        rw [hnil, List.mem_singleton] at hf hg
        exact hgf (hg.trans hf.symm)

/-- A file on a cycle includes itself or is not the only one there. -/
theorem exists_other_of_isCycle {r : Region} {members : List Path}
    (hnodup : members.Nodup) (hcycle : r.isCycle members = true)
    (hf : f ∈ members) : f ∈ r.inner f ∨ ∃ g ∈ members, g ≠ f := by
  rw [isCycle, Bool.or_eq_true, decide_eq_true_eq, List.any_eq_true] at hcycle
  rcases hcycle with hlength | ⟨k, hk, hloop⟩
  · refine .inr ?_
    cases members with
    | nil => cases hf
    | cons a members =>
        obtain ⟨b, hb⟩ :=
          List.exists_mem_of_length_pos (Nat.lt_of_succ_lt_succ hlength)
        by_cases ha : a = f
        · refine ⟨b, List.mem_cons_of_mem _ hb, fun e => ?_⟩
          exact (List.nodup_cons.1 hnodup).1 (ha.trans e.symm ▸ hb)
        · exact ⟨a, List.mem_cons_self, ha⟩
  · rw [decide_eq_true_eq] at hloop
    by_cases hkf : k = f
    · exact .inl (hkf ▸ hloop)
    · exact .inr ⟨k, hk, hkf⟩

section Components

variable {r : Region} {done : List Component} {members : List Path}
  (h : IsRegion s d memo root r) (hm : Remembered s memo)
  (hdone : Finished s done)
  (hfiles : ∀ f ∈ members, r.files.contains f = true)
  (hmutual : ∀ f ∈ members, ∀ g ∈ members, g ≠ f → r.graph.Reaches f g)
  (hsink : ∀ f ∈ members, ∀ g ∈ r.inner f,
    g ∈ members ∨ g ∈ done.flatMap (·.members))

include h hfiles hmutual in
/-- The files of a cycle reach each other and themselves. -/
theorem reaches_of_isCycle (hnodup : members.Nodup)
    (hcycle : r.isCycle members = true) (hf : f ∈ members)
    (hg : g ∈ members) : s.Reaches f g := by
  have hother {a b : Path} (ha : a ∈ members) (hb : b ∈ members)
      (hne : b ≠ a) : s.Reaches a b :=
    h.reaches_of_graph (hmutual a ha b hb hne)
  by_cases hgf : g = f
  · subst hgf
    by_cases hloop : g ∈ r.inner g
    · exact .step ((h.mem_inner_iff (hfiles g hf)).1 hloop).1
    · -- the way there and back over another file
      obtain ⟨k, hk, hne⟩ :=
        (exists_other_of_isCycle hnodup hcycle hf).resolve_left hloop
      exact (hother hf hk hne).append (hother hk hf (Ne.symm hne))
  · exact hother hf hg hgf

include h hm hdone hfiles hsink in
/-- What is provided over an include of a component belongs to its reach, unless
the include stays in the component, which is a cycle then. -/
theorem mem_reach_or_mem_members {a b : Path} (ha : a ∈ members)
    (hb : b ∈ s.next a) (hg : s.Provides b g) :
    g ∈ r.reach done members ∨ (r.isCycle members = true ∧ b ∈ members) := by
  rw [mem_reach_iff]
  cases hmemo : memo.get? b with
  | some e =>
      refine .inl (.inr ⟨a, ha, .inr ⟨(b, e), ?_, ?_⟩⟩)
      · exact (h.mem_outer_iff (hfiles a ha)).2 ⟨hb, hmemo⟩
      · exact (hm.provides_iff hmemo).1 hg
  | none =>
      have hinner : b ∈ r.inner a := (h.mem_inner_iff (hfiles a ha)).2
        ⟨hb, by simp [FileMap.contains, hmemo]⟩
      by_cases hbm : b ∈ members
      · exact .inr ⟨isCycle_of_mem_inner ha hbm hinner, hbm⟩
      · have hbdone := (hsink a ha b hinner).resolve_left hbm
        refine .inl (.inr ⟨a, ha, .inl ⟨b, hinner, hbm, ?_⟩⟩)
        exact hg.imp_right (hdone.mem_reachOf_iff hbdone).2

include h hm hdone hfiles hmutual hsink

/-- **A component reaches what each of its files reaches.** A path from one of
its files stays in the component, which is a cycle then, or leaves it for
something that is finished or remembered. -/
theorem mem_reach_iff_reaches (hnodup : members.Nodup) (hf : f ∈ members) :
    g ∈ r.reach done members ↔ s.Reaches f g := by
  constructor
  · have hway {k b : Path} (hk : k ∈ members) (hb : b ∈ s.next k)
        (hg : s.Provides b g) : s.Reaches f g := by
      by_cases hkf : k = f
      · exact hkf ▸ hg.of_next hb
      · exact (h.reaches_of_graph (hmutual f hf k hk hkf)).append
          (hg.of_next hb)
    rw [mem_reach_iff]
    rintro (⟨hcycle, hg⟩ | ⟨k, hk, ⟨b, hb, hout, hg⟩ | ⟨a, ha, hg⟩⟩)
    · exact reaches_of_isCycle h hfiles hmutual hnodup hcycle hf hg
    · have hbdone := (hsink k hk b hb).resolve_left hout
      rw [hdone.mem_reachOf_iff hbdone] at hg
      exact hway hk ((h.mem_inner_iff (hfiles k hk)).1 hb).1 hg
    · obtain ⟨hnext, hmemo⟩ := (h.mem_outer_iff (hfiles k hk)).1 ha
      exact hway hk hnext ((hm.provides_iff hmemo).2 hg)
  · intro hreach
    have hfirst {a b : Path} (ha : a ∈ members) (hb : b ∈ s.next a)
        (hg : s.Provides b g) :=
      mem_reach_or_mem_members h hm hdone hfiles hsink ha hb hg
    induction hreach with
    | step hb =>
        rcases hfirst hf hb (.inl rfl) with hg | hcycle
        · exact hg
        · exact mem_reach_iff.2 (.inl hcycle)
    | trans hb hreach ih =>
        rcases hfirst hf hb (.inr hreach) with hg | ⟨_, hbm⟩
        · exact hg
        · exact ih hbm hfirst

end Components

/-- **Finishing components one by one** finishes all of them. -/
theorem finished_condense {r : Region} {done : List Component}
    {components : List (List Path)} (h : IsRegion s d memo root r)
    (hm : Remembered s memo) (hdone : Finished s done)
    (hfiles : ∀ f ∈ components.flatten, r.files.contains f = true)
    (hnodup : ∀ members ∈ components, members.Nodup)
    (hmutual : ∀ members ∈ components, ∀ f ∈ members, ∀ g ∈ members,
      g ≠ f → r.graph.Reaches f g)
    (hsinks : r.SinksFirst (done.flatMap (·.members)) components) :
    Finished s (r.condense done components)
      ∧ (r.condense done components).flatMap (·.members)
        = done.flatMap (·.members) ++ components.flatten := by
  induction components generalizing done with
  | nil => simpa [condense] using hdone
  | cons members rest ih =>
      have hreach : Finished s (done ++ [⟨members, r.reach done members⟩]) := by
        intro c hc f hf g
        rcases List.mem_append.1 hc with hc | hc
        · exact hdone c hc f hf g
        · rw [List.mem_singleton.1 hc] at hf ⊢
          exact mem_reach_iff_reaches h hm hdone
            (fun k hk => hfiles k (by simp [hk]))
            (hmutual members List.mem_cons_self) hsinks.1
            (hnodup members List.mem_cons_self) hf
      have hmembers (reach : FileSet) :
          (done ++ [Component.mk members reach]).flatMap (·.members)
            = done.flatMap (·.members) ++ members := by simp
      obtain ⟨hfinished, hall⟩ := ih hreach
        (fun f hf => hfiles f (by simp [List.mem_flatten.1 hf]))
        (fun c hc => hnodup c (List.mem_cons_of_mem _ hc))
        (fun c hc => hmutual c (List.mem_cons_of_mem _ hc))
        ((hmembers _).symm ▸ hsinks.2)
      refine ⟨hfinished, ?_⟩
      rw [condense, List.foldl_cons]
      rw [condense, hmembers] at hall
      rw [hall, List.flatten_cons, List.append_assoc]

/-! ## Expanding files by themselves -/

/-- The size of a file, remembered or new. -/
def ownAlone (s : Source) (d : Disk) (memo : FileMap Expansion) (f : Path) :
    Nat :=
  match memo.get? f with
  | some e => e.own
  | none => Index.sizeOf s d f

/-- A file expanded by itself: its remembered expansion, or a new one that
needs no other. -/
def alone (s : Source) (d : Disk) (memo : FileMap Expansion) (f : Path) :
    Expansion :=
  match memo.get? f with
  | some e => e
  | none =>
      let closure := s.closure f
      let own := ownAlone s d memo f
      { own, closure
        weight := Index.total own
          (closure.toList.map (ownAlone s d memo)) }

theorem mem_closure_alone (hm : Remembered s memo) :
    g ∈ (alone s d memo f).closure ↔ s.Reaches f g ∧ g ≠ f := by
  cases hf : memo.get? f with
  | some e => simpa only [alone, hf] using hm.mem_closure f e hf g
  | none => simpa only [alone, hf] using Source.mem_closure_iff

section Expansions

variable {r : Region} (h : IsRegion s d memo root r) (hm : Remembered s memo)

include h

theorem ownOf_eq (hg : memo.contains g = true ∨ r.files.contains g = true) :
    r.ownOf memo g = ownAlone s d memo g := by
  cases hr : r.files.contains g with
  | true =>
      have hnone := FileMap.get?_eq_none_iff.2 (h.unremembered g hr)
      simp only [ownOf, h.get?_files hr, ownAlone, hnone, fileOf]
  | false =>
      obtain ⟨e, he⟩ := Option.isSome_iff_exists.1
        (hg.resolve_right (by simp [hr]))
      have hnone := FileMap.get?_eq_none_iff.2 hr
      simp only [ownOf, hnone, ownAlone, he, Option.map_some, Option.getD_some]

include hm

/-- **What the components give a file is its expansion by itself**: all that it
pulls in is weighed now or remembered. -/
theorem expansionOf_eq {done : List Component} (hdone : Finished s done)
    (hf : r.files.contains f = true)
    (hmem : f ∈ done.flatMap (·.members)) :
    r.expansionOf memo done f = alone s d memo f := by
  have hclosure : (reachOf done f).erase f = s.closure f :=
    FileSet.ext fun g => by
      rw [FileSet.mem_erase, hdone.mem_reachOf_iff hmem,
        Source.mem_closure_iff]
  have hown : ∀ g ∈ (s.closure f).toList,
      r.ownOf memo g = ownAlone s d memo g := fun g hg =>
    ownOf_eq h (h.contains_of_reaches hm hf (Source.mem_closure_iff.1 hg).1)
  have hnone := FileMap.get?_eq_none_iff.2 (h.unremembered f hf)
  simp only [expansionOf, hclosure, alone, hnone, ownOf_eq h (.inr hf),
    List.map_congr_left hown]

/-- **A region is expanded exactly**, by any components that meet the
contract. -/
theorem get?_expansions {components : List (List Path)}
    (hc : r.IsCondensation components) :
    (r.expansions memo components).get? g
      = if r.files.contains g then some (alone s d memo g) else none := by
  have hnone : Finished s [] := nofun
  obtain ⟨hfinished, hall⟩ := finished_condense h hm hnone
    (fun f hf => (hc.covers f).1 hf) hc.nodup hc.mutual_reach hc.sinksFirst
  rw [expansions, FileMap.get?_mapValues]
  cases hg : r.files.contains g with
  | true =>
      have hmem : g ∈ (r.condense [] components).flatMap (·.members) := by
        rw [hall]
        simpa using (hc.covers g).2 hg
      rw [h.get?_files hg, Option.map_some, if_pos rfl,
        expansionOf_eq h hm hfinished hg hmem]
  | false =>
      rw [FileMap.get?_eq_none_iff.2 hg]
      rfl

/-- It makes no difference which components those are. -/
theorem expansions_congr {components others : List (List Path)}
    (hc : r.IsCondensation components) (ho : r.IsCondensation others) :
    r.expansions memo components = r.expansions memo others :=
  FileMap.ext fun _ => by
    rw [get?_expansions h hm hc, get?_expansions h hm ho]

/-- The files of a region are what its file provides and is not remembered. -/
theorem contains_files_iff : r.files.contains g = true
    ↔ memo.contains g = false ∧ s.Provides root g := by
  constructor
  · exact fun hg => ⟨h.unremembered g hg, h.provided g hg⟩
  · rintro ⟨hnone, rfl | hg⟩
    · exact h.contains_root
    · refine (h.contains_of_reaches hm h.contains_root hg).resolve_left ?_
      simp [hnone]

end Expansions

/-! ## What is remembered then -/

/-- **A file is expanded together with all that it pulls in**, and each of them
as if it were expanded by itself. What was remembered stays as it was. -/
theorem get?_remember (hm : Remembered s memo) :
    (remember s d memo f).get? g = (memo.get? g).or
      (if g = f ∨ g ∈ s.closure f then some (alone s d memo g) else none) := by
  rw [remember]
  split
  · rename_i hf
    split
    · rename_i hg
      obtain ⟨e, he⟩ := Option.isSome_iff_exists.1
        (hm.contains_of_provides hf (Source.provides_iff.2 hg))
      simp [he]
    · exact Option.or_none.symm
  · rename_i hf
    have h : IsRegion s d memo f (of s d memo f) :=
      isRegion_of (by simpa using hf)
    rw [FileMap.get?_fill, get?_expansions h hm
      (components_isCondensation fun a ha b => h.contains_of_mem_inner ha)]
    cases hg : memo.get? g with
    | some e => rfl
    | none =>
        have hiff := contains_files_iff (g := g) h hm
        simp only [FileMap.contains, hg, Option.isSome_none, true_and]
          at hiff
        simp only [FileMap.contains, hiff, Source.provides_iff]

end Region

/-- **What is remembered stays exact and closed.** -/
theorem Remembered.remember (hm : Remembered s memo) (d : Disk) (f : Path) :
    Remembered s (Region.remember s d memo f) where
  mem_closure g e he := by
    rw [Region.get?_remember hm, Option.or_eq_some_iff] at he
    rcases he with he | ⟨_, he⟩
    · exact hm.mem_closure g e he
    · split at he
      · cases he
        exact fun k => Region.mem_closure_alone hm
      · cases he
  closed g e he k hk := by
    rw [FileMap.contains, Region.get?_remember hm, Option.isSome_or,
      Bool.or_eq_true]
    rw [Region.get?_remember hm, Option.or_eq_some_iff] at he
    rcases he with he | ⟨_, he⟩
    · exact .inl (hm.closed g e he k hk)
    · split at he
      · rename_i hg
        cases he
        have hprovides : s.Provides f k := (Source.provides_iff.2 hg).append
          (.inr ((Region.mem_closure_alone hm).1 hk).1)
        rw [if_pos (Source.provides_iff.1 hprovides)]
        exact .inr rfl
      · cases he

end IncludeBlock
