import IncludeBlock.Proofs.Organize.Counterparts
import Mathlib.Order.Bounds.Basic

/-!
# Blocks whose lines are kept

Where nothing is sorted, the old entries go back to their lines, the new ones
follow as a group, and generated code as another one (`layered_appendMoc`). The
old entries come from places in the request, and are put in order by an order
of places (`Precedes`): the sort itself looks at lines only, but it is stable,
and what it is given comes in the order of places, first the entries with a
file and then those without (`pairwise_cameFirst`). Which entries are kept is
told by what is dropped (`exists_parted`).
-/

namespace IncludeBlock

namespace Organize

variable {s : Settings} {d : Disk} {r : OrganizeRequest} {actions : Actions}

/-! ## The entries of a request in their places -/

/-- The entries of a request that pass a test, with their places in it. -/
def placesOf (r : OrganizeRequest) (test : Entry → Bool) :
    List (Entry × Nat) :=
  r.entries.zipIdx.filter (test ·.1)

theorem map_fst_placesOf (r : OrganizeRequest) (test : Entry → Bool) :
    (placesOf r test).map Prod.fst = r.entries.filter test := by
  have hfilter := List.filter_map (p := test) (f := Prod.fst)
    (l := r.entries.zipIdx)
  rw [List.zipIdx_map_fst] at hfilter
  exact hfilter.symm

theorem pairwise_placesOf (r : OrganizeRequest) (test : Entry → Bool) :
    (placesOf r test).Pairwise (·.2 < ·.2) := by
  have hplaces : r.entries.zipIdx.Pairwise (·.2 < ·.2) := by
    rw [← List.pairwise_map, List.zipIdx_map_snd]
    exact List.pairwise_lt_range'
  exact hplaces.filter _

/-- Whether the file of an entry is not found. -/
def isUnfound (s : Settings) (d : Disk) (r : OrganizeRequest)
    (actions : Actions) (e : Entry) : Bool :=
  !e.isMoc && !(lookedUp s d r actions e).isResolved

/-- An entry of a request as it stands in a block, if it is kept. -/
def blockForm (s : Settings) (d : Disk) (r : OrganizeRequest)
    (actions : Actions) (e : Entry) : Entry :=
  if (lookedUp s d r actions e).isResolved then
    spellEntry r (r.spellingRoots d) actions.rename
      (weighedForm s d r actions e)
  else e

theorem blockForm_of_isWeighed {e : Entry}
    (h : isWeighed s d r actions e = true) : blockForm s d r actions e
      = spellEntry r (r.spellingRoots d) actions.rename
          (weighedForm s d r actions e) := by
  rw [isWeighed, Bool.and_eq_true] at h
  rw [blockForm, if_pos h.2]

theorem blockForm_of_isUnfound {e : Entry}
    (h : isUnfound s d r actions e = true) :
    blockForm s d r actions e = e := by
  simp only [isUnfound, Bool.and_eq_true, Bool.not_eq_true'] at h
  rw [blockForm, if_neg (by simp [h.2])]

theorem origin_blockForm (e : Entry) :
    (blockForm s d r actions e).origin = e.origin := by
  rw [blockForm]
  split
  · exact (origin_preferredEntry _).trans (origin_lookedUp e)
  · rfl

theorem isNew_blockForm (e : Entry) :
    (blockForm s d r actions e).isNew = e.isNew :=
  congrArg Prod.snd (origin_blockForm e)

theorem lineKey_blockForm (e : Entry) :
    lineKey (blockForm s d r actions e) = lineKey e :=
  congrArg (fun origin => origin.1.getD (Nat.pow 2 64 - 1))
    (origin_blockForm e)

/-! ## Kept and dropped entries -/

theorem splitRepeated_sublist (es : List Entry) (seen : FileSet) :
    (splitRepeated seen es).1.Sublist es := by
  induction es generalizing seen with
  | nil => exact List.Sublist.refl _
  | cons e es ih =>
      rw [splitRepeated]
      split
      · exact (ih seen).cons e
      · exact (ih (seen.insert e.file)).cons_cons e

theorem found_sublist_weighable :
    (survey s d r actions).found.Sublist (weighable s d r actions) := by
  cases hremove : actions.remove with
  | false => rw [found_survey_of_not_remove hremove]
  | true =>
      rw [found_survey hremove]
      exact splitRepeated_sublist _ ∅

/-- The weighed entries of a request in two parts: those that are kept, in
their order, and those that are told as dropped. -/
structure Parted (s : Settings) (d : Disk) (r : OrganizeRequest)
    (actions : Actions) (dropped : List Entry) (kept gone : List (Entry × Nat)) :
    Prop where
  sublist : kept.Sublist (placesOf r (isWeighed s d r actions))
  perm : (kept ++ gone).Perm (placesOf r (isWeighed s d r actions))
  dropped_perm : dropped.Perm
    (gone.map fun place => weighedForm s d r actions place.1)

theorem weighable_eq_map_places : weighable s d r actions
    = (placesOf r (isWeighed s d r actions)).map
        fun place => weighedForm s d r actions place.1 := by
  rw [weighable_eq_map, ← map_fst_placesOf, List.map_map]
  rfl

/-- **What a reduction drops tells what it keeps.** -/
theorem exists_parted (s : Settings) (d : Disk) (r : OrganizeRequest)
    (actions : Actions) (k : Reduction) :
    let v := survey s d r actions
    ∃ kept gone,
      Parted s d r actions
          (v.repeats ++ v.found.filter (isDropped actions k)) kept gone
        ∧ v.found.filter (!isDropped actions k ·)
          = kept.map fun place => weighedForm s d r actions place.1 := by
  intro v
  let form := fun place : Entry × Nat => weighedForm s d r actions place.1
  have hsublist : (v.found.filter (!isDropped actions k ·)).Sublist
      ((placesOf r (isWeighed s d r actions)).map form) := by
    rw [← weighable_eq_map_places]
    exact List.filter_sublist.trans found_sublist_weighable
  obtain ⟨kept, hkept, hform⟩ := List.sublist_map_iff.1 hsublist
  obtain ⟨gone, hperm⟩ := hkept.exists_perm_append
  have hall := dropped_append_kept_perm s d r actions k
  dsimp only at hall
  rw [← weighable_eq_map, weighable_eq_map_places] at hall
  refine ⟨kept, gone, ⟨hkept, hperm.symm, ?_⟩, hform⟩
  -- both are what is left of the weighed entries without the kept ones
  refine (List.perm_append_right_iff (kept.map form)).1 ?_
  rw [← hform]
  refine hall.trans ((hperm.map form).trans ?_)
  rw [List.map_append, hform]
  exact List.perm_append_comm

/-! ## The order of places -/

/-- Whether an entry comes first of two whose lines do not tell: entries with a
file come before those without, and each kind in the order of the request. -/
def CameFirst (s : Settings) (d : Disk) (r : OrganizeRequest)
    (actions : Actions) (a b : Entry × Nat) : Prop :=
  isUnfound s d r actions a.1 = false ∧ isUnfound s d r actions b.1 = true
    ∨ isUnfound s d r actions a.1 = isUnfound s d r actions b.1 ∧ a.2 < b.2

/-- The order of entries whose lines are kept. An entry without a line stands
where one on the last line of all would. -/
def Precedes (s : Settings) (d : Disk) (r : OrganizeRequest)
    (actions : Actions) (a b : Entry × Nat) : Prop :=
  lineKey a.1 < lineKey b.1
    ∨ lineKey a.1 = lineKey b.1 ∧ CameFirst s d r actions a b

theorem isUnfound_of_isWeighed {e : Entry}
    (h : isWeighed s d r actions e = true) :
    isUnfound s d r actions e = false := by
  rw [isWeighed, Bool.and_eq_true] at h
  rw [isUnfound, h.2, Bool.not_true, Bool.and_false]

theorem pairwise_cameFirst {kept : List (Entry × Nat)}
    (hkept : kept.Sublist (placesOf r (isWeighed s d r actions))) :
    (kept ++ placesOf r (isUnfound s d r actions)).Pairwise
      (CameFirst s d r actions) := by
  have hfound : ∀ a ∈ kept, isUnfound s d r actions a.1 = false :=
    fun a ha => isUnfound_of_isWeighed
      (List.mem_filter.1 (hkept.subset ha)).2
  have hunfound : ∀ a ∈ placesOf r (isUnfound s d r actions),
      isUnfound s d r actions a.1 = true :=
    fun a ha => (List.mem_filter.1 ha).2
  refine List.pairwise_append.2 ⟨?_, ?_, ?_⟩
  · refine ((pairwise_placesOf r _).sublist hkept).imp_of_mem ?_
    intro a b ha hb hlt
    exact .inr ⟨(hfound a ha).trans (hfound b hb).symm, hlt⟩
  · refine (pairwise_placesOf r _).imp_of_mem ?_
    intro a b ha hb hlt
    exact .inr ⟨(hunfound a ha).trans (hunfound b hb).symm, hlt⟩
  · exact fun a ha b hb => .inl ⟨hfound a ha, hunfound b hb⟩

/-- **Sorting by lines puts places in order.** -/
theorem exists_sorted_places {stay : List (Entry × Nat)}
    (hstay : stay.Pairwise (CameFirst s d r actions)) :
    let form := fun place : Entry × Nat => blockForm s d r actions place.1
    ∃ old : List (Entry × Nat),
      old.Perm (stay.filter (!·.1.isNew))
        ∧ old.Pairwise (Precedes s d r actions)
        ∧ Sorting.sortBy (fun a b => lineKey a ≤ lineKey b)
            ((stay.map form).filter (!·.isNew)) = old.map form := by
  intro form
  let le := fun a b : Entry × Nat => decide (lineKey a.1 ≤ lineKey b.1)
  let old := Sorting.sortBy le (stay.filter (!·.1.isNew))
  have hsorted : old.Pairwise fun a b => le a b := by
    refine Sorting.pairwise_sortBy ?_ ?_ _
    · simp only [le, decide_eq_true_eq]
      exact fun a b c => Nat.le_trans
    · simp only [le, Bool.or_eq_true, decide_eq_true_eq]
      exact fun a b => Nat.le_total _ _
  have hstable : old.Pairwise fun a b => le b a → CameFirst s d r actions a b :=
    Sorting.tied_sortBy (hstay.filter _)
  refine ⟨old, Sorting.sortBy_perm _ _, (hsorted.and hstable).imp ?_, ?_⟩
  · rintro a b ⟨hle, htied⟩
    simp only [le, decide_eq_true_eq] at hle htied
    rcases Nat.lt_or_eq_of_le hle with hlt | heq
    · exact .inl hlt
    · exact .inr ⟨heq, htied heq.ge⟩
  · have hnew : (fun e : Entry => !e.isNew) ∘ form = (!·.1.isNew) := by
      funext place
      exact congrArg (! ·) (isNew_blockForm place.1)
    rw [List.filter_map, hnew]
    refine Sorting.sortBy_map (fun a b => ?_) _
    rw [lineKey_blockForm, lineKey_blockForm]

/-! ## Layers -/

/-- A block in layers: `old` as it is, `new` as a group behind all groups of
`old`, and `moc` as the group behind the entry that stands before it. Nothing
is said of the group behind the greatest one. -/
structure Layered (old new moc es : List Entry) (group mocGroup : Nat) :
    Prop where
  isNew_old : ∀ e ∈ old, e.isNew = false
  isNew_new : ∀ e ∈ new, e.isNew = true
  isLeast_group : (∀ e ∈ old, e.group < maxGroup) →
    IsLeast {n | ∀ e ∈ old, e.group < n} group
  mocGroup_eq_zero : old ++ new = [] → mocGroup = 0
  mocGroup_eq_succ :
    ∀ e ∈ (old ++ new.map fun e : Entry => { e with group }).getLast?,
      e.group < maxGroup → mocGroup = e.group + 1
  entries_eq : es = old ++ new.map ({ · with group })
    ++ moc.map ({ · with group := mocGroup })

/-- The fold is the least number above all groups, and not below its start. -/
theorem isLeast_foldl_group {es : List Entry}
    (hes : ∀ e ∈ es, e.group < maxGroup) (start : Nat) :
    IsLeast {n | start ≤ n ∧ ∀ e ∈ es, e.group < n}
      (es.foldl (fun n e => max n (nextGroup e.group)) start) := by
  induction es generalizing start with
  | nil =>
      refine ⟨⟨Nat.le_refl _, fun _ he => by cases he⟩, fun n hn => hn.1⟩
  | cons e es ih =>
      obtain ⟨he, hes⟩ := List.forall_mem_cons.1 hes
      have hbounds : {n | start ≤ n ∧ ∀ x ∈ e :: es, x.group < n}
          = {n | max start (e.group + 1) ≤ n ∧ ∀ x ∈ es, x.group < n} := by
        ext n
        simp only [Set.mem_ofPred_eq, List.forall_mem_cons, Nat.max_le,
          and_assoc, Nat.succ_le_iff]
      rw [hbounds, List.foldl_cons, nextGroup_of_lt he]
      exact ih hes _

/-- **Keeping lines makes layers.** -/
theorem layered_appendMoc (es moc : List Entry) :
    ∃ group mocGroup, Layered
      (Sorting.sortBy (fun a b => lineKey a ≤ lineKey b)
        (es.filter (!·.isNew)))
      (es.filter (·.isNew)) moc (appendMoc (keepLines es) moc) group
      mocGroup := by
  refine ⟨_, _, {
    isNew_old := fun e he => ?_
    isNew_new := fun e he => (List.mem_filter.1 he).2
    isLeast_group := fun hold => ?_
    mocGroup_eq_zero := fun hnil => ?_
    mocGroup_eq_succ := fun e he hlt => ?_
    entries_eq := rfl }⟩
  · have hold := (List.mem_filter.1 ((Sorting.sortBy_perm _ _).mem_iff.1 he)).2
    simpa using hold
  · have hleast := isLeast_foldl_group hold 0
    simpa only [Nat.zero_le, true_and] using hleast
  · obtain ⟨hold, hnew⟩ := List.append_eq_nil_iff.1 hnil
    simp [keepLines, hold, hnew]
  · rw [keepLines, Option.mem_def.1 he]
    exact nextGroup_of_lt hlt

/-! ## The entries to put in order -/

theorem written_eq_map {k : Reduction} {kept : List (Entry × Nat)}
    (hkept : kept.Sublist (placesOf r (isWeighed s d r actions)))
    (hform : (survey s d r actions).found.filter (!isDropped actions k ·)
      = kept.map fun place => weighedForm s d r actions place.1) :
    written s d r actions k
      = (kept.map fun place => blockForm s d r actions place.1)
        ++ (newEntries actions k.add).map
            (spellEntry r (r.spellingRoots d) actions.rename) := by
  have hnew : (if actions.add then k.add.toList.map Entry.synthesized else [])
      = newEntries actions k.add := rfl
  rw [written, revised, hnew, List.map_append, hform, List.map_map]
  refine congrArg (· ++ _) (List.map_congr_left fun place hplace => ?_)
  exact (blockForm_of_isWeighed
    (List.mem_filter.1 (hkept.subset hplace)).2).symm

theorem unresolved_eq_map_places : (survey s d r actions).unresolved
    = (placesOf r (isUnfound s d r actions)).map
        fun place => blockForm s d r actions place.1 := by
  refine unresolved_survey.trans ?_
  change r.entries.filter (isUnfound s d r actions) = _
  rw [← map_fst_placesOf]
  refine List.map_congr_left fun place hplace => ?_
  exact (blockForm_of_isUnfound (List.mem_filter.1 hplace).2).symm

theorem isNew_of_mem_added {files : FileSet} {roots : List Path}
    {rename : Bool} {e : Entry}
    (he : e ∈ (newEntries actions files).map (spellEntry r roots rename)) :
    e.isNew = true := by
  obtain ⟨e₀, he₀, rfl⟩ := List.mem_map.1 he
  rw [newEntries] at he₀
  split at he₀
  · obtain ⟨f, -, rfl⟩ := List.mem_map.1 he₀
    rfl
  · cases he₀

/-- The old entries of a block come from places only. -/
theorem filter_old_entries {kept unfound : List (Entry × Nat)}
    {added : List Entry} (hadded : ∀ e ∈ added, e.isNew = true) :
    let form := fun place : Entry × Nat => blockForm s d r actions place.1
    (kept.map form ++ added ++ unfound.map form).filter (!·.isNew)
      = ((kept ++ unfound).map form).filter (!·.isNew) := by
  intro form
  have hnone : added.filter (!·.isNew) = [] :=
    List.filter_eq_nil_iff.2 fun e he => by simp [hadded e he]
  simp only [List.filter_append, List.map_append, hnone, List.append_nil]

theorem filter_new_entries {kept unfound : List (Entry × Nat)}
    {added : List Entry} (hadded : ∀ e ∈ added, e.isNew = true) :
    let form := fun place : Entry × Nat => blockForm s d r actions place.1
    (kept.map form ++ added ++ unfound.map form).filter (·.isNew)
      = (kept.filter (·.1.isNew)).map form ++ added
        ++ (unfound.filter (·.1.isNew)).map form := by
  intro form
  have hform : (fun e : Entry => e.isNew) ∘ form = (·.1.isNew) :=
    funext fun place => isNew_blockForm place.1
  rw [List.filter_append, List.filter_append, List.filter_map,
    List.filter_map, hform, List.filter_eq_self.2 hadded]

end Organize

namespace Organizer

open Organize

variable (o : Organizer) (d : Disk) (r : OrganizeRequest) (actions : Actions)

/-- The own entries of a block that is not sorted. -/
theorem ownBlock_of_unsorted
    (hsort : actions.sort = false ∨ o.settings.order = .keepCurrent) :
    let v := survey o.settings d r actions
    let k := (weigh o.index d o.settings.policy v).1
    o.ownBlock d r actions
      = keepLines (written o.settings d r actions k ++ v.unresolved) := by
  intro v k
  have horder : (if actions.sort then o.settings.order else Order.keepCurrent)
      = .keepCurrent := by
    split
    · rename_i hactions
      exact hsort.resolve_left (by simp [hactions])
    · rfl
  rw [ownBlock, block, horder]
  rfl

/-- **The layout of a block that is not sorted.** First come the old entries in
the order of their places (`Precedes`): those of the weighed ones that are not
dropped, and those whose file is not found. Then come the new ones, those of
the request in its order and the added ones between them, in a group behind all
groups of the old ones. Generated code in the order of the request is the last
group. Behind the greatest group nothing is said of the next one. -/
theorem organizeWith_unsorted (o : Organizer) (d : Disk) (r : OrganizeRequest)
    (actions : Actions)
    (hsort : actions.sort = false ∨ o.settings.order = .keepCurrent) :
    let result := (o.organizeWith d r actions).1
    let form := fun place : Entry × Nat =>
      blockForm o.settings d r actions place.1
    let unfound := placesOf r (isUnfound o.settings d r actions)
    let added := (newEntries actions (o.addedFiles d r actions)).map
      (spellEntry r (r.spellingRoots d) actions.rename)
    ∃ (kept gone old : List (Entry × Nat)) (group mocGroup : Nat),
      Parted o.settings d r actions result.dropped kept gone
        ∧ old.Perm ((kept ++ unfound).filter (!·.1.isNew))
        ∧ old.Pairwise (Precedes o.settings d r actions)
        ∧ Layered (old.map form)
            ((kept.filter (·.1.isNew)).map form ++ added
              ++ (unfound.filter (·.1.isNew)).map form)
            (r.entries.filter (·.isMoc)) result.entries group mocGroup := by
  intro result form unfound added
  let v := survey o.settings d r actions
  let k := (weigh o.index d o.settings.policy v).1
  obtain ⟨kept, gone, hparted, hkept⟩ :=
    exists_parted o.settings d r actions k
  obtain ⟨old, hperm, hprecedes, hold⟩ :=
    exists_sorted_places (pairwise_cameFirst hparted.sublist)
  have hentries : result.entries
      = appendMoc (keepLines (kept.map form ++ added ++ unfound.map form))
          (r.entries.filter (·.isMoc)) := by
    refine (o.entries_organizeWith d r actions).trans ?_
    rw [o.ownBlock_of_unsorted d r actions hsort,
      written_eq_map hparted.sublist hkept, unresolved_eq_map_places]
    rfl
  have hadded : ∀ e ∈ added, e.isNew = true :=
    fun _ => isNew_of_mem_added
  obtain ⟨group, mocGroup, hlayers⟩ := layered_appendMoc
    (kept.map form ++ added ++ unfound.map form) (r.entries.filter (·.isMoc))
  refine ⟨kept, gone, old, group, mocGroup, ?_, hperm, hprecedes, ?_⟩
  · rwa [o.dropped_organizeWith d r actions]
  · rw [filter_old_entries hadded, hold, filter_new_entries hadded] at hlayers
    rwa [hentries]

/-- A document with two entries on one line, the first of them without a file,
with an entry without a line, a new one, and generated code. -/
def tiedRequest : OrganizeRequest where
  document := ⟨"/d"⟩
  entries := [.unresolved "u.h" (some 3) false,
    .resolved ⟨"/b"⟩ "b" none false,
    .resolved ⟨"/x.moc"⟩ "x.moc" (some 1) false,
    { Entry.resolved ⟨"/n"⟩ "n" none false with isNew := true },
    { Entry.resolved ⟨"/a"⟩ "a" (some 3) false with group := 2 }]
  required := [⟨"/q"⟩]

/-- An index that knows `/q`. -/
def tiedIndex : Index :=
  Index.new (Snapshot.ofRows [(⟨"/q"⟩, 1, [])] {}).1.toSource

theorem organizeWith_unsorted_tiedRequest :
    let s : Settings := { preferPublic := false }
    let actions := { Actions.none with add := true }
    let result := (organizeWith ⟨tiedIndex, s⟩ ∅ tiedRequest actions).1
    actions.sort = false
      ∧ (∃ (old : List (Entry × Nat)) (new : List Entry) (group mocGroup : Nat),
        old.Pairwise (Precedes s ∅ tiedRequest actions)
          ∧ Layered
            (old.map fun place =>
              blockForm s ∅ tiedRequest actions place.1)
            new (tiedRequest.entries.filter (·.isMoc)) result.entries group
            mocGroup)
      ∧ result.entries.map (fun e => (e.spelling, e.group))
        = [("a", 2), ("u.h", 0), ("b", 0), ("n", 3), ("q", 3),
          ("x.moc", 4)] := by
  intro s actions result
  obtain ⟨_, _, old, group, mocGroup, -, -, hprecedes, hlayers⟩ :=
    organizeWith_unsorted ⟨tiedIndex, s⟩ ∅ tiedRequest actions
      (.inl rfl)
  exact ⟨rfl, ⟨old, _, group, mocGroup, hprecedes, hlayers⟩, by decide⟩

/-- A document with an entry without a line, followed by one on the last line
that there can be. -/
def lastLineRequest : OrganizeRequest where
  document := ⟨"/d"⟩
  entries := [.resolved ⟨"/a"⟩ "a" none false,
    .resolved ⟨"/b"⟩ "b" (some (Nat.pow 2 64 - 1)) false]

/-- A document with an entry in the greatest group and another one. -/
def lastGroupRequest (e : Entry) : OrganizeRequest where
  document := ⟨"/d"⟩
  entries :=
    [{ Entry.resolved ⟨"/a"⟩ "a" (some 1) false with group := maxGroup }, e]

/-- **At the ends of the numbers the layout is another one.** An entry without a
line stands where one on the last line would, so another entry on that line may
follow it; and no group is behind the greatest one. -/
theorem not_layout_at_ends :
    let pass := fun r => (organizeWith
      ⟨Index.new Snapshot.empty.toSource, { preferPublic := false }⟩ ∅
      r .none).1.entries
    (pass lastLineRequest).map (·.line) = [none, some (Nat.pow 2 64 - 1)]
      ∧ ¬ (pass lastLineRequest).Pairwise
          (fun a b => a.line = none → b.line = none)
      ∧ (pass (lastGroupRequest (.synthesized ⟨"/b"⟩))).map (·.group)
        = [maxGroup, 0]
      ∧ (pass (lastGroupRequest (.unresolved "x.moc" none false))).map (·.group)
        = [maxGroup, 0] := by
  decide

end Organizer

end IncludeBlock
