import IncludeBlock.Organize

/-!
# Arranging keeps the entries

Putting a block in order moves entries and gives them groups, and nothing
else: up to the groups the arranged entries are a permutation of what was to
be arranged (`arrange_sameEntries`).
-/

namespace IncludeBlock

/-- An entry without its group. -/
def Entry.ungrouped (e : Entry) : Entry := { e with group := 0 }

@[simp] theorem Entry.ungrouped_group (e : Entry) (group : Nat) :
    { e with group }.ungrouped = e.ungrouped := rfl

theorem Entry.ungrouped_eq_iff {e e' : Entry} (h : e.group = e'.group) :
    e.ungrouped = e'.ungrouped ↔ e = e' := by
  constructor
  · intro heq
    cases e
    cases e'
    simp_all [Entry.ungrouped]
  · exact congrArg _

@[simp] theorem Entry.spelling_ungrouped (e : Entry) :
    e.ungrouped.spelling = e.spelling := rfl

@[simp] theorem Entry.isResolved_ungrouped (e : Entry) :
    e.ungrouped.isResolved = e.isResolved := rfl

@[simp] theorem Entry.isMoc_ungrouped (e : Entry) :
    e.ungrouped.isMoc = e.isMoc := rfl

namespace Organize

/-- The same entries up to order and groups. -/
def SameEntries (as bs : List Entry) : Prop :=
  (as.map Entry.ungrouped).Perm (bs.map Entry.ungrouped)

theorem SameEntries.trans {as bs cs : List Entry} (h : SameEntries as bs)
    (h' : SameEntries bs cs) : SameEntries as cs :=
  List.Perm.trans h h'

theorem sameEntries_of_perm {as bs : List Entry} (h : as.Perm bs) :
    SameEntries as bs :=
  h.map _

theorem sameEntries_regroup (group : Nat) (es : List Entry) :
    SameEntries (es.map ({ · with group })) es := by
  rw [SameEntries, List.map_map]
  exact List.Perm.refl _

theorem assignGroupsAfter_ungrouped (directory : Path) (group : Nat)
    (es : List Entry) :
    (assignGroupsAfter directory group es).map Entry.ungrouped
      = es.map Entry.ungrouped := by
  induction es generalizing directory group with
  | nil => rfl
  | cons e es ih =>
      rw [assignGroupsAfter, List.map_cons, List.map_cons, ih]
      rfl

theorem sameEntries_assignGroups (es : List Entry) :
    SameEntries (assignGroups es) es := by
  cases es with
  | nil => exact List.Perm.refl _
  | cons e es =>
      rw [SameEntries, assignGroups, List.map_cons, List.map_cons,
        assignGroupsAfter_ungrouped]
      exact List.Perm.refl _

theorem apply_sameEntries (p : OrderingPolicy) (es : List Entry) :
    SameEntries (p.apply es) es := by
  rw [OrderingPolicy.apply]
  split
  · exact List.Perm.refl _
  · exact (sameEntries_regroup 0 _).trans
      (sameEntries_of_perm (Sorting.sortBy_perm _ _))
  · exact (sameEntries_assignGroups _).trans
      (sameEntries_of_perm (Sorting.sortBy_perm _ _))
  · exact (sameEntries_assignGroups _).trans
      (sameEntries_of_perm ((List.reverse_perm _).trans
        (Sorting.sortBy_perm _ _)))

theorem keepLines_sameEntries (es : List Entry) :
    SameEntries (keepLines es) es := by
  have hold := Sorting.sortBy_perm (fun a b => lineKey a ≤ lineKey b)
    (es.filter (!·.isNew))
  have hparts : (es.filter (!·.isNew) ++ es.filter (·.isNew)).Perm es := by
    have h := List.filter_append_perm (fun e : Entry => !e.isNew) es
    simpa using h
  refine SameEntries.trans ?_ (sameEntries_of_perm hparts)
  rw [SameEntries, keepLines, List.map_append, List.map_append]
  exact (sameEntries_of_perm hold).append (sameEntries_regroup _ _)

/-- **Arranging only moves entries and gives them groups.** -/
theorem arrange_sameEntries (p : OrderingPolicy) (es us : List Entry) :
    SameEntries (arrange p es us) (es ++ us) := by
  refine (apply_sameEntries p _).trans ?_
  split
  · exact keepLines_sameEntries _
  · exact List.Perm.refl _

/-- Traits that groups do not touch are the same. -/
theorem SameEntries.map_perm {β : Type} {as bs : List Entry}
    (h : SameEntries as bs) {trait : Entry → β}
    (hgroup : ∀ e, trait e.ungrouped = trait e) :
    (as.map trait).Perm (bs.map trait) := by
  have htraits := List.Perm.map trait h
  rwa [List.map_map, List.map_map,
    show trait ∘ Entry.ungrouped = trait from funext hgroup] at htraits

/-- The same files are included. -/
theorem SameEntries.files {as bs : List Entry} (h : SameEntries as bs) :
    (as.map (·.file)).Perm (bs.map (·.file)) :=
  h.map_perm fun _ => rfl

theorem SameEntries.mem_files {as bs : List Entry} (h : SameEntries as bs)
    {f : Path} : f ∈ as.map (·.file) ↔ f ∈ bs.map (·.file) :=
  h.files.mem_iff

/-- What takes no notice of groups holds of the same entries. -/
theorem SameEntries.forall_mem {as bs : List Entry} (h : SameEntries as bs)
    {P : Entry → Prop} (hP : ∀ e : Entry, P e.ungrouped ↔ P e)
    (hall : ∀ b ∈ bs, P b) : ∀ a ∈ as, P a := by
  intro a ha
  obtain ⟨b, hb, heq⟩ := List.mem_map.1
    ((List.Perm.mem_iff h).1 (List.mem_map_of_mem ha))
  rw [← hP, ← heq, hP]
  exact hall b hb

theorem SameEntries.filter {as bs : List Entry} (h : SameEntries as bs)
    {p : Entry → Bool} (hp : ∀ e : Entry, p e.ungrouped = p e) :
    SameEntries (as.filter p) (bs.filter p) := by
  have hfilter (es : List Entry) : (es.filter p).map Entry.ungrouped
      = (es.map Entry.ungrouped).filter p := by
    rw [List.filter_map, show p ∘ Entry.ungrouped = p from funext hp]
  rw [SameEntries, hfilter, hfilter]
  exact List.Perm.filter p h

/-- Appending generated code to a block without any can be undone. -/
theorem appendMoc_parts {block moc : List Entry}
    (hblock : ∀ e ∈ block, e.isMoc = false)
    (hmoc : ∀ e ∈ moc, e.isMoc = true) :
    (appendMoc block moc).filter (!·.isMoc) = block
      ∧ appendMoc block ((appendMoc block moc).filter (·.isMoc))
        = appendMoc block moc := by
  let group := (block.getLast?.map (nextGroup ·.group)).getD 0
  let regroup (e : Entry) : Entry := { e with group }
  have hregroup : ∀ e ∈ moc.map regroup, e.isMoc = true := by
    intro e he
    obtain ⟨e₀, he₀, rfl⟩ := List.mem_map.1 he
    exact hmoc e₀ he₀
  have hparts : appendMoc block moc = block ++ moc.map regroup := rfl
  rw [hparts, List.filter_append, List.filter_append]
  have hnone : (moc.map regroup).filter (!·.isMoc) = [] :=
    List.filter_eq_nil_iff.2 fun e he => by simp [hregroup e he]
  have hnone' : block.filter (·.isMoc) = [] :=
    List.filter_eq_nil_iff.2 fun e he => by simp [hblock e he]
  have hall : block.filter (!·.isMoc) = block :=
    List.filter_eq_self.2 fun e he => by simp [hblock e he]
  have hall' : (moc.map regroup).filter (·.isMoc) = moc.map regroup :=
    List.filter_eq_self.2 hregroup
  rw [hnone, hnone', hall, hall', List.append_nil, List.nil_append]
  refine ⟨rfl, ?_⟩
  show block ++ (moc.map regroup).map regroup = _
  rw [List.map_map]
  rfl

end Organize

end IncludeBlock
