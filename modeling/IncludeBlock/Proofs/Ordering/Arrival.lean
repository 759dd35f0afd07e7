import IncludeBlock.Proofs.Ordering.Again
import Mathlib.Data.List.Nodup

/-!
# The order of arrival

An order looks at the bucket and the key of an entry, so the same entries in
another order of arrival are sorted to the same buckets and keys, one after the
other, and only what is tied may change places. Groups are given by the keys
alone (`places_assignGroups`). Hence the keys and the groups of a block depend
on its entries only, and so does the block itself where each key is that of one
entry (`apply_of_perm`).
-/

namespace IncludeBlock

/-! ## Sorting the same elements -/

namespace Sorting

variable {α β : Type} {le : α → α → Bool} {key : α → β} {as bs : List α}

theorem sortBy_perm_sortBy (h : as.Perm bs) :
    (sortBy le as).Perm (sortBy le bs) :=
  (sortBy_perm le as).trans (h.trans (sortBy_perm le bs).symm)

/-- **Sorted lists of the same elements have the same keys in the same order**,
if the tied elements are those of one key. -/
theorem map_sortBy_of_perm (trans : ∀ a b c, le a b → le b c → le a c)
    (total : ∀ a b, le a b || le b a)
    (hkey : ∀ a b, tied le a b = true ↔ key a = key b) (h : as.Perm bs) :
    (sortBy le as).map key = (sortBy le bs).map key := by
  -- keys are in order as the elements that have them
  let keyLe (x y : β) : Prop := ∃ a b, key a = x ∧ key b = y ∧ le a b = true
  have hsorted (cs : List α) : ((sortBy le cs).map key).Pairwise keyLe := by
    refine List.pairwise_map.2 ((pairwise_sortBy trans total cs).imp ?_)
    exact fun {a b} hab => ⟨a, b, rfl, rfl, hab⟩
  refine ((sortBy_perm_sortBy h).map key).eq_of_pairwise ?_ (hsorted as)
    (hsorted bs)
  rintro x y - - ⟨a, b, rfl, rfl, hab⟩ ⟨b', a', hb, ha, hba⟩
  have hle {c c' : α} (hc : key c = key c') : le c c' = true := by
    have htied := (hkey c c').2 hc
    rw [tied, Bool.and_eq_true] at htied
    exact htied.1
  refine (hkey a b).1 ?_
  rw [tied, Bool.and_eq_true]
  exact ⟨hab, trans _ _ _ (hle hb.symm) (trans _ _ _ hba (hle ha))⟩

/-- And they are the same list if no two elements are tied. -/
theorem sortBy_of_perm (trans : ∀ a b c, le a b → le b c → le a c)
    (total : ∀ a b, le a b || le b a)
    (hkey : ∀ a b, tied le a b = true → key a = key b) (h : as.Perm bs)
    (hnodup : (as.map key).Nodup) : sortBy le as = sortBy le bs := by
  refine (sortBy_perm_sortBy h).eq_of_pairwise ?_ (pairwise_sortBy trans total as)
    (pairwise_sortBy trans total bs)
  intro a b ha hb hab hba
  have htied : tied le a b = true := by rw [tied, hab, hba]; rfl
  have ha' : a ∈ as := (sortBy_perm le as).mem_iff.1 ha
  have hb' : b ∈ as := h.mem_iff.2 ((sortBy_perm le bs).mem_iff.1 hb)
  exact List.inj_on_of_nodup_map hnodup ha' hb' (hkey a b htied)

end Sorting

/-! ## Groups by keys -/

/-- What a block shows of an entry's place: its key and its group. -/
def Entry.place (e : Entry) : String × Nat :=
  (e.sortKey, e.group)

theorem Entry.groupDirectory_of_sortKey {a b : Entry}
    (h : a.sortKey = b.sortKey) : a.groupDirectory = b.groupDirectory := by
  rw [groupDirectory, groupDirectory, h]

theorem places_assignGroupsAfter {as bs : List Entry}
    (h : as.map Entry.sortKey = bs.map Entry.sortKey) (directory : Path)
    (group : Nat) :
    (assignGroupsAfter directory group as).map Entry.place
      = (assignGroupsAfter directory group bs).map Entry.place := by
  induction as generalizing bs directory group with
  | nil => rw [List.map_eq_nil_iff.1 h.symm]
  | cons a as ih =>
      cases bs with
      | nil => cases h
      | cons b bs =>
          obtain ⟨hkey, hrest⟩ := List.cons.inj h
          have hdir := Entry.groupDirectory_of_sortKey hkey
          rw [assignGroupsAfter, assignGroupsAfter, List.map_cons,
            List.map_cons, ih hrest, hdir]
          exact congrArg (· :: _) (congrArg (·, _) hkey)

/-- **Groups are given by the keys alone.** -/
theorem places_assignGroups {as bs : List Entry}
    (h : as.map Entry.sortKey = bs.map Entry.sortKey) :
    (assignGroups as).map Entry.place = (assignGroups bs).map Entry.place := by
  cases as with
  | nil => rw [List.map_eq_nil_iff.1 h.symm]
  | cons a as =>
      cases bs with
      | nil => cases h
      | cons b bs =>
          obtain ⟨hkey, hrest⟩ := List.cons.inj h
          have hdir := Entry.groupDirectory_of_sortKey hkey
          rw [assignGroups, assignGroups, List.map_cons, List.map_cons,
            places_assignGroupsAfter hrest, hdir]
          exact congrArg (· :: _) (congrArg (·, _) hkey)

namespace OrderingPolicy

variable {p : OrderingPolicy} {es es' : List Entry}

theorem tied_keyLe_iff {a b : Entry} :
    Sorting.tied keyLe a b = true ↔ a.sortKey = b.sortKey := by
  simp only [Sorting.tied, keyLe, Bool.and_eq_true, Bool.not_eq_true',
    decide_eq_false_iff_not, String.not_lt]
  constructor
  · exact fun h => String.le_antisymm h.1 h.2
  · exact fun h => ⟨h ▸ String.le_refl _, h ▸ String.le_refl _⟩

/-- The bucket and the key of an entry: all that the sorting looks at. -/
theorem tied_specificLe_iff_eq (a b : Entry) :
    Sorting.tied p.specificLe a b = true
      ↔ (p.bucket a, a.sortKey) = (p.bucket b, b.sortKey) := by
  rw [tied_specificLe_iff, Prod.mk.injEq, eq_comm (a := p.bucket a),
    eq_comm (a := a.sortKey)]

/-- The keys of a block from the specific to the general are those of its
entries, in one order. -/
theorem sortKeys_sortBy_specificLe (h : es.Perm es') :
    (Sorting.sortBy p.specificLe es).map Entry.sortKey
      = (Sorting.sortBy p.specificLe es').map Entry.sortKey := by
  have hplaces := Sorting.map_sortBy_of_perm specificLe_trans specificLe_total
    (tied_specificLe_iff_eq (p := p)) h
  have hkeys := congrArg (List.map Prod.snd) hplaces
  rw [List.map_map, List.map_map] at hkeys
  exact hkeys

theorem places_apply_of_perm (hp : p.order ≠ .keepCurrent) (h : es.Perm es') :
    (p.apply es).map Entry.place = (p.apply es').map Entry.place := by
  have hspecific := sortKeys_sortBy_specificLe (p := p) h
  cases horder : p.order with
  | specificFirst =>
      rw [apply, apply, horder]
      exact places_assignGroups hspecific
  | generalFirst =>
      rw [apply_of_generalFirst horder, apply_of_generalFirst horder]
      refine places_assignGroups ?_
      rw [List.map_reverse, List.map_reverse, hspecific]
  | keepCurrent => exact absurd horder hp
  | alphabetical =>
      have hkeys := Sorting.map_sortBy_of_perm keyLe_trans keyLe_total
        (fun _ _ => tied_keyLe_iff) h
      have hplaces := congrArg (List.map fun key => (key, 0)) hkeys
      rw [List.map_map, List.map_map] at hplaces
      rw [apply, apply, horder]
      dsimp only
      rw [List.map_map, List.map_map]
      exact hplaces

theorem apply_eq_of_perm (hp : p.order ≠ .keepCurrent) (h : es.Perm es')
    (hnodup : (es.map Entry.sortKey).Nodup) : p.apply es = p.apply es' := by
  have hspecific : Sorting.sortBy p.specificLe es
      = Sorting.sortBy p.specificLe es' :=
    Sorting.sortBy_of_perm specificLe_trans specificLe_total
      (fun _ _ htied => (tied_specificLe_iff.1 htied).2.symm) h hnodup
  have hkeys : Sorting.sortBy keyLe es = Sorting.sortBy keyLe es' :=
    Sorting.sortBy_of_perm keyLe_trans keyLe_total
      (fun _ _ => tied_keyLe_iff.1) h hnodup
  cases horder : p.order with
  | specificFirst => simp only [apply, horder, hspecific]
  | generalFirst => simp only [apply, horder, hspecific]
  | keepCurrent => exact absurd horder hp
  | alphabetical => simp only [apply, horder, hkeys]

/-- **The order in which entries arrive does not matter**, but where entries
stay as they are. The same entries give the same keys and groups one after the
other, and the same block if no two of them have one key. -/
theorem apply_of_perm (p : OrderingPolicy) (hp : p.order ≠ .keepCurrent)
    {es es' : List Entry} (h : es.Perm es') :
    (p.apply es).map (fun e => (e.sortKey, e.group))
        = (p.apply es').map (fun e => (e.sortKey, e.group))
      ∧ ((es.map (·.sortKey)).Nodup → p.apply es = p.apply es') :=
  ⟨places_apply_of_perm hp h, apply_eq_of_perm hp h⟩

/-- A file of the project and the same text as a spelling that leads nowhere
have one key and stand in two buckets; a spelling in quotes and in brackets is
tied with itself. -/
def arrivals : List Entry :=
  [.resolved ⟨"/p/a.h"⟩ "a.h" (some 1) true, .unresolved "z.h" (some 2) true,
    .unresolved "/p/a.h" (some 3) false, .unresolved "z.h" (some 4) false]

/-- Turned round, they get the same keys and groups, and those of them with keys
of their own the same block. -/
theorem apply_of_perm_arrivals :
    let p : OrderingPolicy := ⟨.generalFirst, ⟨"/p"⟩, ⟨"/usr/"⟩⟩
    let es := arrivals.take 2
    p.order ≠ .keepCurrent ∧ arrivals.Perm arrivals.reverse
      ∧ (es.map (·.sortKey)).Nodup
      ∧ (p.apply arrivals).map (fun e => (e.sortKey, e.group))
        = (p.apply arrivals.reverse).map (fun e => (e.sortKey, e.group))
      ∧ p.apply es = p.apply es.reverse := by
  intro p es
  have hp : p.order ≠ .keepCurrent := by decide
  exact ⟨hp, (List.reverse_perm arrivals).symm, by decide,
    (apply_of_perm p hp (List.reverse_perm arrivals).symm).1,
    (apply_of_perm p hp (List.reverse_perm es).symm).2 (by decide)⟩

end OrderingPolicy

end IncludeBlock
