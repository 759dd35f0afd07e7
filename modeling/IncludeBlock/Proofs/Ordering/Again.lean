import IncludeBlock.Proofs.Organize.Sequence

/-!
# Putting a block in order again

An order looks at the bucket and the key of an entry, and entries that agree in
both are tied. Sorting leaves them as they came, so a block in order is sorted
to itself. Only from the general to the specific it is turned round afterwards,
which turns the tied ones round as well: there every second pass gives the same
block, and every pass does just if all that is tied reads the same from both
ends (`apply_apply`).
-/

namespace IncludeBlock

/-! ## Groups do not matter -/

theorem assignGroups_map_ungrouped (es : List Entry) :
    assignGroups (es.map Entry.ungrouped) = assignGroups es := by
  have hafter (es : List Entry) (directory : Path) (group : Nat) :
      assignGroupsAfter directory group (es.map Entry.ungrouped)
        = assignGroupsAfter directory group es := by
    induction es generalizing directory group with
    | nil => rfl
    | cons e es ih => exact congrArg (List.cons _) (ih _ _)
  cases es with
  | nil => rfl
  | cons e es => exact congrArg (List.cons _) (hafter es _ _)

/-- **Groups tell nothing apart**: lists of the same entries in the same order
get the same groups, and no others do. -/
theorem assignGroups_eq_iff {as bs : List Entry} :
    assignGroups as = assignGroups bs
      ↔ as.map Entry.ungrouped = bs.map Entry.ungrouped := by
  constructor
  · intro h
    rw [← Organize.assignGroups_ungrouped, h, Organize.assignGroups_ungrouped]
  · intro h
    rw [← assignGroups_map_ungrouped, h, assignGroups_map_ungrouped]

theorem Bucket.rank_injective {i j : Bucket} (h : i.rank = j.rank) : i = j := by
  cases i <;> cases j <;> first | rfl | cases h

namespace OrderingPolicy

variable {p : OrderingPolicy}

theorem sortBy_ungrouped (es : List Entry) :
    Sorting.sortBy p.specificLe (es.map Entry.ungrouped)
      = (Sorting.sortBy p.specificLe es).map Entry.ungrouped :=
  Sorting.sortBy_map (fun _ _ => rfl) es

theorem keyLe_trans (a b c : Entry) (hab : keyLe a b = true)
    (hbc : keyLe b c = true) : keyLe a c = true := by
  simp only [keyLe, Bool.not_eq_true', decide_eq_false_iff_not,
    String.not_lt] at *
  exact String.le_trans hab hbc

theorem keyLe_total (a b : Entry) : (keyLe a b || keyLe b a) = true := by
  simp only [keyLe, Bool.or_eq_true, Bool.not_eq_true',
    decide_eq_false_iff_not, String.not_lt]
  exact String.le_total a.sortKey b.sortKey

/-! ## The orders that keep ties -/

theorem apply_apply_of_specificFirst (hp : p.order = .specificFirst)
    (es : List Entry) : p.apply (p.apply es) = p.apply es := by
  have hsorted := Sorting.pairwise_sortBy (specificLe_trans (p := p))
    specificLe_total es
  have happly (es : List Entry) :
      p.apply es = assignGroups (Sorting.sortBy p.specificLe es) := by
    rw [apply, hp]
  rw [happly, happly, Sorting.sortBy_of_pairwise, Organize.assignGroups_again]
  exact (Organize.pairwise_assignGroups fun _ _ => Iff.rfl).2 hsorted

theorem apply_apply_of_alphabetical (hp : p.order = .alphabetical)
    (es : List Entry) : p.apply (p.apply es) = p.apply es := by
  have hsorted := Sorting.pairwise_sortBy keyLe_trans keyLe_total es
  have happly (es : List Entry) : p.apply es
      = (Sorting.sortBy keyLe es).map ({ · with group := 0 }) := by
    rw [apply, hp]
  rw [happly, happly, Sorting.sortBy_of_pairwise, List.map_map]
  · rfl
  · exact List.pairwise_map.2 hsorted

/-! ## From the general to the specific -/

theorem apply_of_generalFirst (hp : p.order = .generalFirst)
    (es : List Entry) : p.apply es
      = assignGroups (Sorting.sortBy p.specificLe es).reverse := by
  rw [apply, hp]

/-- A pass over what a pass gave is one over its input turned round. -/
theorem apply_apply_of_generalFirst (hp : p.order = .generalFirst)
    (es : List Entry) : p.apply (p.apply es) = p.apply es.reverse := by
  rw [apply_of_generalFirst hp, apply_of_generalFirst hp,
    apply_of_generalFirst hp, assignGroups_eq_iff, List.map_reverse,
    List.map_reverse]
  refine congrArg List.reverse ?_
  calc (Sorting.sortBy p.specificLe
          (assignGroups (Sorting.sortBy p.specificLe es).reverse)).map
          Entry.ungrouped
      = (Sorting.sortBy p.specificLe
          (Sorting.sortBy p.specificLe es).reverse).map Entry.ungrouped := by
        rw [← sortBy_ungrouped, Organize.assignGroups_ungrouped,
          sortBy_ungrouped]
    _ = (Sorting.sortBy p.specificLe es.reverse).map Entry.ungrouped := by
        rw [Sorting.sortBy_reverse_sortBy specificLe_trans specificLe_total]

/-- The entries of a bucket with a key, in their order and without groups. -/
def tiesOf (p : OrderingPolicy) (es : List Entry) (bucket : Bucket)
    (key : String) : List Entry :=
  (es.filter fun e => p.bucket e = bucket ∧ e.sortKey = key).map
    Entry.ungrouped

theorem tied_specificLe_iff {a b : Entry} :
    Sorting.tied p.specificLe a b = true
      ↔ p.bucket b = p.bucket a ∧ b.sortKey = a.sortKey := by
  rw [Sorting.tied, Bool.and_eq_true, specificLe_iff, specificLe_iff,
    String.not_lt, String.not_lt]
  constructor
  · rintro ⟨hab | ⟨hab, hkey⟩, hba | ⟨hba, hkey'⟩⟩
    · omega
    · omega
    · omega
    · exact ⟨Bucket.rank_injective hba, String.le_antisymm hkey hkey'⟩
  · rintro ⟨hbucket, hkey⟩
    rw [hbucket, hkey]
    exact ⟨.inr ⟨rfl, String.le_refl _⟩, .inr ⟨rfl, String.le_refl _⟩⟩

/-- The entries that one is tied with are those of its bucket with its key. -/
theorem filter_tied_ungrouped (es : List Entry) (e : Entry) :
    (es.map Entry.ungrouped).filter (Sorting.tied p.specificLe e)
      = p.tiesOf es (p.bucket e) e.sortKey := by
  rw [tiesOf, List.filter_map]
  refine congrArg _ (List.filter_congr fun a _ => ?_)
  rw [Bool.eq_iff_iff, decide_eq_true_iff]
  exact tied_specificLe_iff (b := a.ungrouped)

theorem tiesOf_reverse (es : List Entry) (bucket : Bucket) (key : String) :
    p.tiesOf es.reverse bucket key = (p.tiesOf es bucket key).reverse := by
  rw [tiesOf, tiesOf, List.filter_reverse, List.map_reverse]

/-- **A list and its reverse are sorted alike just if their ties are alike.** -/
theorem sortBy_reverse_ungrouped_iff (es : List Entry) :
    (Sorting.sortBy p.specificLe es.reverse).map Entry.ungrouped
        = (Sorting.sortBy p.specificLe es).map Entry.ungrouped
      ↔ ∀ bucket key,
        (p.tiesOf es bucket key).reverse = p.tiesOf es bucket key := by
  rw [← sortBy_ungrouped, ← sortBy_ungrouped]
  have hfilter (as : List Entry) (e : Entry) :
      (Sorting.sortBy p.specificLe (as.map Entry.ungrouped)).filter
          (Sorting.tied p.specificLe e)
        = p.tiesOf as (p.bucket e) e.sortKey := by
    rw [Sorting.filter_tied_sortBy specificLe_trans, filter_tied_ungrouped]
  have hsorted (as : List Entry) := Sorting.pairwise_sortBy
    (specificLe_trans (p := p)) specificLe_total (as.map Entry.ungrouped)
  constructor
  · intro heq bucket key
    cases hties : p.tiesOf es bucket key with
    | nil => rfl
    | cons a as =>
        -- any of the tied entries stands for all of them
        have ha : a ∈ p.tiesOf es bucket key := hties ▸ List.mem_cons_self
        obtain ⟨e, he, rfl⟩ := List.mem_map.1 ha
        have hplace := (List.mem_filter.1 he).2
        rw [decide_eq_true_iff] at hplace
        obtain ⟨rfl, rfl⟩ := hplace
        have h := hfilter es.reverse e
        rw [heq, hfilter, tiesOf_reverse] at h
        rw [← hties, ← h]
  · intro hties
    refine Sorting.eq_of_filter_tied specificLe_total (hsorted _) (hsorted _)
      fun e => ?_
    rw [hfilter, hfilter, tiesOf_reverse, hties]

/-- **Putting a block in order again.** What was put in order is put in order
like the input itself, or like the input turned round if it goes from the
general to the specific; so a third pass gives what the first one gave. The
second one does just if, from the general to the specific, the entries of each
bucket and key read the same from both ends. -/
theorem apply_apply (p : OrderingPolicy) (es : List Entry) :
    p.apply (p.apply es)
        = p.apply (if p.order = .generalFirst then es.reverse else es)
      ∧ p.apply (p.apply (p.apply es)) = p.apply es
      ∧ (p.apply (p.apply es) = p.apply es
        ↔ p.order = .generalFirst → ∀ bucket key,
          (p.tiesOf es bucket key).reverse = p.tiesOf es bucket key) := by
  by_cases hp : p.order = .generalFirst
  · have hagain := apply_apply_of_generalFirst hp
    refine ⟨by rw [if_pos hp, hagain], ?_, ?_⟩
    · rw [congrArg p.apply (hagain es), hagain, List.reverse_reverse]
    · rw [hagain, apply_of_generalFirst hp, apply_of_generalFirst hp,
        assignGroups_eq_iff, List.map_reverse, List.map_reverse,
        List.reverse_inj, sortBy_reverse_ungrouped_iff]
      exact ⟨fun h _ => h, fun h => h hp⟩
  · have hagain : p.apply (p.apply es) = p.apply es := by
      cases horder : p.order with
      | specificFirst => exact apply_apply_of_specificFirst horder es
      | generalFirst => exact absurd horder hp
      | keepCurrent => simp only [apply, horder]
      | alphabetical => exact apply_apply_of_alphabetical horder es
    refine ⟨by rw [if_neg hp, hagain], by rw [hagain, hagain], ?_⟩
    exact ⟨fun _ h => absurd h hp, fun _ => hagain⟩

/-- From the general to the specific, a spelling in quotes and the same one in
brackets change places with every pass. -/
theorem not_apply_apply_quoted :
    let p : OrderingPolicy := ⟨.generalFirst, ⟨""⟩, ⟨"/usr/"⟩⟩
    let es := [Entry.unresolved "a.h" (some 1) false,
      Entry.unresolved "a.h" (some 2) true]
    p.apply (p.apply es) ≠ p.apply es
      ∧ Entry.renderBlock (p.apply (p.apply es))
        ≠ Entry.renderBlock (p.apply es) := by
  decide +kernel

end OrderingPolicy

end IncludeBlock
