import IncludeBlock.Proofs.Organize.Arrangement

/-!
# Blocks in order

From the specific to the general, entries go by their buckets and keys, and
neither depends on groups; nor does what the groups are given by. So a block in
order is one that sorting gives back, even when its entries without a file are
first taken out and put behind the others (`arrange_again`).
-/

namespace IncludeBlock

namespace OrderingPolicy

variable {p : OrderingPolicy} {a b c : Entry}

theorem specificLe_iff : p.specificLe a b = true
    ↔ (p.bucket a).rank < (p.bucket b).rank
      ∨ ((p.bucket a).rank = (p.bucket b).rank ∧ ¬ a.sortKey < b.sortKey) := by
  simp [specificLe]

theorem specificLe_trans (a b c : Entry) (hab : p.specificLe a b = true)
    (hbc : p.specificLe b c = true) : p.specificLe a c = true := by
  rw [specificLe_iff] at *
  rcases hab with hab | ⟨hab, hkey⟩
  · exact .inl (by omega)
  · rcases hbc with hbc | ⟨hbc, hkey'⟩
    · exact .inl (by omega)
    · refine .inr ⟨hab.trans hbc, ?_⟩
      rw [String.not_lt] at *
      exact String.le_trans hkey' hkey

theorem specificLe_total (a b : Entry) :
    (p.specificLe a b || p.specificLe b a) = true := by
  rw [Bool.or_eq_true, specificLe_iff, specificLe_iff]
  rcases Nat.lt_trichotomy (p.bucket a).rank (p.bucket b).rank with h | h | h
  · exact .inl (.inl h)
  · by_cases hkey : a.sortKey < b.sortKey
    · exact .inr (.inr ⟨h.symm, String.lt_asymm hkey⟩)
    · exact .inl (.inr ⟨h, hkey⟩)
  · exact .inr (.inl h)

end OrderingPolicy

namespace Organize

/-! ## Groups -/

theorem assignGroups_ungrouped (es : List Entry) :
    (assignGroups es).map Entry.ungrouped = es.map Entry.ungrouped := by
  cases es with
  | nil => rfl
  | cons e es =>
      rw [assignGroups, List.map_cons, List.map_cons,
        assignGroupsAfter_ungrouped]
      rfl

theorem assignGroupsAfter_again (directory : Path) (group : Nat)
    (es : List Entry) :
    assignGroupsAfter directory group (assignGroupsAfter directory group es)
      = assignGroupsAfter directory group es := by
  induction es generalizing directory group with
  | nil => rfl
  | cons e es ih =>
      exact congrArg (List.cons _) (ih _ _)

/-- **Groups are given by what the entries are**, and not by older groups. -/
theorem assignGroups_again (es : List Entry) :
    assignGroups (assignGroups es) = assignGroups es := by
  cases es with
  | nil => rfl
  | cons e es =>
      exact congrArg (List.cons _) (assignGroupsAfter_again _ _ _)

/-- A relation that takes no notice of groups holds throughout a list before
and after they are given. -/
theorem pairwise_assignGroups {R : Entry → Entry → Prop}
    (hR : ∀ a b, R a.ungrouped b.ungrouped ↔ R a b) {es : List Entry} :
    (assignGroups es).Pairwise R ↔ es.Pairwise R := by
  have hungrouped (es : List Entry) :
      (es.map Entry.ungrouped).Pairwise R ↔ es.Pairwise R := by
    rw [List.pairwise_map]
    exact List.Pairwise.iff (fun {a b} => hR a b)
  rw [← hungrouped, assignGroups_ungrouped, hungrouped]

/-! ## Arranging again -/

/-- **A block from the specific to the general is in order for good**: with its
entries without a file put behind the others it is arranged as before. -/
theorem arrange_again {p : OrderingPolicy} (hp : p.order = .specificFirst)
    {es us : List Entry} (hes : ∀ e ∈ es, e.isResolved = true)
    (hus : ∀ e ∈ us, e.isResolved = false) :
    arrange p ((arrange p es us).filter (·.isResolved))
        ((arrange p es us).filter (!·.isResolved))
      = arrange p es us := by
  have harrange (as bs : List Entry) : arrange p as bs
      = assignGroups (Sorting.sortBy p.specificLe (as ++ bs)) := by
    simp [arrange, OrderingPolicy.apply, hp]
  have hfirst : (es ++ us).Pairwise fun a b =>
      b.isResolved = true → a.isResolved = true := by
    refine List.pairwise_append.2 ⟨?_, ?_, ?_⟩
    · exact List.pairwise_of_forall_mem_list fun a ha _ _ _ => hes a ha
    · refine List.pairwise_of_forall_mem_list fun _ _ b hb h => ?_
      rw [hus b hb] at h
      cases h
    · exact fun a ha _ _ _ => hes a ha
  have hle : (arrange p es us).Pairwise fun a b => p.specificLe a b = true := by
    rw [harrange, pairwise_assignGroups fun _ _ => Iff.rfl]
    exact Sorting.pairwise_sortBy OrderingPolicy.specificLe_trans
      OrderingPolicy.specificLe_total _
  have htied : (arrange p es us).Pairwise fun a b =>
      p.specificLe b a = true → b.isResolved = true → a.isResolved = true := by
    rw [harrange, pairwise_assignGroups fun _ _ => Iff.rfl]
    exact Sorting.tied_sortBy hfirst
  rw [harrange (List.filter _ _), Sorting.sortBy_parted hle htied, harrange]
  exact assignGroups_again _

end Organize

end IncludeBlock
