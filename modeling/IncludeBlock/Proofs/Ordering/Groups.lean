import IncludeBlock.Proofs.Disk.Components
import IncludeBlock.Proofs.Ordering.Again
import Mathlib.Data.List.Chain

/-!
# Order and groups of a block

Put in order, a block has its buckets one after the other and the keys within
each in order, in one direction or in the other. Its groups are counted from 0
on, and a new one begins just where two neighbours stand apart: where only one
of them is bare, or neither of the directories they lie in has the components of
the other in front (`apply_ordered`). The renderer goes by groups alone, so its
blank lines stand there and nowhere else.
-/

namespace IncludeBlock

namespace Entry

variable {a b e : Entry} {es : List Entry}

/-! ## The directories of entries -/

/-- The components of the directory that the key of an entry lies in. A bare
name lies in none, and the root lies in itself. -/
def home (e : Entry) : List Component :=
  let cs := (Path.mk e.sortKey).components
  if cs = [.root] then cs else cs.dropLast

/-- Entries stand together if both are bare, or neither is and the directory of
one lies within that of the other. -/
def Together (a b : Entry) : Prop :=
  (a.home = [] ↔ b.home = []) ∧ (a.home <+: b.home ∨ b.home <+: a.home)

instance (a b : Entry) : Decidable (a.Together b) :=
  inferInstanceAs (Decidable (_ ∧ _))

theorem Together.symm (h : a.Together b) : b.Together a :=
  ⟨h.1.symm, h.2.symm⟩

theorem components_groupDirectory (e : Entry) :
    e.groupDirectory.components = e.home := by
  rw [groupDirectory, home]
  rcases (Path.mk e.sortKey).parent?_cases with
    ⟨hnone, hcs⟩ | ⟨dir, c, hsome, hcs, hroot⟩
  · rw [hnone, Option.getD_none]
    rcases hcs with hcs | hcs
    · simp [hcs]
    · simp [hcs]
  · rw [hsome, Option.getD_some, if_neg hroot, hcs, List.dropLast_concat]

/-- Groups go by the components of directories. -/
theorem related_iff :
    related a.groupDirectory b.groupDirectory = true ↔ a.Together b := by
  have hempty (e : Entry) : e.groupDirectory.isEmpty = true ↔ e.home = [] := by
    rw [← Path.components_eq_nil_iff, components_groupDirectory]
  rw [related, Together, ← hempty, ← hempty]
  split
  · rename_i hbare
    rw [Bool.or_eq_true] at hbare
    rw [Bool.and_eq_true]
    constructor
    · rintro ⟨ha, hb⟩
      refine ⟨iff_of_true ha hb, .inl ?_⟩
      rw [(hempty a).1 ha]
      exact List.nil_prefix
    · rintro ⟨hiff, -⟩
      exact hbare.elim (fun ha => ⟨ha, hiff.1 ha⟩) fun hb => ⟨hiff.2 hb, hb⟩
  · rename_i hbare
    rw [Bool.or_eq_true, not_or] at hbare
    rw [Bool.or_eq_true, Path.startsWith_iff, Path.startsWith_iff,
      components_groupDirectory, components_groupDirectory, or_comm]
    exact (and_iff_right (iff_of_false hbare.1 hbare.2)).symm

/-! ## Groups -/

/-- The group of an entry that comes right behind another one. -/
structure Follows (a b : Entry) : Prop where
  together : a.Together b → b.group = a.group
  apart : ¬ a.Together b → b.group = a.group + 1

theorem Follows.group_le (h : a.Follows b) : a.group ≤ b.group := by
  by_cases htogether : a.Together b
  · exact (h.together htogether).ge
  · rw [h.apart htogether]
    exact Nat.le_succ _

theorem Follows.group_ne_iff (h : a.Follows b) :
    a.group ≠ b.group ↔ ¬ a.Together b := by
  constructor
  · exact fun hne htogether => hne (h.together htogether).symm
  · intro hapart
    rw [h.apart hapart]
    exact Nat.ne_of_lt (Nat.lt_succ_self _)

theorem isChain_assignGroupsAfter (e : Entry) (es : List Entry) :
    (e :: assignGroupsAfter e.groupDirectory e.group es).IsChain Follows := by
  induction es generalizing e with
  | nil => exact List.isChain_singleton e
  | cons b es ih =>
      rw [assignGroupsAfter, List.isChain_cons_cons]
      refine ⟨⟨fun htogether => ?_, fun hapart => ?_⟩, ih _⟩
      · exact if_pos (related_iff.2 htogether.symm)
      · refine if_neg fun hrelated => hapart ?_
        exact Together.symm (related_iff (a := b).1 hrelated)

/-- **Groups are given from 0 on**, each entry its own by the one before. -/
theorem assignGroups_spec (es : List Entry) :
    (∀ e ∈ (assignGroups es).head?, e.group = 0)
      ∧ (assignGroups es).IsChain Follows := by
  cases es with
  | nil => exact ⟨by simp [assignGroups], List.isChain_nil⟩
  | cons e es =>
      refine ⟨?_, isChain_assignGroupsAfter { e with group := 0 } es⟩
      simp [assignGroups]

/-! ## Rendering -/

/-- The text of an entry behind another one, if there is one: its directive,
set apart by a blank line from what it does not stand together with. -/
def text (before : Option Entry) (e : Entry) : String :=
  (if ∃ b ∈ before, ¬ b.Together e then "\n" else "") ++ e.directive ++ "\n"

theorem renderAfter_of_isChain (before : Option Entry)
    (h : (before.toList ++ es).IsChain Follows) :
    renderAfter (before.map (·.group)) es
      = String.join (List.zipWith text (before :: es.map some) es) := by
  induction es generalizing before with
  | nil => rfl
  | cons e es ih =>
      have hes : ((some e).toList ++ es).IsChain Follows := by
        cases before with
        | none => exact h
        | some b => exact (List.isChain_cons_cons.1 h).2
      have hblank : (before.map (·.group)).any (· != e.group) = true
          ↔ ∃ b ∈ before, ¬ b.Together e := by
        cases before with
        | none => simp
        | some b =>
            have hfollows : b.Follows e := (List.isChain_cons_cons.1 h).1
            simpa using hfollows.group_ne_iff
      rw [renderAfter, List.map_cons, List.zipWith_cons_cons, String.join_cons,
        ← ih _ hes, text]
      simp only [hblank, Option.map_some]

end Entry

namespace OrderingPolicy

variable {p : OrderingPolicy}

/-- An entry stands before another one from the specific to the general: the
project's files come before other ones and these before the system's, and
within each of them the keys descend. -/
def Precedes (p : OrderingPolicy) (a b : Entry) : Prop :=
  (p.bucket a).rank < (p.bucket b).rank
    ∨ p.bucket a = p.bucket b ∧ b.sortKey ≤ a.sortKey

theorem precedes_of_specificLe {a b : Entry} (h : p.specificLe a b = true) :
    p.Precedes a b := by
  rcases specificLe_iff.1 h with hlt | ⟨hrank, hkey⟩
  · exact .inl hlt
  · exact .inr ⟨Bucket.rank_injective hrank, String.not_lt.1 hkey⟩

theorem pairwise_precedes (es : List Entry) :
    (Sorting.sortBy p.specificLe es).Pairwise p.Precedes :=
  (Sorting.pairwise_sortBy specificLe_trans specificLe_total es).imp
    precedes_of_specificLe

theorem exists_apply_eq_assignGroups
    (hp : p.order = .specificFirst ∨ p.order = .generalFirst)
    (es : List Entry) : ∃ sorted, p.apply es = assignGroups sorted
      ∧ (p.order = .specificFirst → sorted.Pairwise p.Precedes)
      ∧ (p.order = .generalFirst →
        sorted.Pairwise fun a b => p.Precedes b a) := by
  rcases hp with hp | hp
  · refine ⟨Sorting.sortBy p.specificLe es, by rw [apply, hp], ?_, ?_⟩
    · exact fun _ => pairwise_precedes es
    · exact fun h => absurd (hp.symm.trans h) (by decide)
  · refine ⟨(Sorting.sortBy p.specificLe es).reverse, by rw [apply, hp], ?_, ?_⟩
    · exact fun h => absurd (hp.symm.trans h) (by decide)
    · exact fun _ => List.pairwise_reverse.2 (pairwise_precedes es)

/-- **A block in order.** From the specific to the general, or the other way
round, the entries stay the same up to their groups. They go by buckets, and
within a bucket by descending keys, or the other way round. The groups begin at
0, never go down, and go up by one just where neighbours do not stand together;
and there, and only there, the rendered block has a blank line. -/
theorem apply_ordered (p : OrderingPolicy)
    (hp : p.order = .specificFirst ∨ p.order = .generalFirst)
    (es : List Entry) :
    Organize.SameEntries (p.apply es) es
      ∧ (p.order = .specificFirst → (p.apply es).Pairwise p.Precedes)
      ∧ (p.order = .generalFirst →
        (p.apply es).Pairwise fun a b => p.Precedes b a)
      ∧ (∀ e ∈ (p.apply es).head?, e.group = 0)
      ∧ (p.apply es).Pairwise (fun a b => a.group ≤ b.group)
      ∧ (p.apply es).IsChain Entry.Follows
      ∧ Entry.renderBlock (p.apply es) = String.join (List.zipWith Entry.text
          (none :: (p.apply es).map some) (p.apply es)) := by
  have hsame := Organize.apply_sameEntries p es
  obtain ⟨sorted, happly, hspecific, hgeneral⟩ :=
    exists_apply_eq_assignGroups hp es
  obtain ⟨hfirst, hfollows⟩ := Entry.assignGroups_spec sorted
  rw [happly] at hsame ⊢
  refine ⟨hsame, fun h => ?_, fun h => ?_, hfirst, ?_, hfollows, ?_⟩
  · exact (Organize.pairwise_assignGroups fun _ _ => Iff.rfl).2 (hspecific h)
  · exact (Organize.pairwise_assignGroups fun _ _ => Iff.rfl).2 (hgeneral h)
  · have htrans : IsTrans Entry fun a b => a.group ≤ b.group :=
      ⟨fun _ _ _ => Nat.le_trans⟩
    exact (hfollows.imp fun _ _ => Entry.Follows.group_le).pairwise
  · exact Entry.renderAfter_of_isChain none hfollows

theorem apply_ordered_bare :
    let p : OrderingPolicy := ⟨.generalFirst, ⟨"/p"⟩, ⟨"/usr"⟩⟩
    let es := [Entry.unresolved "zlib.h" none false,
      Entry.resolved ⟨"/p/src/a.h"⟩ "a.h" none true,
      Entry.resolved ⟨"/usr/include/map"⟩ "map" none false,
      Entry.resolved ⟨"/p/src/detail/b.h"⟩ "detail/b.h" none true]
    ((p.apply es).map fun e => (e.sortKey, e.group))
        = [("/usr/include/map", 0), ("zlib.h", 1), ("/p/src/a.h", 2),
          ("/p/src/detail/b.h", 2)]
      ∧ ((p.apply es).Pairwise fun a b => p.Precedes b a)
      ∧ (p.apply es).IsChain Entry.Follows := by
  intro p es
  obtain ⟨_, _, hgeneral, _, _, hfollows, _⟩ := apply_ordered p (.inr rfl) es
  exact ⟨by decide +kernel, hgeneral rfl, hfollows⟩

end OrderingPolicy

end IncludeBlock
