import IncludeBlock.Proofs.Expansion.Answers
import IncludeBlock.Proofs.Expansion.History
import IncludeBlock.Weight
import Mathlib.Data.Set.Card

/-!
# What an index remembers

An index remembers the files that it was asked for with all that they pull in,
and nothing else (`contains_after_iff`). A size is read once, when its file is
expanded first (`own_after`); whatever becomes of the disk later, the
remembered weights stay the sums of the remembered sizes.
-/

namespace IncludeBlock

theorem FileMap.size_eq_ncard {β : Type} (m : FileMap β) :
    m.size = {f | m.contains f = true}.ncard := by
  have hkeys : {f | m.contains f = true} = ↑m.keys.toFinset := by
    ext f
    simp [contains_iff]
  rw [hkeys, Set.ncard_coe_finset, List.toFinset_card_of_nodup m.nodup_keys,
    keys, List.length_map]
  rfl

namespace Index

/-! ## The invariant -/

/-- The size that is remembered of a file. -/
def keptOwn (x : Index) (f : Path) : Nat :=
  ((x.memo.get? f).map (·.own)).getD 0

/-- Remembered weights are sums of remembered sizes. -/
def Weighed (x : Index) : Prop :=
  ∀ f e, x.memo.get? f = some e →
    e.weight = total e.own (e.closure.toList.map x.keptOwn)

variable {s : Source} {x : Index} {d : Disk} {f g : Path} {e : Expansion}

theorem weighed_new (s : Source) : Weighed (new s) := nofun

theorem contains_iff_get? :
    x.memo.contains f = true ↔ ∃ e, x.memo.get? f = some e :=
  Option.isSome_iff_exists

theorem contains_expand_iff : (x.expand d f).2.memo.contains g = true
    ↔ x.memo.contains g = true ∨ x.source.Provides f g := by
  rw [Source.provides_iff, FileMap.contains, get?_memo_expand,
    Option.isSome_or, Bool.or_eq_true, FileMap.contains]
  refine or_congr_right ?_
  split <;> simp_all

/-- The size of a file that is remembered is kept. -/
theorem keptOwn_expand_of_contains (hg : x.memo.contains g = true) :
    (x.expand d f).2.keptOwn g = x.keptOwn g := by
  obtain ⟨e, he⟩ := contains_iff_get?.1 hg
  rw [keptOwn, keptOwn, get?_memo_expand, he, Option.some_or]

/-- The sizes of all that is expanded are those that its weight is made of. -/
theorem keptOwn_expand_of_provides (hg : x.source.Provides f g) :
    (x.expand d f).2.keptOwn g = x.ownWeight d g := by
  rw [keptOwn, get?_memo_expand, if_pos (Source.provides_iff.1 hg)]
  cases hx : x.memo.get? g with
  | some e => simp [ownWeight, Region.ownAlone, hx]
  | none =>
      rw [Option.none_or, Option.map_some, Option.getD_some, own_expansion]

/-- **Expanding a file keeps the invariant.** -/
theorem Weighed.expand (h : Weighed x) (d : Disk) (f : Path) :
    Weighed (x.expand d f).2 := by
  intro g e he
  rw [get?_memo_expand, Option.or_eq_some_iff] at he
  rcases he with he | ⟨hnew, he⟩
  · rw [h g e he]
    refine congrArg (total e.own) (List.map_congr_left fun k hk => ?_)
    exact (keptOwn_expand_of_contains (x.remembered.closed g e he k hk)).symm
  · split at he
    · rename_i hg
      cases he
      -- the weight was summed up from sizes that are all remembered now
      have hweight : (x.expansion d g).weight
          = total (x.expansion d g).own
              ((x.expansion d g).closure.toList.map (x.ownWeight d)) := by
        simp only [expansion, Region.alone, hnew]
        rfl
      rw [hweight]
      refine congrArg (total _) (List.map_congr_left fun k hk => ?_)
      rw [← FileSet.mem_def, closure_expansion] at hk
      exact (keptOwn_expand_of_provides ((Source.provides_iff.2 hg).append
        (Source.provides_iff.2 (.inr hk)))).symm
    · cases he

/-- What is remembered is what is answered, on whatever disk. -/
theorem expand_fst_of_get? (hf : x.memo.get? f = some e) (d : Disk) :
    (x.expand d f).1 = e := by
  rw [expand_fst, expansion, Region.alone, hf]

theorem get?_memo_expand_of_some (hf : x.memo.get? f = some e) (d : Disk)
    (g : Path) : (x.expand d g).2.memo.get? f = some e := by
  rw [get?_memo_expand, hf, Option.some_or]

/-! ## Runs -/

variable {earlier : List (Disk × Path)}

theorem after_append (earlier later : List (Disk × Path)) :
    after s (earlier ++ later)
      = later.foldl (fun x a => (x.expand a.1 a.2).2) (after s earlier) := by
  rw [after, List.foldl_append]
  rfl

theorem weighed_after (s : Source) (earlier : List (Disk × Path)) :
    Weighed (after s earlier) :=
  List.foldlRecOn (motive := Weighed) earlier _ (weighed_new s)
    fun _ hx a _ => hx.expand a.1 a.2

/-- **The remembered files** are those that an index was asked for and all
that they pull in. -/
theorem contains_after_iff : (after s earlier).memo.contains g = true
    ↔ ∃ a ∈ earlier, s.Provides a.2 g := by
  induction earlier using List.reverseRecOn with
  | nil => simp [after, new, FileMap.contains]
  | append_singleton earlier a ih =>
      rw [after_append, List.foldl_cons, List.foldl_nil, contains_expand_iff,
        ih, source_after]
      simp only [List.mem_append, List.mem_singleton, or_and_right, exists_or,
        exists_eq_left]

/-- What is remembered once is remembered for good. -/
theorem get?_memo_after_append (h : (after s earlier).memo.get? f = some e)
    (later : List (Disk × Path)) :
    (after s (earlier ++ later)).memo.get? f = some e := by
  rw [after_append]
  exact List.foldlRecOn (motive := fun x : Index => x.memo.get? f = some e)
    later _ h fun _ hx a _ => get?_memo_expand_of_some hx a.1 a.2

/-- **A size is read once**: on the disk on which the file was expanded first. -/
theorem own_after (h : (after s earlier).memo.get? f = some e) :
    ∃ before a later, earlier = before ++ a :: later
      ∧ (∀ b ∈ before, ¬ s.Provides b.2 f) ∧ s.Provides a.2 f
      ∧ e.own = sizeOf s a.1 f := by
  induction earlier using List.reverseRecOn with
  | nil => cases h
  | append_singleton earlier a ih =>
      rw [after_append, List.foldl_cons, List.foldl_nil, get?_memo_expand,
        Option.or_eq_some_iff, source_after] at h
      rcases h with hold | ⟨hnew, h⟩
      · obtain ⟨before, b, later, rfl, hfirst⟩ := ih hold
        exact ⟨before, b, later ++ [a], by simp, hfirst⟩
      · split at h
        · rename_i hf
          cases h
          refine ⟨earlier, a, [], rfl, fun b hb hprovides => ?_,
            Source.provides_iff.2 hf, ?_⟩
          · have hcontains := contains_after_iff.2 ⟨b, hb, hprovides⟩
            rw [FileMap.contains, hnew] at hcontains
            cases hcontains
          · rw [own_expansion, ownWeight, Region.ownAlone, hnew, source_after]
        · cases h

/-! ## Questions -/

/-- What an index can be asked about a file; each time the file is expanded. -/
inductive Question where
  | expansion (f : Path)
  | weight (f : Path)
  | report (f : Path)

def Question.file : Question → Path
  | expansion f => f
  | weight f => f
  | report f => f

/-- The index after a question, with the disk as it is at the time. -/
def Question.ask (x : Index) (d : Disk) : Question → Index
  | expansion f => (x.expand d f).2
  | weight f => (x.weight d f).2
  | report f => (x.report d f).2

/-- The index of a source after some questions, each asked on a disk of its
own. -/
def asked (s : Source) (questions : List (Disk × Question)) : Index :=
  questions.foldl (fun x q => q.2.ask x q.1) (new s)

theorem asked_eq_after (questions : List (Disk × Question)) :
    asked s questions = after s (questions.map fun q => (q.1, q.2.file)) := by
  have hask (x : Index) (q : Disk × Question) :
      q.2.ask x q.1 = (x.expand q.1 q.2.file).2 := by
    cases q.2 <;> rfl
  rw [asked, after, List.foldl_map]
  simp only [hask]

/-- **What an index remembers after any questions on any disks.** The expanded
files are those that were asked for and all that they pull in; so with a file
all that it includes is expanded. An expansion that is remembered is the
answer from then on and never changes. It holds what the file reaches; its own
size is the one that the file had when it was expanded first; and its weight
is the sum of the remembered sizes of the file and of everything that it pulls
in, up to the greatest weight. No size is greater than that (`hword`). -/
theorem memo_asked (s : Source) (questions : List (Disk × Question))
    (hword : ∀ q ∈ questions, ∀ f, s.Provides q.2.file f →
      sizeOf s q.1 f ≤ maxWeight) :
    let x := asked s questions
    let expanded : Set Path := {g | ∃ q ∈ questions, s.Provides q.2.file g}
    (∀ g, x.memo.contains g = true ↔ g ∈ expanded)
      ∧ x.expandedCount = expanded.ncard
      ∧ (∀ f, x.memo.contains f = true → ∀ g ∈ s.next f,
          x.memo.contains g = true)
      ∧ ∀ f e, x.memo.get? f = some e →
          (∀ d, (x.expand d f).1 = e)
          ∧ (∀ later, (asked s (questions ++ later)).memo.get? f = some e)
          ∧ (∀ g, g ∈ e.closure ↔ s.Reaches f g ∧ g ≠ f)
          ∧ (∀ g ∈ e.closure, x.memo.contains g = true)
          ∧ (∃ before q later, questions = before ++ q :: later
              ∧ (∀ b ∈ before, ¬ s.Provides b.2.file f)
              ∧ s.Provides q.2.file f ∧ e.own = sizeOf s q.1 f)
          ∧ e.weight = min maxWeight
              (x.keptOwn f + (e.closure.toList.map x.keptOwn).sum) := by
  intro x expanded
  let earlier := questions.map fun q => (q.1, q.2.file)
  have hx : x = after s earlier := asked_eq_after questions
  have hsource : x.source = s := hx ▸ source_after s earlier
  have hcontains (g : Path) : x.memo.contains g = true ↔ g ∈ expanded := by
    rw [hx, contains_after_iff]
    simp [earlier, expanded]
  refine ⟨hcontains, ?_, ?_, fun f e he => ?_⟩
  · rw [expandedCount, FileMap.size_eq_ncard]
    exact congrArg Set.ncard (Set.ext hcontains)
  · intro f hf g hg
    rw [← hsource] at hg
    exact x.remembered.contains_of_provides hf (.inr (.step hg))
  have hown : ∃ before q later, questions = before ++ q :: later
      ∧ (∀ b ∈ before, ¬ s.Provides b.2.file f) ∧ s.Provides q.2.file f
      ∧ e.own = sizeOf s q.1 f := by
    rw [hx] at he
    obtain ⟨before, a, later, hsplit, hfirst, hprovides, hsize⟩ := own_after he
    obtain ⟨before', rest, hquestions, rfl, hrest⟩ :=
      List.map_eq_append_iff.1 hsplit
    obtain ⟨q, later', rfl, rfl, _⟩ := List.map_eq_cons_iff.1 hrest
    refine ⟨before', q, later', hquestions, fun b hb => ?_, hprovides, hsize⟩
    exact hfirst (b.1, b.2.file) (List.mem_map.2 ⟨b, hb, rfl⟩)
  have hclosure (g : Path) : g ∈ e.closure ↔ s.Reaches f g ∧ g ≠ f := by
    rw [← hsource]
    exact x.remembered.mem_closure f e he g
  refine ⟨expand_fst_of_get? he, fun later => ?_, hclosure,
    x.remembered.closed f e he, hown, ?_⟩
  · rw [hx] at he
    rw [asked_eq_after, List.map_append]
    exact get?_memo_after_append he _
  · obtain ⟨before, q, later, hquestions, _, hprovides, hsize⟩ := hown
    have hle : e.own ≤ maxWeight :=
      hsize ▸ hword q (hquestions ▸ by simp) f hprovides
    have hkept : x.keptOwn f = e.own := by
      rw [keptOwn, he]
      rfl
    have hweighed : Weighed x := hx ▸ weighed_after s earlier
    rw [hweighed f e he, total_eq hle, hkept]

/-- A file that is not in the source grows between the questions; what was
expanded with it keeps its first size. -/
theorem memo_asked_looped :
    let d : Disk :=
      { nodes := [(["c"], .file [0, 0])], workingDirectory := [] }
    let d' : Disk :=
      { nodes := [(["c"], .file [0, 0, 0])], workingDirectory := [] }
    let questions : List (Disk × Question) :=
      [(d, .weight ⟨"/b"⟩), (d', .report ⟨"/a"⟩)]
    let x := asked looped questions
    (∀ q ∈ questions, ∀ f, looped.Provides q.2.file f →
        sizeOf looped q.1 f ≤ maxWeight)
      ∧ sizeOf looped d' ⟨"/c"⟩ = 3 ∧ x.keptOwn ⟨"/c"⟩ = 2
      ∧ ∃ e, x.memo.get? ⟨"/a"⟩ = some e ∧ (∀ d, (x.expand d ⟨"/a"⟩).1 = e)
        ∧ (⟨"/c"⟩ : Path) ∈ e.closure ∧ e.weight = 3 + (4 + 2) := by
  intro d d' questions x
  have hword : ∀ q ∈ questions, ∀ f, looped.Provides q.2.file f →
      sizeOf looped q.1 f ≤ maxWeight := by
    have hall : ∀ q ∈ questions,
        ∀ f ∈ q.2.file :: (looped.closure q.2.file).toList,
          sizeOf looped q.1 f ≤ maxWeight := by decide +kernel
    intro q hq f hf
    exact hall q hq f (List.mem_cons.2 (Source.provides_iff.1 hf))
  obtain ⟨hcontains, _, _, hmemo⟩ := memo_asked looped questions hword
  obtain ⟨e, he⟩ := contains_iff_get?.1
    ((hcontains ⟨"/a"⟩).2 ⟨(d', .report ⟨"/a"⟩), by simp [questions], .inl rfl⟩)
  obtain ⟨hanswer, _, hclosure, _, _, hweight⟩ := hmemo _ e he
  have heq : e.closure = looped.closure ⟨"/a"⟩ :=
    FileSet.ext fun g => (hclosure g).trans Source.mem_closure_iff.symm
  refine ⟨hword, by decide +kernel, by decide +kernel, e, he, hanswer, ?_, ?_⟩
  · rw [heq]
    decide +kernel
  · rw [hweight, heq]
    decide +kernel

end Index

end IncludeBlock
