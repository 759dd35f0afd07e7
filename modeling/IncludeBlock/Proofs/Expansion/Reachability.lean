import IncludeBlock.Source

/-!
# Reachable files

The walk over the includes finds what can be reached and nothing else
(`mem_closure_iff`). How the reachable files of a file change when its own
includes are exchanged is said by `reaches_withIncludes_iff`.

The walk is bounded by the number of includes in all rows. That is enough
because a file puts its includes on the list of things to do only once, when
it is settled (`length_next_add_pending`).
-/

namespace IncludeBlock

namespace Source

variable {s : Source} {e f g : Path}

/-- An include of `e` provides `f`: it is `e` itself or reached from it. -/
def Provides (s : Source) (e f : Path) : Prop :=
  f = e ∨ s.Reaches e f

theorem Provides.of_next {k : Path} (h : g ∈ s.next f)
    (hp : s.Provides g k) : s.Reaches f k := by
  rcases hp with hk | ht
  · exact .step (hk ▸ h)
  · exact .trans h ht

/-- What is provided by a file that another provides is provided by that one,
too. -/
theorem Provides.append {k : Path} (h : s.Provides f g)
    (hp : s.Provides g k) : s.Provides f k := by
  rcases h with rfl | h
  · exact hp
  · rcases hp with rfl | t
    · exact .inr h
    · exact .inr (h.append t)

/-- Every path starts with an include, of something that provides its end. -/
theorem reaches_iff_exists_next :
    s.Reaches f g ↔ ∃ e ∈ s.next f, s.Provides e g := by
  constructor
  · intro h
    cases h with
    | step h => exact ⟨g, h, .inl rfl⟩
    | trans h t => exact ⟨_, h, .inr t⟩
  · intro ⟨e, he, hp⟩
    exact hp.of_next he

/-- Paths do not leave files that include only each other. -/
theorem Reaches.mem_of_closed (h : s.Reaches f g) (fs : List Path)
    (closed : ∀ f ∈ fs, ∀ g ∈ s.next f, g ∈ fs) (hf : f ∈ fs) : g ∈ fs := by
  induction h with
  | step h => exact closed _ hf _ h
  | trans h _ ih => exact ih (closed _ hf _ h)

/-! ## The walk is sound -/

/-- Whatever is gathered was there before or is provided by something that was
still to be done. -/
theorem provides_of_mem_gather {fuel : Nat} {todo : List Path} {seen : FileSet}
    (h : g ∈ s.gather fuel todo seen) :
    g ∈ seen ∨ ∃ f ∈ todo, s.Provides f g := by
  induction fuel generalizing todo seen with
  | zero =>
      rw [gather] at h
      exact .inl h
  | succ fuel ih =>
      cases todo with
      | nil =>
          rw [gather] at h
          · exact .inl h
          · intro hzero
            cases hzero
      | cons f todo =>
          rw [gather] at h
          split at h
          · rcases ih h with hseen | ⟨k, hk, hp⟩
            · exact .inl hseen
            · exact .inr ⟨k, List.mem_cons_of_mem _ hk, hp⟩
          · rcases ih h with hseen | ⟨k, hk, hp⟩
            · rcases FileSet.mem_insert.1 hseen with hf | hseen
              · exact .inr ⟨f, List.mem_cons_self, .inl hf⟩
              · exact .inl hseen
            · -- an include of `f`, or something that was to be done anyway
              rcases List.mem_append.1 hk with hnext | htodo
              · exact .inr ⟨f, List.mem_cons_self, .inr (hp.of_next hnext)⟩
              · exact .inr ⟨k, List.mem_cons_of_mem _ htodo, hp⟩

/-- **All that a file is said to pull in, it reaches.** -/
theorem reaches_of_mem_closure (h : g ∈ s.closure f) : s.Reaches f g := by
  have hgather := (FileSet.mem_erase.1 h).1
  rcases provides_of_mem_gather hgather with hempty | hnext
  · exact absurd hempty (FileSet.not_mem_empty g)
  · exact reaches_iff_exists_next.2 hnext

/-! ## The walk is complete -/

/-- The number of includes in the rows of files that are not settled. -/
def pendingIn (seen : FileSet) : List (Path × SourceRow) → Nat
  | [] => 0
  | a :: rows =>
      (if a.1 ∈ seen then 0 else a.2.includes.length) + pendingIn seen rows

theorem pendingIn_insert {seen : FileSet} (h : f ∉ seen)
    (rows : List (Path × SourceRow)) :
    ((FileMap.find f rows).elim 0 (·.includes.length))
        + pendingIn (seen.insert f) rows ≤ pendingIn seen rows := by
  induction rows with
  | nil => simp [pendingIn, FileMap.find]
  | cons a rows ih =>
      by_cases ha : a.1 = f
      · subst ha
        simp [pendingIn, FileMap.find, h]
        omega
      · simp [pendingIn, FileMap.find, ha]
        omega

/-- The includes that can still come onto the list of things to do. -/
def pending (s : Source) (seen : FileSet) : Nat :=
  pendingIn seen s.rows.toList

theorem pending_empty (s : Source) : s.pending ∅ = s.includeCount := by
  have hrows : ∀ rows : List (Path × SourceRow),
      pendingIn ∅ rows = (rows.flatMap fun a => a.2.includes).length := by
    intro rows
    induction rows with
    | nil => rfl
    | cons a rows ih => simp [pendingIn, ih]
  exact hrows _

/-- Settling a file uses up its includes. -/
theorem length_next_add_pending {seen : FileSet} (h : f ∉ seen) :
    (s.next f).length + s.pending (seen.insert f) ≤ s.pending seen := by
  have hnext : (s.next f).length
      ≤ (FileMap.find f s.rows.toList).elim 0 (·.includes.length) := by
    rw [next]
    split
    · rw [includes, row, FileMap.get?]
      cases FileMap.find f s.rows.toList <;> simp
    · simp
  have hrows := pendingIn_insert h s.rows.toList
  unfold pending
  omega

/-- **The invariant of the walk**: an include of a settled file is settled or
still to be done. -/
def Walking (s : Source) (todo : List Path) (seen : FileSet) : Prop :=
  ∀ f ∈ seen, ∀ g ∈ s.next f, g ∈ seen ∨ g ∈ todo

theorem Walking.skip {todo : List Path} {seen : FileSet}
    (h : s.Walking (f :: todo) seen) (hf : f ∈ seen) : s.Walking todo seen := by
  intro a ha b hb
  rcases h a ha b hb with hseen | htodo
  · exact .inl hseen
  · rcases List.mem_cons.1 htodo with rfl | htodo
    · exact .inl hf
    · exact .inr htodo

theorem Walking.settle {todo : List Path} {seen : FileSet}
    (h : s.Walking (f :: todo) seen) :
    s.Walking (s.next f ++ todo) (seen.insert f) := by
  intro a ha b hb
  rcases FileSet.mem_insert.1 ha with rfl | ha
  · exact .inr (List.mem_append_left _ hb)
  · rcases h a ha b hb with hseen | htodo
    · exact .inl (FileSet.mem_insert.2 (.inr hseen))
    · rcases List.mem_cons.1 htodo with rfl | htodo
      · exact .inl (FileSet.mem_insert.2 (.inl rfl))
      · exact .inr (List.mem_append_right _ htodo)

/-- **The walk comes to its end**: with fuel for what is to be done and for
every include that may still come up, it settles all of it, and what it leaves
is closed. -/
theorem gather_closed {fuel : Nat} {todo : List Path} {seen : FileSet}
    (hfuel : todo.length + s.pending seen ≤ fuel)
    (h : s.Walking todo seen) :
    (∀ f, f ∈ seen ∨ f ∈ todo → f ∈ s.gather fuel todo seen)
      ∧ ∀ f ∈ s.gather fuel todo seen, ∀ g ∈ s.next f,
          g ∈ s.gather fuel todo seen := by
  induction fuel generalizing todo seen with
  | zero =>
      have hnil : todo = [] := List.length_eq_zero_iff.1 (by omega)
      subst hnil
      rw [gather]
      exact ⟨fun f hf => by simpa using hf,
        fun f hf g hg => by simpa using h f hf g hg⟩
  | succ fuel ih =>
      cases todo with
      | nil =>
          exact ⟨fun f hf => by simpa [gather] using hf,
            fun f hf g hg => by
              simp only [gather] at hf ⊢
              simpa using h f hf g hg⟩
      | cons f todo =>
          rw [List.length_cons] at hfuel
          rw [gather]
          by_cases hf : f ∈ seen
          · rw [if_pos hf]
            obtain ⟨hall, hclosed⟩ := ih (by omega) (h.skip hf)
            refine ⟨fun g hg => hall g ?_, hclosed⟩
            rcases hg with hseen | htodo
            · exact .inl hseen
            · rcases List.mem_cons.1 htodo with rfl | htodo
              · exact .inl hf
              · exact .inr htodo
          · rw [if_neg hf]
            have hcount := length_next_add_pending (s := s) hf
            obtain ⟨hall, hclosed⟩ :=
              ih (by rw [List.length_append]; omega) h.settle
            refine ⟨fun g hg => hall g ?_, hclosed⟩
            rcases hg with hseen | htodo
            · exact .inl (FileSet.mem_insert.2 (.inr hseen))
            · rcases List.mem_cons.1 htodo with rfl | htodo
              · exact .inl (FileSet.mem_insert.2 (.inl rfl))
              · exact .inr (List.mem_append_right _ htodo)

/-- **What a file pulls in is what it reaches**, apart from itself. -/
theorem mem_closure_iff : g ∈ s.closure f ↔ s.Reaches f g ∧ g ≠ f := by
  constructor
  · intro h
    exact ⟨reaches_of_mem_closure h, (FileSet.mem_erase.1 h).2⟩
  · intro ⟨hreach, hne⟩
    have hfuel : (s.next f).length + s.pending ∅
        ≤ (s.next f).length + s.includeCount :=
      Nat.le_of_eq (by rw [pending_empty])
    obtain ⟨hall, hclosed⟩ := gather_closed hfuel
      (fun a ha => absurd ha (FileSet.not_mem_empty a))
    refine FileSet.mem_erase.2 ⟨?_, hne⟩
    obtain ⟨a, ha, hp⟩ := reaches_iff_exists_next.1 hreach
    have hmem := hall a (.inr ha)
    rcases hp with rfl | ht
    · exact hmem
    · exact ht.mem_of_closed (FileSet.toList _) hclosed hmem

/-- A file provides itself and what it pulls in. -/
theorem provides_iff : s.Provides f g ↔ g = f ∨ g ∈ s.closure f := by
  rw [Provides, mem_closure_iff]
  constructor
  · intro h
    by_cases hg : g = f
    · exact .inl hg
    · exact .inr ⟨h.resolve_left hg, hg⟩
  · intro h
    exact h.imp_right And.left

/-- A path stays where no include is taken away. -/
theorem Reaches.mono {t : Source} (hnext : ∀ a, ∀ b ∈ s.next a, b ∈ t.next a)
    (h : s.Reaches f g) : t.Reaches f g := by
  induction h with
  | step h => exact .step (hnext _ _ h)
  | trans h _ ih => exact .trans (hnext _ _ h) ih

/-- What a file pulls in depends on the includes of files that were read. -/
theorem closure_congr {t : Source} (hnext : ∀ a, s.next a = t.next a)
    (f : Path) : s.closure f = t.closure f := by
  refine FileSet.ext fun g => ?_
  rw [mem_closure_iff, mem_closure_iff]
  refine and_congr_left fun _ => ⟨fun h => h.mono fun a b hb => ?_,
    fun h => h.mono fun a b hb => ?_⟩
  · rwa [← hnext]
  · rwa [hnext]

/-! ## Exchanging the includes of one file -/

/-- The source where a file has other includes. -/
def withIncludes (s : Source) (f : Path) (files : List Path) : Source :=
  { s with rows := s.rows.insert f { s.row f with includes := files } }

variable {files : List Path}

theorem row_withIncludes : (s.withIncludes f files).row g
    = if g = f then { s.row f with includes := files } else s.row g := by
  rw [row, withIncludes, FileMap.get?_insert]
  split <;> rfl

theorem next_withIncludes (h : s.knows f = true) :
    (s.withIncludes f files).next f = files := by
  have hknown : (s.row f).known = true := h
  rw [next, knows, includes, row_withIncludes, if_pos rfl, if_pos hknown]

theorem next_withIncludes_of_ne (h : g ≠ f) :
    (s.withIncludes f files).next g = s.next g := by
  rw [next, knows, includes, row_withIncludes, if_neg h, next, knows, includes]

/-- Paths that do not need the includes of `f` are there whatever those are. -/
theorem Reaches.withIncludes (hf : s.knows f = true)
    (h : (s.withIncludes f []).Reaches e g) :
    (s.withIncludes f files).Reaches e g := by
  have hnext : ∀ a, ∀ b ∈ (s.withIncludes f []).next a,
      b ∈ (s.withIncludes f files).next a := by
    intro a b hb
    by_cases ha : a = f
    · rw [ha, next_withIncludes hf] at hb
      cases hb
    · rw [next_withIncludes_of_ne ha] at hb ⊢
      exact hb
  exact h.mono hnext

/-- A path either avoids the includes of `f`, or what follows their last use
does. -/
theorem reaches_or_provides_of_reaches (hf : s.knows f = true)
    (h : (s.withIncludes f files).Reaches e g) :
    (e ≠ f ∧ (s.withIncludes f []).Reaches e g)
      ∨ ∃ k ∈ files, (s.withIncludes f []).Provides k g := by
  induction h with
  | @step a b h =>
      by_cases ha : a = f
      · rw [ha, next_withIncludes hf] at h
        exact .inr ⟨b, h, .inl rfl⟩
      · rw [next_withIncludes_of_ne ha] at h
        exact .inl ⟨ha, .step (by rwa [next_withIncludes_of_ne ha])⟩
  | @trans a b k h _ ih =>
      rcases ih with ⟨_, hb⟩ | hlater
      · by_cases ha : a = f
        · rw [ha, next_withIncludes hf] at h
          exact .inr ⟨b, h, .inr hb⟩
        · rw [next_withIncludes_of_ne ha] at h
          exact .inl ⟨ha, .trans (by rwa [next_withIncludes_of_ne ha]) hb⟩
      · exact .inr hlater

/-- **What a file reaches over new includes**: what they are, and what they
provide without the includes of the file itself. -/
theorem reaches_withIncludes_iff (hf : s.knows f = true) :
    (s.withIncludes f files).Reaches f g
      ↔ ∃ k ∈ files, (s.withIncludes f []).Provides k g := by
  constructor
  · intro h
    rcases reaches_or_provides_of_reaches hf h with ⟨hne, _⟩ | hfiles
    · exact absurd rfl hne
    · exact hfiles
  · intro ⟨k, hk, hp⟩
    refine reaches_iff_exists_next.2 ⟨k, ?_, ?_⟩
    · rw [next_withIncludes hf]
      exact hk
    · rcases hp with hg | ht
      · exact .inl hg
      · exact .inr (ht.withIncludes hf)

/-- The includes of `f` play no part on the paths from a file that does not
lead to it. -/
theorem Provides.without (hne : e ≠ f) (hn : ¬ s.Reaches e f)
    (h : s.Provides e g) : (s.withIncludes f []).Provides e g := by
  rcases h with hg | h
  · exact .inl hg
  refine .inr ?_
  induction h with
  | step h =>
      refine .step ?_
      rw [next_withIncludes_of_ne hne]
      exact h
  | @trans a b k h _ ih =>
      have hb : b ≠ f := fun hbf => hn (.step (hbf ▸ h))
      refine .trans ?_ (ih hb fun hbf => hn (.trans h hbf))
      rw [next_withIncludes_of_ne hne]
      exact h

end Source

end IncludeBlock
