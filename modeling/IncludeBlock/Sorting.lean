/-!
# Stable sorting

Sorting by insertion: the result is a permutation of the input, is in order,
and is the input itself when that is in order already. Every step is
structural, so a closed instance evaluates in the kernel.
-/

namespace IncludeBlock.Sorting

variable {α : Type _}

/-- Puts `a` in front of the first element that it may precede. -/
def insertBy (le : α → α → Bool) (a : α) : List α → List α
  | [] => [a]
  | b :: bs => if le a b then a :: b :: bs else b :: insertBy le a bs

/-- The elements in the order `le`; elements that may precede each other stay
in the order in which they came. -/
def sortBy (le : α → α → Bool) (as : List α) : List α :=
  as.foldr (insertBy le) []

theorem insertBy_perm (le : α → α → Bool) (a : α) (as : List α) :
    (insertBy le a as).Perm (a :: as) := by
  induction as with
  | nil => exact List.Perm.refl _
  | cons b bs ih =>
      simp only [insertBy]
      split
      · exact List.Perm.refl _
      · exact (ih.cons b).trans (List.Perm.swap a b bs)

theorem sortBy_perm (le : α → α → Bool) (as : List α) :
    (sortBy le as).Perm as := by
  induction as with
  | nil => exact List.Perm.refl _
  | cons a as ih => exact (insertBy_perm le a _).trans (ih.cons a)

theorem pairwise_insertBy {le : α → α → Bool}
    (trans : ∀ a b c, le a b → le b c → le a c)
    (total : ∀ a b, le a b || le b a) (a : α) {as : List α}
    (h : as.Pairwise (fun x y => le x y)) :
    (insertBy le a as).Pairwise (fun x y => le x y) := by
  induction as with
  | nil => simp [insertBy]
  | cons b bs ih =>
      rw [List.pairwise_cons] at h
      simp only [insertBy]
      split
      · rename_i hab
        refine List.pairwise_cons.2 ⟨?_, List.pairwise_cons.2 h⟩
        intro c hc
        rcases List.mem_cons.1 hc with rfl | hc
        · exact hab
        · exact trans _ _ _ hab (h.1 c hc)
      · rename_i hab
        refine List.pairwise_cons.2 ⟨?_, ih h.2⟩
        intro c hc
        rcases List.mem_cons.1 ((insertBy_perm le a bs).mem_iff.1 hc) with rfl | hc
        · have := total c b
          simpa [hab] using this
        · exact h.1 c hc

/-- The result of sorting is in order. -/
theorem pairwise_sortBy {le : α → α → Bool}
    (trans : ∀ a b c, le a b → le b c → le a c)
    (total : ∀ a b, le a b || le b a) (as : List α) :
    (sortBy le as).Pairwise (fun x y => le x y) := by
  induction as with
  | nil => exact List.Pairwise.nil
  | cons a as ih => exact pairwise_insertBy trans total a ih

/-- What is in order already stays as it is. -/
theorem sortBy_of_pairwise {le : α → α → Bool} {as : List α}
    (h : as.Pairwise (fun x y => le x y)) : sortBy le as = as := by
  induction as with
  | nil => rfl
  | cons a as ih =>
      rw [List.pairwise_cons] at h
      show insertBy le a (sortBy le as) = a :: as
      rw [ih h.2]
      cases as with
      | nil => rfl
      | cons b bs => simp [insertBy, h.1 b (by simp)]

theorem tied_insertBy {le : α → α → Bool} {Q : α → α → Prop} {a : α}
    {as : List α} (h : as.Pairwise fun x y => le y x → Q x y)
    (ha : ∀ b ∈ as, Q a b) :
    (insertBy le a as).Pairwise fun x y => le y x → Q x y := by
  induction as with
  | nil => simp [insertBy]
  | cons b bs ih =>
      obtain ⟨hb, hbs⟩ := List.pairwise_cons.1 h
      simp only [insertBy]
      split
      · refine List.pairwise_cons.2 ⟨fun c hc _ => ha c hc, h⟩
      · rename_i hab
        refine List.pairwise_cons.2
          ⟨?_, ih hbs fun c hc => ha c (List.mem_cons_of_mem _ hc)⟩
        intro c hc hcb
        -- `a` goes behind `b`, so it may not precede it
        rcases List.mem_cons.1 ((insertBy_perm le a bs).mem_iff.1 hc) with rfl | hc
        · exact absurd hcb hab
        · exact hb c hc hcb

/-- **Sorting is stable**: elements that may precede each other stay in the
order in which they came. -/
theorem tied_sortBy {le : α → α → Bool} {Q : α → α → Prop} {as : List α}
    (h : as.Pairwise Q) :
    (sortBy le as).Pairwise fun x y => le y x → Q x y := by
  induction as with
  | nil => exact List.Pairwise.nil
  | cons a as ih =>
      obtain ⟨ha, has⟩ := List.pairwise_cons.1 h
      refine tied_insertBy (ih has) fun b hb => ha b ?_
      exact (sortBy_perm le as).mem_iff.1 hb

/-- An element that comes before all others is put in front of them, wherever
it stands among those that may not precede it. -/
theorem sortBy_append_cons {le : α → α → Bool} {a : α} {as bs : List α}
    (has : ∀ x ∈ as, ¬ le x a) (hbs : ∀ x ∈ bs, le a x) :
    sortBy le (as ++ a :: bs) = a :: sortBy le (as ++ bs) := by
  induction as with
  | nil =>
      show insertBy le a (sortBy le bs) = a :: sortBy le bs
      cases h : sortBy le bs with
      | nil => rfl
      | cons b cs =>
          have hb : b ∈ bs := by
            rw [← (sortBy_perm le bs).mem_iff, h]
            exact List.mem_cons_self
          simp [insertBy, hbs b hb]
  | cons b as ih =>
      obtain ⟨hb, has⟩ := List.forall_mem_cons.1 has
      show insertBy le b (sortBy le (as ++ a :: bs))
        = a :: sortBy le (b :: as ++ bs)
      rw [ih has, insertBy, if_neg hb]
      rfl

/-- **Parting a list in order and sorting it again changes nothing**, if among
elements that may precede each other those of the first part come first. -/
theorem sortBy_parted {le : α → α → Bool} {p : α → Bool} {as : List α}
    (h : as.Pairwise fun x y => le x y)
    (hp : as.Pairwise fun x y => le y x → p y → p x) :
    sortBy le (as.filter p ++ as.filter (!p ·)) = as := by
  induction as with
  | nil => rfl
  | cons a as ih =>
      obtain ⟨ha, h⟩ := List.pairwise_cons.1 h
      obtain ⟨hpa, hp⟩ := List.pairwise_cons.1 hp
      cases hcase : p a with
      | true =>
          rw [List.filter_cons_of_pos hcase,
            List.filter_cons_of_neg (by simp [hcase])]
          have hnil : ∀ x ∈ ([] : List α), ¬ le x a := by simp
          refine (sortBy_append_cons hnil fun x hx => ha x ?_).trans
            (congrArg _ (ih h hp))
          rcases List.mem_append.1 hx with hx | hx
          · exact (List.mem_filter.1 hx).1
          · exact (List.mem_filter.1 hx).1
      | false =>
          rw [List.filter_cons_of_neg (by simp [hcase]),
            List.filter_cons_of_pos (by simp [hcase])]
          refine (sortBy_append_cons ?_ fun x hx => ha x ?_).trans
            (congrArg _ (ih h hp))
          · intro x hx hle
            obtain ⟨hx, hpx⟩ := List.mem_filter.1 hx
            rw [hpa x hx hle hpx] at hcase
            cases hcase
          · exact (List.mem_filter.1 hx).1

/-! ## Ties -/

/-- Whether two elements may precede each other. -/
def tied (le : α → α → Bool) (a b : α) : Bool :=
  le a b && le b a

theorem tied_self {le : α → α → Bool}
    (total : ∀ a b, le a b || le b a) (a : α) : tied le a a = true := by
  simpa [tied] using total a a

theorem filter_tied_insertBy {le : α → α → Bool}
    (trans : ∀ a b c, le a b → le b c → le a c) (c a : α) (as : List α) :
    (insertBy le a as).filter (tied le c) = (a :: as).filter (tied le c) := by
  induction as with
  | nil => rfl
  | cons b bs ih =>
      simp only [insertBy]
      split
      · rfl
      · rename_i hab
        -- `a` passes `b`, so not both of them are tied with `c`
        have hnot : ¬ (tied le c a = true ∧ tied le c b = true) := by
          simp only [tied, Bool.and_eq_true]
          exact fun h => hab (trans _ _ _ h.1.2 h.2.1)
        rw [List.filter_cons, ih, List.filter_cons, List.filter_cons,
          List.filter_cons]
        by_cases hb : tied le c b = true
        · have ha : ¬ tied le c a = true := fun ha => hnot ⟨ha, hb⟩
          rw [if_pos hb, if_neg ha, if_neg ha, if_pos hb]
        · rw [if_neg hb, if_neg hb]

/-- Sorting leaves tied elements in the order in which they came. -/
theorem filter_tied_sortBy {le : α → α → Bool}
    (trans : ∀ a b c, le a b → le b c → le a c) (c : α) (as : List α) :
    (sortBy le as).filter (tied le c) = as.filter (tied le c) := by
  induction as with
  | nil => rfl
  | cons a as ih =>
      change (insertBy le a (sortBy le as)).filter _ = _
      rw [filter_tied_insertBy trans, List.filter_cons, ih, List.filter_cons]

/-- The elements that an element is tied with are enough to tell lists in order
apart. -/
theorem eq_of_filter_tied {le : α → α → Bool}
    (total : ∀ a b, le a b || le b a) {as bs : List α}
    (has : as.Pairwise fun x y => le x y) (hbs : bs.Pairwise fun x y => le x y)
    (h : ∀ c, as.filter (tied le c) = bs.filter (tied le c)) : as = bs := by
  have hself := tied_self total
  induction as generalizing bs with
  | nil =>
      refine (List.eq_nil_iff_forall_not_mem.2 fun b hb => ?_).symm
      exact List.not_mem_nil (h b ▸ List.mem_filter.2 ⟨hb, hself b⟩)
  | cons a as ih =>
      have ha : a ∈ bs := by
        have hmem : a ∈ (a :: as).filter (tied le a) :=
          List.mem_filter.2 ⟨List.mem_cons_self, hself a⟩
        exact (List.mem_filter.1 (h a ▸ hmem)).1
      cases bs with
      | nil => cases ha
      | cons b bs =>
          have hb : b ∈ a :: as := by
            have hmem : b ∈ (b :: bs).filter (tied le b) :=
              List.mem_filter.2 ⟨List.mem_cons_self, hself b⟩
            exact (List.mem_filter.1 (h b ▸ hmem)).1
          obtain ⟨hale, has⟩ := List.pairwise_cons.1 has
          obtain ⟨hble, hbs'⟩ := List.pairwise_cons.1 hbs
          -- the first elements of both lists precede each other
          have hab : tied le a b = true := by
            rw [tied, Bool.and_eq_true]
            constructor
            · rcases List.mem_cons.1 hb with rfl | hb
              · simpa using total b b
              · exact hale b hb
            · rcases List.mem_cons.1 ha with rfl | ha
              · simpa using total a a
              · exact hble a ha
          obtain rfl : a = b := by
            have hfirst := h a
            rw [List.filter_cons_of_pos (hself a),
              List.filter_cons_of_pos hab] at hfirst
            exact (List.cons.inj hfirst).1
          refine congrArg _ (ih has hbs' fun c => ?_)
          have hc := h c
          rw [List.filter_cons, List.filter_cons] at hc
          split at hc
          · exact (List.cons.inj hc).2
          · exact hc

/-- **What was sorted and turned round is sorted like the input turned
round.** -/
theorem sortBy_reverse_sortBy {le : α → α → Bool}
    (trans : ∀ a b c, le a b → le b c → le a c)
    (total : ∀ a b, le a b || le b a) (as : List α) :
    sortBy le (sortBy le as).reverse = sortBy le as.reverse := by
  refine eq_of_filter_tied total (pairwise_sortBy trans total _)
    (pairwise_sortBy trans total _) fun c => ?_
  rw [filter_tied_sortBy trans, filter_tied_sortBy trans, List.filter_reverse,
    List.filter_reverse, filter_tied_sortBy trans]

theorem insertBy_map {β : Type _} {le : α → α → Bool} {le' : β → β → Bool}
    {f : α → β} (h : ∀ a b, le' (f a) (f b) = le a b) (a : α) (as : List α) :
    insertBy le' (f a) (as.map f) = (insertBy le a as).map f := by
  induction as with
  | nil => rfl
  | cons b bs ih =>
      rw [List.map_cons, insertBy, insertBy, h]
      split
      · rfl
      · rw [ih, List.map_cons]

/-- Sorting takes no notice of what the order does not look at. -/
theorem sortBy_map {β : Type _} {le : α → α → Bool} {le' : β → β → Bool}
    {f : α → β} (h : ∀ a b, le' (f a) (f b) = le a b) (as : List α) :
    sortBy le' (as.map f) = (sortBy le as).map f := by
  induction as with
  | nil => rfl
  | cons a as ih =>
      change insertBy le' (f a) (sortBy le' (as.map f)) = _
      rw [ih, insertBy_map h]
      rfl

/-! ## The least element -/

/-- The first of the smallest elements of a list. -/
def leastBy? (less : α → α → Bool) : List α → Option α
  | [] => none
  | a :: as => some (as.foldl (fun m b => if less b m then b else m) a)

theorem leastBy?_eq_none_iff {less : α → α → Bool} {as : List α} :
    leastBy? less as = none ↔ as = [] := by
  cases as <;> simp [leastBy?]

/-- The least element is one of the list. -/
theorem mem_of_leastBy? {less : α → α → Bool} {as : List α} {a : α}
    (h : leastBy? less as = some a) : a ∈ as := by
  cases as with
  | nil => simp [leastBy?] at h
  | cons b bs =>
      have fold : ∀ (cs : List α) (m : α),
          cs.foldl (fun m c => if less c m then c else m) m ∈ m :: cs := by
        intro cs
        induction cs with
        | nil => intro m; simp
        | cons c cs ih =>
            intro m
            rw [List.foldl_cons]
            by_cases hc : less c m = true
            · rw [if_pos hc]
              exact List.mem_cons_of_mem _ (ih c)
            · rw [if_neg hc]
              rcases List.mem_cons.1 (ih m) with hm | hm
              · rw [hm]; exact List.mem_cons_self
              · exact List.mem_cons_of_mem _ (List.mem_cons_of_mem _ hm)
      simp only [leastBy?, Option.some.injEq] at h
      exact h ▸ fold bs b

/-- Going on from `m`, the search ends with `m` or with something less. -/
theorem foldl_least_or {less : α → α → Bool}
    (trans : ∀ a b c, less a b → less b c → less a c) (as : List α) (m : α) :
    let k := as.foldl (fun m b => if less b m then b else m) m
    k = m ∨ less k m = true := by
  induction as generalizing m with
  | nil => exact .inl rfl
  | cons a as ih =>
      simp only [List.foldl_cons]
      by_cases ha : less a m = true
      · rw [if_pos ha]
        rcases ih a with heq | hlt
        · exact .inr (heq.symm ▸ ha)
        · exact .inr (trans _ _ _ hlt ha)
      · rw [if_neg ha]
        exact ih m

/-- **Nothing in the list is less than its least element.** -/
theorem not_less_of_leastBy? {less : α → α → Bool}
    (irrefl : ∀ a, ¬ less a a = true)
    (trans : ∀ a b c, less a b → less b c → less a c) {as : List α} {a b : α}
    (h : leastBy? less as = some a) (hb : b ∈ as) : ¬ less b a = true := by
  have fold : ∀ (cs : List α) (m b : α), b ∈ m :: cs →
      ¬ less b (cs.foldl (fun m c => if less c m then c else m) m) = true := by
    intro cs
    induction cs with
    | nil =>
        intro m b hb
        rw [List.mem_singleton.1 hb]
        exact irrefl m
    | cons c cs ih =>
        intro m b hb hlt
        rw [List.foldl_cons] at hlt
        by_cases hc : less c m = true
        · rw [if_pos hc] at hlt
          rcases List.mem_cons.1 hb with rfl | hb
          · -- what was given up for `c` is not less than the end
            exact ih c c List.mem_cons_self (trans _ _ _ hc hlt)
          · exact ih c b hb hlt
        · rw [if_neg hc] at hlt
          rcases List.mem_cons.1 hb with rfl | hb
          · exact ih b b List.mem_cons_self hlt
          · rcases List.mem_cons.1 hb with rfl | hb
            · rcases foldl_least_or trans cs m with heq | hle
              · exact hc (heq ▸ hlt)
              · exact hc (trans _ _ _ hlt hle)
            · exact ih m b (List.mem_cons_of_mem _ hb) hlt
  cases as with
  | nil => cases hb
  | cons c cs =>
      simp only [leastBy?, Option.some.injEq] at h
      exact h ▸ fold cs c b hb

end IncludeBlock.Sorting
