import IncludeBlock.Path

/-!
# Finite sets of files

A set of files is its ascending list of members, so two sets with the same
members are equal and every traversal goes in the order of the paths.
-/

namespace IncludeBlock

/-- A finite set of files. -/
structure FileSet where
  toList : List Path
  ascending : toList.Pairwise (· < ·)
deriving DecidableEq

namespace FileSet

instance : Membership Path FileSet := ⟨fun s f => f ∈ s.toList⟩

instance (f : Path) (s : FileSet) : Decidable (f ∈ s) :=
  inferInstanceAs (Decidable (f ∈ s.toList))

theorem mem_def {f : Path} {s : FileSet} : f ∈ s ↔ f ∈ s.toList := Iff.rfl

/-- No member is listed twice. -/
theorem nodup (s : FileSet) : s.toList.Nodup := by
  refine s.ascending.imp ?_
  intro a b h e
  exact Path.lt_irrefl b (e ▸ h)

/-! ## Extensionality -/

theorem eq_of_ascending {as bs : List Path} (ha : as.Pairwise (· < ·))
    (hb : bs.Pairwise (· < ·)) (h : ∀ f, f ∈ as ↔ f ∈ bs) : as = bs := by
  induction as generalizing bs with
  | nil =>
      cases bs with
      | nil => rfl
      | cons b bs => exact absurd ((h b).2 (by simp)) (by simp)
  | cons a as ih =>
      cases bs with
      | nil => exact absurd ((h a).1 (by simp)) (by simp)
      | cons b bs =>
          rw [List.pairwise_cons] at ha hb
          -- The least members have to be the same.
          have hab : a = b := by
            refine Path.eq_of_not_lt (fun hlt => ?_) (fun hlt => ?_)
            · rcases List.mem_cons.1 ((h a).1 (by simp)) with e | hm
              · exact Path.lt_irrefl a (e ▸ hlt)
              · exact Path.lt_asymm hlt (hb.1 a hm)
            · rcases List.mem_cons.1 ((h b).2 (by simp)) with e | hm
              · exact Path.lt_irrefl b (e ▸ hlt)
              · exact Path.lt_asymm hlt (ha.1 b hm)
          subst hab
          rw [ih ha.2 hb.2 ?_]
          intro f
          constructor
          · intro hf
            rcases List.mem_cons.1 ((h f).1 (List.mem_cons_of_mem _ hf)) with e | hm
            · exact absurd (ha.1 f hf) (e ▸ Path.lt_irrefl f)
            · exact hm
          · intro hf
            rcases List.mem_cons.1 ((h f).2 (List.mem_cons_of_mem _ hf)) with e | hm
            · exact absurd (hb.1 f hf) (e ▸ Path.lt_irrefl f)
            · exact hm

/-- Sets with the same members are equal. -/
@[ext] theorem ext {s t : FileSet} (h : ∀ f, f ∈ s ↔ f ∈ t) : s = t := by
  cases s; cases t
  congr
  exact eq_of_ascending ‹_› ‹_› h

/-! ## Operations -/

def empty : FileSet := ⟨[], List.Pairwise.nil⟩

instance : EmptyCollection FileSet := ⟨empty⟩

instance : Inhabited FileSet := ⟨empty⟩

@[simp] theorem not_mem_empty (f : Path) : ¬ f ∈ (∅ : FileSet) :=
  List.not_mem_nil

def isEmpty (s : FileSet) : Bool := s.toList.isEmpty

def size (s : FileSet) : Nat := s.toList.length

/-- Puts a file in its place in an ascending list. -/
def place (f : Path) : List Path → List Path
  | [] => [f]
  | g :: gs =>
      if f < g then f :: g :: gs else if f = g then g :: gs else g :: place f gs

theorem mem_place {f g : Path} {gs : List Path} :
    g ∈ place f gs ↔ g = f ∨ g ∈ gs := by
  induction gs with
  | nil => simp [place]
  | cons a as ih =>
      simp only [place]
      split
      · simp
      · split
        · rename_i h; subst h; simp
        · simp only [List.mem_cons, ih, or_left_comm]

theorem ascending_place (f : Path) {gs : List Path}
    (h : gs.Pairwise (· < ·)) : (place f gs).Pairwise (· < ·) := by
  induction gs with
  | nil => simp [place]
  | cons a as ih =>
      rw [List.pairwise_cons] at h
      simp only [place]
      split
      · rename_i hfa
        refine List.pairwise_cons.2 ⟨fun b hb => ?_, List.pairwise_cons.2 h⟩
        rcases List.mem_cons.1 hb with rfl | hb
        · exact hfa
        · exact Path.lt_trans hfa (h.1 b hb)
      · split
        · exact List.pairwise_cons.2 h
        · rename_i h₁ h₂
          refine List.pairwise_cons.2 ⟨fun b hb => ?_, ih h.2⟩
          rcases mem_place.1 hb with rfl | hb
          · exact Decidable.byContradiction fun h₃ =>
              h₂ (Path.eq_of_not_lt h₁ h₃)
          · exact h.1 b hb

def insert (s : FileSet) (f : Path) : FileSet :=
  ⟨place f s.toList, ascending_place f s.ascending⟩

@[simp] theorem mem_insert {s : FileSet} {f g : Path} :
    g ∈ s.insert f ↔ g = f ∨ g ∈ s := mem_place

def filter (s : FileSet) (p : Path → Bool) : FileSet :=
  ⟨s.toList.filter p, s.ascending.filter p⟩

@[simp] theorem mem_filter {s : FileSet} {p : Path → Bool} {f : Path} :
    f ∈ s.filter p ↔ f ∈ s ∧ p f = true := List.mem_filter

def erase (s : FileSet) (f : Path) : FileSet := s.filter (· != f)

@[simp] theorem mem_erase {s : FileSet} {f g : Path} :
    g ∈ s.erase f ↔ g ∈ s ∧ g ≠ f := by
  simp [erase]

/-- The set with the members of a list added. -/
def insertMany (s : FileSet) (fs : List Path) : FileSet :=
  fs.foldl insert s

@[simp] theorem mem_insertMany {s : FileSet} {fs : List Path} {g : Path} :
    g ∈ s.insertMany fs ↔ g ∈ s ∨ g ∈ fs := by
  induction fs generalizing s with
  | nil => simp [insertMany]
  | cons f fs ih =>
      show g ∈ (s.insert f).insertMany fs ↔ _
      rw [ih, mem_insert, List.mem_cons]
      constructor <;> rintro (h | h) <;> grind

/-- The set of the files of a list. -/
def ofList (fs : List Path) : FileSet := empty.insertMany fs

@[simp] theorem mem_ofList {fs : List Path} {g : Path} :
    g ∈ ofList fs ↔ g ∈ fs :=
  mem_insertMany.trans (by simp [mem_def, empty])

@[simp] theorem ofList_toList (s : FileSet) : ofList s.toList = s :=
  ext fun _ => mem_ofList

def union (s t : FileSet) : FileSet := s.insertMany t.toList

@[simp] theorem mem_union {s t : FileSet} {g : Path} :
    g ∈ s.union t ↔ g ∈ s ∨ g ∈ t := mem_insertMany

/-- The members of `s` that are not in `t`. -/
def diff (s t : FileSet) : FileSet := s.filter (fun f => !decide (f ∈ t))

@[simp] theorem mem_diff {s t : FileSet} {g : Path} :
    g ∈ s.diff t ↔ g ∈ s ∧ ¬ g ∈ t := by
  simp [diff]

theorem isEmpty_iff {s : FileSet} : s.isEmpty = true ↔ ∀ f, ¬ f ∈ s := by
  rw [isEmpty, List.isEmpty_iff, List.eq_nil_iff_forall_not_mem]
  exact Iff.rfl

end FileSet

end IncludeBlock
