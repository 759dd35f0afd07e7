import IncludeBlock.Path

/-!
# Finite maps from files

A map is its list of bindings with ascending files, so two maps that give the
same answer for every file are equal.
-/

namespace IncludeBlock

/-- A finite map from files to values. -/
structure FileMap (β : Type) where
  toList : List (Path × β)
  ascending : toList.Pairwise (fun a b => a.1 < b.1)

namespace FileMap

variable {β γ : Type}

def empty : FileMap β := ⟨[], List.Pairwise.nil⟩

instance : EmptyCollection (FileMap β) := ⟨empty⟩

instance : Inhabited (FileMap β) := ⟨empty⟩

/-- The files that have a value, in ascending order. -/
def keys (m : FileMap β) : List Path := m.toList.map (·.1)

def size (m : FileMap β) : Nat := m.toList.length

/-! ## Reading -/

/-- The value of a file in a list of bindings. -/
def find (f : Path) : List (Path × β) → Option β
  | [] => none
  | (g, b) :: rest => if g = f then some b else find f rest

/-- The value of a file, if it has one. -/
def get? (m : FileMap β) (f : Path) : Option β := find f m.toList

def contains (m : FileMap β) (f : Path) : Bool := (m.get? f).isSome

@[simp] theorem get?_empty (f : Path) : (∅ : FileMap β).get? f = none := rfl

theorem mem_of_find {f : Path} {b : β} {l : List (Path × β)}
    (h : find f l = some b) : (f, b) ∈ l := by
  induction l with
  | nil => simp [find] at h
  | cons a l ih =>
      obtain ⟨g, c⟩ := a
      by_cases hg : g = f
      · simp [find, hg] at h; simp [hg, h]
      · rw [find, if_neg hg] at h
        exact List.mem_cons_of_mem _ (ih h)

theorem find_of_mem {f : Path} {b : β} {l : List (Path × β)}
    (hl : l.Pairwise (fun a b => a.1 < b.1)) (h : (f, b) ∈ l) :
    find f l = some b := by
  induction l with
  | nil => simp at h
  | cons a l ih =>
      obtain ⟨g, c⟩ := a
      rw [List.pairwise_cons] at hl
      rcases List.mem_cons.1 h with e | hm
      · cases e; simp [find]
      · have hne : g ≠ f := fun e => Path.lt_irrefl f (e ▸ hl.1 _ hm)
        rw [find, if_neg hne]
        exact ih hl.2 hm

/-- A file has a value exactly when the two are bound to each other. -/
theorem get?_eq_some_iff {m : FileMap β} {f : Path} {b : β} :
    m.get? f = some b ↔ (f, b) ∈ m.toList :=
  ⟨mem_of_find, find_of_mem m.ascending⟩

theorem mem_keys {m : FileMap β} {f : Path} :
    f ∈ m.keys ↔ ∃ b, m.get? f = some b := by
  simp only [keys, List.mem_map, get?_eq_some_iff]
  constructor
  · rintro ⟨⟨g, b⟩, h, rfl⟩; exact ⟨b, h⟩
  · rintro ⟨b, h⟩; exact ⟨(f, b), h, rfl⟩

theorem contains_iff {m : FileMap β} {f : Path} :
    m.contains f = true ↔ f ∈ m.keys := by
  rw [mem_keys, contains, Option.isSome_iff_exists]

theorem get?_eq_none_iff {m : FileMap β} {f : Path} :
    m.get? f = none ↔ m.contains f = false := by
  rw [contains, Option.isSome_eq_false_iff, Option.isNone_iff_eq_none]

/-- No file is bound twice. -/
theorem nodup_keys (m : FileMap β) : m.keys.Nodup := by
  refine List.pairwise_map.2 (m.ascending.imp ?_)
  intro a b h e
  exact Path.lt_irrefl b.1 (e ▸ h)

theorem eq_of_find {as bs : List (Path × β)}
    (ha : as.Pairwise (fun a b => a.1 < b.1))
    (hb : bs.Pairwise (fun a b => a.1 < b.1))
    (h : ∀ f, find f as = find f bs) : as = bs := by
  induction as generalizing bs with
  | nil =>
      cases bs with
      | nil => rfl
      | cons b bs => have := h b.1; simp [find] at this
  | cons a as ih =>
      cases bs with
      | nil => have := h a.1; simp [find] at this
      | cons b bs =>
          have hab : a.1 = b.1 := by
            rw [List.pairwise_cons] at ha hb
            refine Path.eq_of_not_lt (fun hlt => ?_) (fun hlt => ?_)
            · have hf : find a.1 (b :: bs) = some a.2 := by
                rw [← h a.1]; simp [find]
              rcases List.mem_cons.1 (mem_of_find hf) with e | hm
              · exact Path.lt_irrefl b.1 (by rw [← e] at hlt ⊢; exact hlt)
              · exact Path.lt_asymm hlt (hb.1 _ hm)
            · have hf : find b.1 (a :: as) = some b.2 := by
                rw [h b.1]; simp [find]
              rcases List.mem_cons.1 (mem_of_find hf) with e | hm
              · exact Path.lt_irrefl a.1 (by rw [← e] at hlt ⊢; exact hlt)
              · exact Path.lt_asymm hlt (ha.1 _ hm)
          -- The first files agree, so their values are each other's answers.
          have hv : a.2 = b.2 := by
            have := h a.1
            simpa [find, hab] using this
          have he : a = b := Prod.ext hab hv
          subst he
          rw [List.pairwise_cons] at ha hb
          rw [ih ha.2 hb.2 ?_]
          intro f
          by_cases hf : a.1 = f
          · have hna : find f as = none := by
              cases hc : find f as with
              | none => rfl
              | some c =>
                  exact absurd (ha.1 _ (mem_of_find hc)) (hf ▸ Path.lt_irrefl _)
            have hnb : find f bs = none := by
              cases hc : find f bs with
              | none => rfl
              | some c =>
                  exact absurd (hb.1 _ (mem_of_find hc)) (hf ▸ Path.lt_irrefl _)
            rw [hna, hnb]
          · have := h f
            simpa [find, hf] using this

/-- Maps with the same answers are equal. -/
theorem ext {m n : FileMap β} (h : ∀ f, m.get? f = n.get? f) : m = n := by
  cases m; cases n
  congr
  exact eq_of_find ‹_› ‹_› h

/-! ## Writing -/

/-- Binds a file in an ascending list of bindings. -/
def bind (f : Path) (b : β) : List (Path × β) → List (Path × β)
  | [] => [(f, b)]
  | a :: rest =>
      if f < a.1 then (f, b) :: a :: rest
      else if f = a.1 then (f, b) :: rest
      else a :: bind f b rest

theorem find_bind {f g : Path} {b : β} {l : List (Path × β)} :
    find g (bind f b l) = if g = f then some b else find g l := by
  induction l with
  | nil => simp [bind, find, eq_comm]
  | cons a l ih =>
      obtain ⟨k, c⟩ := a
      simp only [bind]
      split
      · by_cases hg : g = f
        · simp [find, hg]
        · simp [find, hg, Ne.symm hg]
      · split
        · rename_i h; subst h
          by_cases hg : g = f
          · simp [find, hg]
          · simp [find, hg, Ne.symm hg]
        · rename_i h
          by_cases hk : k = g
          · subst hk; simp [find, Ne.symm h]
          · simp [find, hk, ih]

theorem mem_bind {f : Path} {b : β} {a : Path × β} {l : List (Path × β)}
    (h : a ∈ bind f b l) : a = (f, b) ∨ a ∈ l := by
  induction l with
  | nil => exact .inl (List.mem_singleton.1 h)
  | cons c l ih =>
      simp only [bind] at h
      split at h
      · exact List.mem_cons.1 h
      · split at h
        · rcases List.mem_cons.1 h with e | hm
          · exact .inl e
          · exact .inr (List.mem_cons_of_mem _ hm)
        · rcases List.mem_cons.1 h with e | hm
          · exact .inr (e ▸ List.mem_cons_self)
          · exact (ih hm).imp_right (List.mem_cons_of_mem _)

theorem ascending_bind (f : Path) (b : β) {l : List (Path × β)}
    (h : l.Pairwise (fun a b => a.1 < b.1)) :
    (bind f b l).Pairwise (fun a b => a.1 < b.1) := by
  induction l with
  | nil => simp [bind]
  | cons a l ih =>
      have h' := h
      rw [List.pairwise_cons] at h
      simp only [bind]
      split
      · rename_i hfa
        refine List.pairwise_cons.2 ⟨fun c hc => ?_, h'⟩
        rcases List.mem_cons.1 hc with rfl | hc
        · exact hfa
        · exact Path.lt_trans hfa (h.1 c hc)
      · split
        · rename_i hfa
          exact List.pairwise_cons.2 ⟨fun c hc => hfa ▸ h.1 c hc, h.2⟩
        · rename_i h₁ h₂
          refine List.pairwise_cons.2 ⟨fun c hc => ?_, ih h.2⟩
          rcases mem_bind hc with rfl | hc
          · exact Decidable.byContradiction fun h₃ =>
              h₂ (Path.eq_of_not_lt h₁ h₃)
          · exact h.1 c hc

/-- The map with a file bound to a value. -/
def insert (m : FileMap β) (f : Path) (b : β) : FileMap β :=
  ⟨bind f b m.toList, ascending_bind f b m.ascending⟩

@[simp] theorem get?_insert {m : FileMap β} {f g : Path} {b : β} :
    (m.insert f b).get? g = if g = f then some b else m.get? g := find_bind

@[simp] theorem contains_insert {m : FileMap β} {f g : Path} {b : β} :
    (m.insert f b).contains g = (g == f || m.contains g) := by
  by_cases h : g = f <;> simp [contains, h]

/-- The map with the bindings of another one for the files without a value. -/
def fill (m n : FileMap β) : FileMap β :=
  n.toList.foldl
    (fun m a => if m.contains a.1 then m else m.insert a.1 a.2) m

@[simp] theorem get?_fill {m n : FileMap β} {f : Path} :
    (m.fill n).get? f = (m.get? f).or (n.get? f) := by
  have hlist (l : List (Path × β)) :
      (l.foldl (fun m a => if m.contains a.1 then m else m.insert a.1 a.2)
        m).get? f = (m.get? f).or (find f l) := by
    induction l generalizing m with
    | nil => simp [find]
    | cons a l ih =>
        rw [List.foldl_cons, ih, find]
        by_cases ha : m.contains a.1 = true
        · rw [if_pos ha]
          by_cases hf : a.1 = f
          · obtain ⟨b, hb⟩ := Option.isSome_iff_exists.1 ha
            simp [← hf, hb]
          · rw [if_neg hf]
        · rw [if_neg ha, get?_insert]
          by_cases hf : a.1 = f
          · have hnone : m.get? f = none := by
              simpa [contains, hf] using ha
            simp [hf, hnone]
          · rw [if_neg hf, if_neg (Ne.symm hf)]
  exact hlist n.toList

/-- The bindings whose files pass a test. -/
def filterKeys (m : FileMap β) (p : Path → Bool) : FileMap β :=
  ⟨m.toList.filter (fun a => p a.1), m.ascending.filter _⟩

theorem find_filter {p : Path → Bool} {f : Path} {l : List (Path × β)} :
    find f (l.filter (fun a => p a.1)) = if p f then find f l else none := by
  induction l with
  | nil => simp [find]
  | cons a l ih =>
      obtain ⟨g, c⟩ := a
      by_cases hg : g = f
      · subst hg
        cases hp : p g <;> simp [List.filter, hp, find, ih]
      · cases hp : p g <;> simp [List.filter, hp, find, ih, hg]

@[simp] theorem get?_filterKeys {m : FileMap β} {p : Path → Bool} {f : Path} :
    (m.filterKeys p).get? f = if p f then m.get? f else none := find_filter

/-- The map without the value of a file. -/
def erase (m : FileMap β) (f : Path) : FileMap β := m.filterKeys (· != f)

@[simp] theorem get?_erase {m : FileMap β} {f g : Path} :
    (m.erase f).get? g = if g = f then none else m.get? g := by
  by_cases h : g = f <;> simp [erase, h]

@[simp] theorem contains_erase {m : FileMap β} {f g : Path} :
    (m.erase f).contains g = (g != f && m.contains g) := by
  by_cases h : g = f <;> simp [contains, h]

/-- The map with other values. -/
def mapValues (m : FileMap β) (h : Path → β → γ) : FileMap γ :=
  ⟨m.toList.map (fun a => (a.1, h a.1 a.2)),
    List.pairwise_map.2 m.ascending⟩

theorem find_map {h : Path → β → γ} {f : Path} {l : List (Path × β)} :
    find f (l.map (fun a => (a.1, h a.1 a.2))) = (find f l).map (h f) := by
  induction l with
  | nil => rfl
  | cons a l ih =>
      obtain ⟨g, c⟩ := a
      by_cases hg : g = f
      · subst hg; simp [find]
      · simp [find, hg, ih]

@[simp] theorem get?_mapValues {m : FileMap β} {h : Path → β → γ} {f : Path} :
    (m.mapValues h).get? f = (m.get? f).map (h f) := find_map

/-- The map of the bindings of a list; the last binding of a file counts. -/
def ofList (l : List (Path × β)) : FileMap β :=
  l.foldl (fun m a => m.insert a.1 a.2) empty

end FileMap

end IncludeBlock
