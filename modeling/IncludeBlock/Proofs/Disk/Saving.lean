import IncludeBlock.Snapshot.File

/-!
# What was saved is there

Writing a file puts one node at the place where the look-up of its path ends.
That look-up went through directories and links only, so it ends there again
afterwards, and finds the file.
-/

namespace IncludeBlock.Disk

variable {d : Disk} {place here : Location} {bytes : List UInt8}

/-- The look-up ends at a place that is free or has a file. -/
inductive EndsAt (place : Location) : Target → Prop where
  | vacant : EndsAt place (.vacant place)
  | file (bytes : List UInt8) : EndsAt place (.present place (.file bytes))

/-- A file may stand at a place: it is not the root, and neither a directory
nor a link is there. -/
def Takes (d : Disk) (place : Location) : Prop :=
  place ≠ [] ∧ ∀ node, d.node? place = some node → ∃ bytes, node = .file bytes

/-! ## Where a look-up ends -/

theorem takes_of_descend {onLink : Location → List String → Option Target}
    (hlink : ∀ here names t, onLink here names = some t → EndsAt place t →
      d.Takes place)
    {names : List String} {t : Target}
    (h : d.descend true onLink here names = some t) (hend : EndsAt place t) :
    d.Takes place := by
  induction names generalizing here with
  | nil =>
      rw [descend] at h
      obtain ⟨node, hnode, rfl⟩ := Option.map_eq_some_iff.1 h
      cases hend with
      | file bytes =>
          refine ⟨?_, fun node hn => ⟨bytes, ?_⟩⟩
          · rintro rfl
            cases hnode
          · exact Option.some.inj (hn.symm.trans hnode)
  | cons n rest ih =>
      rw [descend] at h
      split at h
      · exact ih h
      split at h
      · exact ih h
      split at h
      · rename_i hnode
        split at h
        · cases h
          cases hend
          refine ⟨by simp, fun node hn => ?_⟩
          rw [hnode] at hn
          cases hn
        · cases h
      · exact ih h
      · rename_i bytes hnode
        split at h
        · cases h
          cases hend
          refine ⟨by simp, fun node hn => ⟨bytes, ?_⟩⟩
          exact Option.some.inj (hn.symm.trans hnode)
        · cases h
      · rw [if_neg (by simp)] at h
        exact hlink _ _ _ h hend

/-- The same names lead to the file that was put where they ended. -/
theorem descend_put (htakes : d.Takes place)
    {onLink onLink' : Location → List String → Option Target}
    (hlink : ∀ here names t, onLink here names = some t → EndsAt place t →
      onLink' here names = some (.present place (.file bytes)))
    {names : List String} {t : Target}
    (h : d.descend true onLink here names = some t) (hend : EndsAt place t) :
    (d.put place (.file bytes)).descend true onLink' here names
      = some (.present place (.file bytes)) := by
  have hput : (d.put place (.file bytes)).node? place = some (.file bytes) :=
    node?_put_self htakes.1 _
  -- what the look-up passes through is not at that place
  have hpass {at' : Location} {node : Node} (hn : d.node? at' = some node)
      (hfile : ∀ bytes, node ≠ .file bytes) :
      (d.put place (.file bytes)).node? at' = some node := by
    rw [node?_put_of_ne, hn]
    rintro rfl
    obtain ⟨bytes, rfl⟩ := htakes.2 node hn
    exact hfile bytes rfl
  induction names generalizing here with
  | nil =>
      rw [descend] at h ⊢
      obtain ⟨node, hnode, rfl⟩ := Option.map_eq_some_iff.1 h
      cases hend with
      | file => rw [hput]; rfl
  | cons n rest ih =>
      rw [descend] at h ⊢
      split at h
      · rename_i hn
        rw [if_pos hn]
        exact ih h
      rename_i hsilent
      rw [if_neg hsilent]
      split at h
      · rename_i hn
        rw [if_pos hn]
        exact ih h
      rename_i hup
      rw [if_neg hup]
      split at h
      · split at h
        · rename_i hrest
          cases h
          cases hend
          rw [hput]
          simp [hrest]
        · cases h
      · rename_i hnode
        rw [hpass hnode (by simp)]
        exact ih h
      · split at h
        · rename_i hrest
          cases h
          cases hend
          rw [hput]
          simp [hrest]
        · cases h
      · rename_i target hnode
        rw [hpass hnode (by simp)]
        rw [if_neg (by simp)] at h
        simp only [Bool.true_eq_false, and_false, if_false]
        exact hlink _ _ _ h hend

theorem takes_of_followWithin {links : Nat} {names : List String} {t : Target}
    (h : d.followWithin true links here names = some t)
    (hend : EndsAt place t) : d.Takes place := by
  induction links generalizing here names t with
  | zero => exact takes_of_descend (by simp) h hend
  | succ links ih => exact takes_of_descend (fun _ _ _ h he => ih h he) h hend

theorem followWithin_put (htakes : d.Takes place) {links : Nat}
    {names : List String} {t : Target}
    (h : d.followWithin true links here names = some t)
    (hend : EndsAt place t) :
    (d.put place (.file bytes)).followWithin true links here names
      = some (.present place (.file bytes)) := by
  induction links generalizing here names t with
  | zero => exact descend_put htakes (by simp) h hend
  | succ links ih =>
      exact descend_put htakes (fun _ _ _ h he => ih h he) h hend

theorem locate_put {p : Path} {t : Target} (h : d.lookup true p = some t)
    (hend : EndsAt place t) :
    (d.put place (.file bytes)).locate p = some (place, .file bytes) := by
  rw [lookup] at h
  split at h
  · rename_i husable
    have hfollow : (d.put place (.file bytes)).followWithin true maxLinks
        (if p.isAbsolute then [] else d.workingDirectory) (namesOf p)
        = some (.present place (.file bytes)) :=
      followWithin_put (takes_of_followWithin h hend) h hend
    have hlookup : (d.put place (.file bytes)).lookup true p
        = some (.present place (.file bytes)) := by
      rw [lookup, if_pos husable]
      exact hfollow
    rw [locate, hlookup]
  · cases h

/-! ## Writing and saving -/

theorem locate_write? {d' : Disk} {p : Path} (h : d.write? p bytes = some d') :
    ∃ place, d'.locate p = some (place, .file bytes) := by
  rw [write?] at h
  split at h
  · rename_i place old hlookup
    cases h
    exact ⟨place, locate_put hlookup (.file old)⟩
  · obtain ⟨place, hfree, rfl⟩ := Option.map_eq_some_iff.1 h
    rw [freePlace?] at hfree
    split at hfree
    · rename_i hlookup
      split at hfree
      · cases hfree
        exact ⟨_, locate_put hlookup .vacant⟩
      · cases hfree
    · cases hfree

/-- **A saved file is there**, with the bytes that were saved. -/
theorem open?_saving {d' : Disk} {p : Path}
    (h : d.saving p bytes = (d', .ok ())) : d'.open? p = .ok (some bytes) := by
  have hsave : d.save p bytes = (d', true) := by
    rw [saving] at h
    split at h
    · rename_i heq
      cases h
      exact heq
    · cases h
  rw [save] at hsave
  split at hsave
  · split at hsave
    · rename_i hwrite
      cases hsave
      obtain ⟨place, hlocate⟩ := locate_write? hwrite
      rw [open?, hlocate]
    · cases hsave
  · cases hsave

end IncludeBlock.Disk
