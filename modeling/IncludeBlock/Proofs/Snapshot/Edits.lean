import IncludeBlock.Proofs.Snapshot.Session

/-!
# The slots that edits give

A file gets the same slot in two graphs that have the same files in the same
slots and the same vacant slots. A graph and what is left of it without the
vacant slots at the end are two such graphs unless those slots matter
(`slotsGiven_trimmed_iff`).
-/

namespace IncludeBlock

/-! ## Slots of new files -/

namespace Slots

variable {α : Type}

theorem fst_add (slots : List (Option α)) (a : α) :
    (add slots a).1 = (lastVacant? slots).getD slots.length := by
  unfold add
  cases lastVacant? slots <;> rfl

theorem lastVacant?_eq_none_iff {slots : List (Option α)} :
    lastVacant? slots = none ↔ none ∉ slots := by
  induction slots with
  | nil => simp [lastVacant?]
  | cons s slots ih =>
      cases hr : lastVacant? slots with
      | some i =>
          have hvacant : none ∈ slots :=
            List.mem_of_getElem? (getElem?_lastVacant? hr)
          simp [lastVacant?, hr, hvacant]
      | none =>
          have hfull : none ∉ slots := ih.1 hr
          cases s <;> simp [lastVacant?, hr, hfull]

theorem lastVacant?_append_none (slots : List (Option α)) :
    lastVacant? (slots ++ [none]) = some slots.length := by
  induction slots with
  | nil => rfl
  | cons s slots ih => rw [List.cons_append, lastVacant?, ih]; rfl

/-- The only vacant slot is taken as a new one would be. -/
theorem add_append_none {slots : List (Option α)} (h : none ∉ slots) (a : α) :
    add (slots ++ [none]) a = add slots a := by
  unfold add
  rw [lastVacant?_append_none, lastVacant?_eq_none_iff.2 h]
  simp

/-- With another vacant slot the last one is not what comes next when it is
gone. -/
theorem fst_add_trimmed_ne {slots : List (Option α)} (h : none ∈ slots)
    (a b : α) :
    (add (trimmed (slots ++ [none])) a).1 ≠ (add (slots ++ [none]) b).1 := by
  rw [trimmed_append_none, fst_add, fst_add, lastVacant?_append_none,
    Option.getD_some]
  obtain ⟨n, hn⟩ := exists_trimmed_append slots
  have hlength : slots.length = (trimmed slots).length + n := by
    rw [congrArg List.length hn, List.length_append, List.length_replicate]
  cases hv : lastVacant? (trimmed slots) with
  | some i =>
      have hi := getElem?_lastVacant? hv
      have hlt := (List.getElem?_eq_some_iff.1 hi).1
      rw [Option.getD_some]
      omega
  | none =>
      rw [Option.getD_none]
      rcases Nat.eq_zero_or_pos n with rfl | hpos
      · rw [List.replicate_zero, List.append_nil] at hn
        rw [← hn] at hv
        exact absurd h (lastVacant?_eq_none_iff.1 hv)
      · omega

end Slots

/-! ## Edits -/

/-- A change of a graph. -/
inductive Edit where
  | insertFile (f : Path) (size : Nat)
  | addInclude (source target : Path)
  | getOrAdd (f : Path)

namespace Arena

/-- The graph after an edit, with the slot that the edit gives. -/
def edit (a : Arena) : Edit → Option Nat × Arena
  | .insertFile f size =>
      let (i, b) := a.insertFile f size
      (some i, b)
  | .addInclude source target => (none, a.addInclude source target)
  | .getOrAdd f =>
      let (i, b) := a.getOrAdd f
      (some i, b)

/-- The slots that a sequence of edits gives. -/
def slotsGiven (a : Arena) : List Edit → List (Option Nat)
  | [] => []
  | e :: es => (a.edit e).1 :: (a.edit e).2.slotsGiven es

/-- Two graphs with the same files in the same slots, of which the second may
have one vacant slot more, at the end, if it has no other. -/
structure SameSlots (a b : Arena) : Prop where
  linked : a.Linked
  table : a.slots = b.slots
  nodes : b.nodes = a.nodes ∨ none ∉ a.nodes ∧ b.nodes = a.nodes ++ [none]

namespace SameSlots

variable {a b : Arena}

theorem slot? (h : SameSlots a b) (f : Path) : b.slot? f = a.slot? f := by
  rw [Arena.slot?, Arena.slot?, h.table]

theorem addNode (h : SameSlots a b) (n : FileNode) :
    (a.addNode n).1 = (b.addNode n).1
      ∧ SameSlots (a.addNode n).2 (b.addNode n).2 := by
  have hadd : Slots.add b.nodes n = Slots.add a.nodes n := by
    rcases h.nodes with hn | ⟨hfull, hn⟩
    · rw [hn]
    · rw [hn, Slots.add_append_none hfull]
  simp only [Arena.addNode, hadd, true_and]
  exact ⟨h.linked.addNode n, by rw [h.table], .inl rfl⟩

theorem getOrAdd (h : SameSlots a b) (f : Path) :
    (a.getOrAdd f).1 = (b.getOrAdd f).1
      ∧ SameSlots (a.getOrAdd f).2 (b.getOrAdd f).2 := by
  unfold Arena.getOrAdd
  rw [h.slot?]
  cases a.slot? f with
  | some i => exact ⟨rfl, h⟩
  | none => exact h.addNode _

theorem insertFile (h : SameSlots a b) (f : Path) (size : Nat) :
    (a.insertFile f size).1 = (b.insertFile f size).1
      ∧ SameSlots (a.insertFile f size).2 (b.insertFile f size).2 := by
  have hlinked := (h.linked.insertFile f size).linked
  unfold Arena.insertFile at hlinked ⊢
  rw [h.slot?]
  cases hslot : a.slot? f with
  | none => exact h.addNode _
  | some i =>
      rw [hslot] at hlinked
      refine ⟨rfl, hlinked, h.table, ?_⟩
      rcases h.nodes with hn | ⟨hfull, hn⟩
      · exact .inl (by rw [hn])
      · -- the slot has a file, so it is not the vacant one
        obtain ⟨n, hi⟩ := isSome_node?_iff.1 (h.linked.table hslot)
        have hlt := (List.getElem?_eq_some_iff.1 hi).1
        refine .inr ⟨fun hmem => ?_, ?_⟩
        · rcases List.mem_or_eq_of_mem_set hmem with hmem | heq
          · exact hfull hmem
          · cases heq
        · show b.nodes.set i _ = _
          rw [hn, List.set_append_left _ _ hlt]

theorem addEdge (h : SameSlots a b) {i j k l : Nat}
    (hlinked : (a.addEdge i j).Linked) :
    SameSlots (a.addEdge i j) (b.addEdge k l) := by
  have hnodes (c : Arena) (i j : Nat) :
      (c.addEdge i j).nodes = c.nodes ∧ (c.addEdge i j).slots = c.slots := by
    unfold Arena.addEdge
    split <;> exact ⟨rfl, rfl⟩
  refine ⟨hlinked, ?_, ?_⟩
  · rw [(hnodes a i j).2, (hnodes b k l).2, h.table]
  · rw [(hnodes a i j).1, (hnodes b k l).1]
    exact h.nodes

theorem edit (h : SameSlots a b) (e : Edit) :
    (a.edit e).1 = (b.edit e).1 ∧ SameSlots (a.edit e).2 (b.edit e).2 := by
  cases e with
  | insertFile f size =>
      exact (h.insertFile f size).imp_left (congrArg some)
  | getOrAdd f => exact (h.getOrAdd f).imp_left (congrArg some)
  | addInclude f g =>
      have hlinked := h.linked.addInclude f g
      exact ⟨rfl, ((h.getOrAdd f).2.getOrAdd g).2.addEdge hlinked⟩

theorem slotsGiven (h : SameSlots a b) (es : List Edit) :
    a.slotsGiven es = b.slotsGiven es := by
  induction es generalizing a b with
  | nil => rfl
  | cons e es ih =>
      obtain ⟨hslot, hnext⟩ := h.edit e
      rw [Arena.slotsGiven, Arena.slotsGiven, hslot, ih hnext]

end SameSlots

theorem linked_trimmed {a : Arena} (h : a.Linked) : a.trimmed.Linked where
  table hslot := by
    rw [node?_trimmed]
    exact h.table hslot
  edges he := by
    rw [node?_trimmed, node?_trimmed]
    exact h.edges ((Slots.trimmed_prefix a.edges).mem he)

/-- There is always a file that a graph does not have. -/
theorem exists_slot?_eq_none (a : Arena) : ∃ f, a.slot? f = none := by
  have hlonger (fs : List Path) : ∃ n, ∀ f ∈ fs, f.text.length < n := by
    induction fs with
    | nil => exact ⟨0, by simp⟩
    | cons f fs ih =>
        obtain ⟨n, hn⟩ := ih
        refine ⟨n + f.text.length + 1, List.forall_mem_cons.2 ⟨by omega, ?_⟩⟩
        intro g hg
        have := hn g hg
        omega
  obtain ⟨n, hn⟩ := hlonger a.slots.keys
  refine ⟨⟨String.ofList (List.replicate n 'x')⟩, ?_⟩
  refine Option.eq_none_iff_forall_ne_some.2 fun i hi => ?_
  have hlt := hn _ (FileMap.mem_keys.2 ⟨i, hi⟩)
  simp at hlt

/-- **When vacant slots at the end matter.** A graph and what is left of it
without them give the same slots to all that comes exactly if a vacant slot at
the end is the only vacant one. -/
theorem slotsGiven_trimmed_iff {a : Arena} (h : a.Linked) :
    (∀ es, a.trimmed.slotsGiven es = a.slotsGiven es)
      ↔ (a.nodes.getLast? = some none → none ∉ a.nodes.dropLast) := by
  constructor
  · intro hall hlast hvacant
    obtain ⟨slots, hslots⟩ := List.getLast?_eq_some_iff.1 hlast
    rw [hslots, List.dropLast_concat] at hvacant
    obtain ⟨f, hf⟩ := a.exists_slot?_eq_none
    have hf' : a.trimmed.slot? f = none := hf
    have hgiven := hall [.getOrAdd f]
    simp only [slotsGiven, edit, getOrAdd, hf, hf', addNode, List.cons.injEq,
      Option.some.injEq, and_true] at hgiven
    refine Slots.fst_add_trimmed_ne hvacant (.stub f) (.stub f) ?_
    rw [← hslots]
    exact hgiven
  · intro hvacant es
    refine SameSlots.slotsGiven (b := a) ⟨linked_trimmed h, rfl, ?_⟩ es
    by_cases hlast : a.nodes.getLast? = some none
    · have hfull := hvacant hlast
      obtain ⟨slots, hslots⟩ := List.getLast?_eq_some_iff.1 hlast
      rw [hslots, List.dropLast_concat] at hfull
      have hkept : a.trimmed.nodes = slots := by
        show Slots.trimmed a.nodes = slots
        rw [hslots, Slots.trimmed_append_none]
        refine Slots.trimmed_eq_self fun h => hfull ?_
        exact List.mem_of_getLast? h
      rw [hkept, hslots]
      exact .inr ⟨hfull, rfl⟩
    · exact .inl (Slots.trimmed_eq_self hlast).symm

end Arena

end IncludeBlock
