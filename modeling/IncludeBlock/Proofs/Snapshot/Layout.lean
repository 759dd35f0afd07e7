import IncludeBlock.Proofs.Files
import IncludeBlock.Snapshot.Readable
import Mathlib.Data.List.Induction
import Mathlib.Data.List.ReduceOption

/-!
# Graphs from their layout

A layout leaves out the vacant slots at the end and nothing else: the graph of
the layout of a graph is that graph with its slots *trimmed*. The two give the
same answers.
-/

namespace IncludeBlock

/-! ## Trimmed slots -/

namespace Slots

variable {α β : Type} {slots : List (Option α)} {i : Nat} {a : α}

@[simp] theorem trimmed_append_none (slots : List (Option α)) :
    trimmed (slots ++ [none]) = trimmed slots := by
  simp [trimmed]

@[simp] theorem trimmed_append_some (slots : List (Option α)) (a : α) :
    trimmed (slots ++ [some a]) = slots ++ [some a] := by
  simp [trimmed]

/-- Slots that do not end with a vacant one are all kept. -/
theorem trimmed_eq_self (h : slots.getLast? ≠ some none) :
    trimmed slots = slots := by
  rcases List.eq_nil_or_concat' slots with rfl | ⟨front, s, rfl⟩
  · rfl
  · cases s with
    | none => simp at h
    | some a => exact trimmed_append_some front a

/-- The slots that are not kept are vacant. -/
theorem exists_trimmed_append (slots : List (Option α)) :
    ∃ n, slots = trimmed slots ++ List.replicate n none := by
  induction slots using List.reverseRecOn with
  | nil => exact ⟨0, rfl⟩
  | append_singleton slots s ih =>
      cases s with
      | none =>
          obtain ⟨n, hn⟩ := ih
          refine ⟨n + 1, ?_⟩
          rw [trimmed_append_none, List.replicate_succ', ← List.append_assoc,
            ← hn]
      | some a => exact ⟨0, by simp⟩

theorem trimmed_prefix (slots : List (Option α)) : trimmed slots <+: slots := by
  obtain ⟨n, hn⟩ := exists_trimmed_append slots
  exact ⟨_, hn.symm⟩

/-- A slot that is not kept is like a vacant one. -/
theorem join_getElem?_trimmed (slots : List (Option α)) (i : Nat) :
    (trimmed slots)[i]?.join = slots[i]?.join := by
  obtain ⟨n, hn⟩ := exists_trimmed_append slots
  rw [congrArg (·[i]?.join) hn]
  rcases Nat.lt_or_ge i (trimmed slots).length with hi | hi
  · rw [List.getElem?_append_left hi]
  · rw [List.getElem?_append_right hi, List.getElem?_eq_none hi,
      List.getElem?_replicate]
    split <;> rfl

theorem lt_length_trimmed (h : slots[i]? = some (some a)) :
    i < (trimmed slots).length := by
  have hjoin := join_getElem?_trimmed slots i
  rw [h] at hjoin
  rcases Nat.lt_or_ge i (trimmed slots).length with hi | hi
  · exact hi
  · rw [List.getElem?_eq_none hi] at hjoin
    cases hjoin

/-- What only looks at elements does not see the vacant slots at the end. -/
theorem filterMap_trimmed (slots : List (Option α)) (f : α → Option β) :
    (trimmed slots).filterMap (·.bind f) = slots.filterMap (·.bind f) := by
  obtain ⟨n, hn⟩ := exists_trimmed_append slots
  rw [congrArg (List.filterMap (·.bind f)) hn]
  simp

/-! ## Elements and vacancies -/

theorem occupied_trimmed (slots : List (Option α)) :
    occupied (trimmed slots) = occupied slots := by
  induction slots using List.reverseRecOn with
  | nil => rfl
  | append_singleton slots s ih =>
      cases s with
      | none =>
          rw [trimmed_append_none, ih]
          simp [occupied, List.zipIdx_append]
      | some a => rw [trimmed_append_some]

/-- The elements in their order. -/
theorem map_snd_occupied (slots : List (Option α)) :
    (occupied slots).map (·.2) = slots.reduceOption := by
  have h (start : Nat) : ((slots.zipIdx start).filterMap fun a =>
      a.1.map fun x => (a.2, x)).map (·.2) = slots.reduceOption := by
    induction slots generalizing start with
    | nil => rfl
    | cons s slots ih => cases s <;> simp [List.zipIdx_cons, ih]
  exact h 0

/-- The numbers of the vacant slots if the first slot has the number
`start`. -/
def vacantFrom (start : Nat) (slots : List (Option α)) : List Nat :=
  (slots.zipIdx start).filterMap fun a => if a.1.isNone then some a.2 else none

@[simp] theorem vacantFrom_none (start : Nat) (slots : List (Option α)) :
    vacantFrom start (none :: slots)
      = start :: vacantFrom (start + 1) slots := rfl

@[simp] theorem vacantFrom_some (start : Nat) (a : α)
    (slots : List (Option α)) :
    vacantFrom start (some a :: slots) = vacantFrom (start + 1) slots := rfl

theorem le_of_mem_vacantFrom {start hole : Nat}
    (h : hole ∈ vacantFrom start slots) :
    start ≤ hole ∧ hole < start + slots.length := by
  induction slots generalizing start with
  | nil => simp [vacantFrom] at h
  | cons s slots ih =>
      cases s with
      | none =>
          rw [vacantFrom_none, List.mem_cons] at h
          rcases h with rfl | h
          · simp
          · have := ih h
            simp only [List.length_cons]
            omega
      | some a =>
          have := ih h
          simp only [List.length_cons]
          omega

/-- Every slot has an element or is vacant. -/
theorem length_add_length (start : Nat) (slots : List (Option α)) :
    slots.reduceOption.length + (vacantFrom start slots).length
      = slots.length := by
  induction slots generalizing start with
  | nil => rfl
  | cons s slots ih =>
      have := ih (start + 1)
      cases s <;> simp <;> omega

end Slots

/-! ## Spreading the nodes again -/

namespace Layout

/-- A node in front of all holes takes the first slot. -/
theorem spread_cons {total start : Nat} {n : FileNode} {nodes : List FileNode}
    {holes : List Nat} (h : ∀ hole ∈ holes, start + 1 ≤ hole) :
    spread total start (n :: nodes) holes
      = (spread total (start + 1) nodes holes).map (some n :: ·) := by
  cases holes with
  | nil => rfl
  | cons hole holes =>
      have hstart : start + 1 ≤ hole := h hole List.mem_cons_self
      have hskip : hole - start = (hole - (start + 1)) + 1 := by omega
      rw [spread, spread, hskip, List.drop_succ_cons, List.take_succ_cons]
      by_cases htotal : hole < total
      · rw [if_pos ⟨by omega, htotal⟩, if_pos ⟨hstart, htotal⟩]
        cases spread total (hole + 1) (nodes.drop (hole - (start + 1))) holes <;>
          rfl
      · rw [if_neg (fun h => htotal h.2), if_neg (fun h => htotal h.2)]
        rfl

/-- The elements and the vacant slots make up all slots. -/
theorem spread_vacantFrom {total start : Nat} {slots : List (Option FileNode)}
    (h : start + slots.length ≤ total) :
    spread total start slots.reduceOption (Slots.vacantFrom start slots)
      = some slots := by
  induction slots generalizing start with
  | nil => rfl
  | cons s slots ih =>
      rw [List.length_cons] at h
      have hrest := @ih (start + 1) (by omega)
      cases s with
      | none =>
          rw [List.reduceOption_cons_of_none, Slots.vacantFrom_none, spread,
            if_pos ⟨Nat.le_refl start, by omega⟩, Nat.sub_self, List.drop_zero,
            hrest]
          rfl
      | some n =>
          rw [List.reduceOption_cons_of_some, Slots.vacantFrom_some,
            spread_cons fun hole hm => (Slots.le_of_mem_vacantFrom hm).1, hrest]
          rfl

end Layout

/-! ## Numbers that fit -/

/-- The bound of sizes, counts and lengths. -/
def wordBound : Nat := Nat.pow 2 64

/-- The numbers of a layout fit their fields: those of slots into four bytes,
sizes, counts and lengths into eight. -/
structure Layout.Fits (l : Layout) : Prop where
  size : ∀ n ∈ l.nodes, ∀ size ∈ n.size?, size < wordBound
  path : ∀ n ∈ l.nodes, Text.byteLength n.path.text < wordBound
  hole : ∀ i ∈ l.holes, i < slotBound
  edge : ∀ e ∈ l.edges, ∀ a ∈ e, a.1 < slotBound ∧ a.2 < slotBound
  slot : ∀ a ∈ l.slots, a.2 < slotBound
  key : ∀ a ∈ l.slots, Text.byteLength a.1.text < wordBound
  count : l.nodes.length < wordBound ∧ l.holes.length < wordBound
    ∧ l.edges.length < wordBound ∧ l.slots.length < wordBound

/-! ## The graph of a layout -/

namespace Arena

/-- Every slot in the table and at the end of an edge holds a node. -/
structure Linked (a : Arena) : Prop where
  table : ∀ {f : Path} {i : Nat}, a.slot? f = some i → (a.node? i).isSome
  edges : ∀ {i j : Nat}, some (i, j) ∈ a.edges →
    (a.node? i).isSome ∧ (a.node? j).isSome

/-- The graph without the vacant slots at the end. -/
def trimmed (a : Arena) : Arena :=
  ⟨Slots.trimmed a.nodes, Slots.trimmed a.edges, a.slots⟩

theorem node?_eq_some_iff {a : Arena} {i : Nat} {n : FileNode} :
    a.node? i = some n ↔ a.nodes[i]? = some (some n) := by
  rw [node?, Option.join_eq_some_iff]

theorem lt_of_isSome_node? {a : Arena} {i : Nat} (h : (a.node? i).isSome) :
    i < (Slots.trimmed a.nodes).length := by
  obtain ⟨n, hn⟩ := Option.isSome_iff_exists.1 h
  exact Slots.lt_length_trimmed (node?_eq_some_iff.1 hn)

theorem nodes_layout (a : Arena) :
    a.layout.nodes = (Slots.trimmed a.nodes).reduceOption := by
  rw [layout, ← Slots.occupied_trimmed, Slots.map_snd_occupied]

theorem holes_layout (a : Arena) :
    a.layout.holes = Slots.vacantFrom 0 (Slots.trimmed a.nodes) := rfl

/-- What a machine can hold of a graph: slots are numbered with four bytes,
sizes and lengths are counted with eight. -/
structure Fits (a : Arena) : Prop where
  nodes : a.nodes.length ≤ slotBound
  edges : a.edges.length ≤ slotBound
  table : a.slots.size < wordBound
  size : ∀ s ∈ a.nodes, ∀ n ∈ s, ∀ size ∈ n.size?, size < wordBound
  path : ∀ s ∈ a.nodes, ∀ n ∈ s, Text.byteLength n.path.text < wordBound
  key : ∀ f ∈ a.slots.keys, Text.byteLength f.text < wordBound

theorem fits_layout {a : Arena} (hlinked : a.Linked) (h : a.Fits) :
    a.layout.Fits := by
  have hnode {n : FileNode} (hn : n ∈ a.layout.nodes) : some n ∈ a.nodes := by
    rw [nodes_layout, List.reduceOption_mem_iff] at hn
    exact (Slots.trimmed_prefix a.nodes).mem hn
  have hlength : (Slots.trimmed a.nodes).length ≤ slotBound :=
    Nat.le_trans (Slots.trimmed_prefix a.nodes).length_le h.nodes
  have hslot {i : Nat} (hi : (a.node? i).isSome) : i < slotBound :=
    Nat.lt_of_lt_of_le (lt_of_isSome_node? hi) hlength
  have hcount := Slots.length_add_length 0 (Slots.trimmed a.nodes)
  rw [← nodes_layout, ← holes_layout] at hcount
  have hedges : a.layout.edges.length ≤ slotBound :=
    Nat.le_trans (Slots.trimmed_prefix a.edges).length_le h.edges
  have hbound : slotBound < wordBound := by decide
  refine ⟨fun n hn => h.size _ (hnode hn) n rfl,
    fun n hn => h.path _ (hnode hn) n rfl, fun i hi => ?_, fun e he b hb => ?_,
    fun b hb => ?_, fun b hb => h.key _ (List.mem_map.2 ⟨b, hb, rfl⟩),
    by omega, by omega, by omega, h.table⟩
  · have hlt := (Slots.le_of_mem_vacantFrom hi).2
    omega
  · cases hb
    have hends := hlinked.edges ((Slots.trimmed_prefix a.edges).mem he)
    exact ⟨hslot hends.1, hslot hends.2⟩
  · exact hslot (hlinked.table (FileMap.get?_eq_some_iff.2 hb))

/-- **A layout keeps a graph** but for the vacant slots at the end. -/
theorem toArena?_layout {a : Arena} (h : a.Linked) :
    a.layout.toArena? = some a.trimmed := by
  have htotal : a.layout.nodes.length + a.layout.holes.length
      = (Slots.trimmed a.nodes).length := by
    rw [nodes_layout, holes_layout, Slots.length_add_length]
  have hspread : Layout.spread (Slots.trimmed a.nodes).length 0 a.layout.nodes
      a.layout.holes = some (Slots.trimmed a.nodes) := by
    rw [nodes_layout, holes_layout, Layout.spread_vacantFrom (by omega)]
  have htable : FileMap.ofList a.layout.slots = a.slots :=
    FileMap.ofList_toList a.slots
  rw [Layout.toArena?]
  simp only [htotal, hspread, htable, Option.bind_eq_bind, Option.bind_some]
  refine if_pos (List.all_eq_true.2 fun e he => ?_)
  cases e with
  | none => rfl
  | some e =>
      obtain ⟨hi, hj⟩ := h.edges ((Slots.trimmed_prefix a.edges).mem he)
      simp [lt_of_isSome_node? hi, lt_of_isSome_node? hj]

/-! ## Graphs that answer alike -/

/-- The ends of an edge. -/
def edge? (a : Arena) (i : Nat) : Option (Nat × Nat) :=
  a.edges[i]?.join

/-- The same node and the same edge have every number, the table is the same
and so are the answers about files. -/
structure Alike (a b : Arena) : Prop where
  node : ∀ i, a.node? i = b.node? i
  edge : ∀ i, a.edge? i = b.edge? i
  table : a.slots = b.slots
  files : a.files = b.files
  size : a.size = b.size
  includes : ∀ f, a.includes f = b.includes f
  byteSize : ∀ f, a.byteSize? f = b.byteSize? f
  knows : ∀ f, a.knows f = b.knows f

theorem node?_trimmed (a : Arena) (i : Nat) : a.trimmed.node? i = a.node? i :=
  Slots.join_getElem?_trimmed a.nodes i

theorem targets_trimmed (a : Arena) (i : Nat) :
    a.trimmed.targets i = a.targets i := by
  rw [targets, targets]
  simp only [node?_trimmed]
  exact congrArg FileSet.ofList (Slots.filterMap_trimmed a.edges _)

theorem alike_trimmed (a : Arena) : a.trimmed.Alike a where
  node := a.node?_trimmed
  edge := Slots.join_getElem?_trimmed a.edges
  table := rfl
  files := congrArg (List.map _) (Slots.occupied_trimmed a.nodes)
  size := congrArg List.length (Slots.occupied_trimmed a.nodes)
  includes f := by
    have hslot : a.trimmed.slot? f = a.slot? f := rfl
    simp only [includes, hslot, targets_trimmed]
  byteSize f := by
    show ((a.slot? f).bind a.trimmed.node?).bind FileNode.size? = _
    rw [funext a.node?_trimmed]
    rfl
  knows f := by
    show (((a.slot? f).bind a.trimmed.node?).bind FileNode.size?).isSome = _
    rw [funext a.node?_trimmed]
    rfl

end Arena

end IncludeBlock
