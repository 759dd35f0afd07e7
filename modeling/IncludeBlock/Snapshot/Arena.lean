import IncludeBlock.FileMap
import IncludeBlock.FileSet

/-!
# The include graph

A graph of files in numbered slots, with a table from paths to slots and a
numbered list of include edges. A graph that was read from a file may have
vacant slots; a new element takes the highest vacant slot, or a new slot at
the end if none is vacant.
-/

namespace IncludeBlock

/-- A file of the graph. -/
inductive FileNode where
  /-- The file was read and has a size. -/
  | parsed (file : Path) (size : Nat)
  /-- The file is only known as something included. -/
  | stub (file : Path)
deriving DecidableEq, Repr, Inhabited

namespace FileNode

def path : FileNode → Path
  | parsed file _ => file
  | stub file => file

/-- The size of a file that was read. -/
def size? : FileNode → Option Nat
  | parsed _ size => some size
  | stub _ => none

end FileNode

/-! ## Slots -/

namespace Slots

variable {α : Type}

/-- The number of the last vacant slot. -/
def lastVacant? : List (Option α) → Option Nat
  | [] => none
  | s :: rest =>
      match lastVacant? rest with
      | some i => some (i + 1)
      | none => if s.isNone then some 0 else none

/-- Puts an element into the last vacant slot, or behind all slots; gives its
number. -/
def add (slots : List (Option α)) (a : α) : Nat × List (Option α) :=
  match lastVacant? slots with
  | some i => (i, slots.set i (some a))
  | none => (slots.length, slots ++ [some a])

/-- The slot that is found is vacant. -/
theorem getElem?_lastVacant? {slots : List (Option α)} {i : Nat}
    (h : lastVacant? slots = some i) : slots[i]? = some none := by
  induction slots generalizing i with
  | nil => simp [lastVacant?] at h
  | cons s rest ih =>
      cases hr : lastVacant? rest with
      | some j =>
          simp only [lastVacant?, hr, Option.some.injEq] at h
          subst h
          simpa using ih hr
      | none =>
          cases s with
          | none => simp [lastVacant?, hr] at h; simp [← h]
          | some a => simp [lastVacant?, hr] at h

/-- A new element is in the slot that it was given. -/
theorem getElem?_add_self (slots : List (Option α)) (a : α) :
    (add slots a).2[(add slots a).1]? = some (some a) := by
  unfold add
  cases h : lastVacant? slots with
  | none => simp
  | some i =>
      have hi := getElem?_lastVacant? h
      have hlt : i < slots.length := by
        obtain ⟨hlt, _⟩ := List.getElem?_eq_some_iff.1 hi
        exact hlt
      simp [hlt]

/-- A taken slot keeps its element when another one is added. -/
theorem getElem?_add_of_some {slots : List (Option α)} {i : Nat} {b : α}
    (h : slots[i]? = some (some b)) (a : α) :
    (add slots a).2[i]? = some (some b) := by
  unfold add
  cases hv : lastVacant? slots with
  | none =>
      obtain ⟨hlt, _⟩ := List.getElem?_eq_some_iff.1 h
      rw [List.getElem?_append_left hlt, h]
  | some j =>
      have hj := getElem?_lastVacant? hv
      have hne : j ≠ i := by
        intro e
        subst e
        rw [hj] at h
        cases h
      rw [List.getElem?_set_ne hne, h]

/-- The elements with the numbers of their slots. -/
def occupied (slots : List (Option α)) : List (Nat × α) :=
  slots.zipIdx.filterMap fun a => a.1.map fun x => (a.2, x)

def vacant (slots : List (Option α)) : List Nat :=
  slots.zipIdx.filterMap fun a => if a.1.isNone then some a.2 else none

/-- The slots up to the last one that is taken. -/
def trimmed (slots : List (Option α)) : List (Option α) :=
  (slots.reverse.dropWhile Option.isNone).reverse

end Slots

/-! ## The graph -/

/-- Files, edges and the table of the slot of each path. -/
structure Arena where
  nodes : List (Option FileNode)
  edges : List (Option (Nat × Nat))
  slots : FileMap Nat
deriving Inhabited

namespace Arena

def empty : Arena := ⟨[], [], ∅⟩

def slot? (a : Arena) (f : Path) : Option Nat :=
  a.slots.get? f

def node? (a : Arena) (i : Nat) : Option FileNode :=
  (a.nodes[i]?).join

/-- A new file in a slot of its own. -/
def addNode (a : Arena) (n : FileNode) : Nat × Arena :=
  let (i, nodes) := Slots.add a.nodes n
  (i, { a with nodes := nodes, slots := a.slots.insert n.path i })

/-- The slot of a path; one that is new gets a stub. -/
def getOrAdd (a : Arena) (f : Path) : Nat × Arena :=
  match a.slot? f with
  | some i => (i, a)
  | none => a.addNode (.stub f)

/-- Records a file as read, with its size; gives its slot. -/
def insertFile (a : Arena) (f : Path) (size : Nat) : Nat × Arena :=
  match a.slot? f with
  | some i => (i, { a with nodes := a.nodes.set i (some (.parsed f size)) })
  | none => a.addNode (.parsed f size)

/-- Adds an edge between two slots unless there is one. -/
def addEdge (a : Arena) (i j : Nat) : Arena :=
  if some (i, j) ∈ a.edges then a
  else { a with edges := (Slots.add a.edges (i, j)).2 }

/-- Records that one file includes another; either is made if it is new. -/
def addInclude (a : Arena) (source target : Path) : Arena :=
  let (i, a) := a.getOrAdd source
  let (j, a) := a.getOrAdd target
  a.addEdge i j

/-! ## Questions about files -/

/-- The files with their slots, in the order of the slots. -/
def occupied (a : Arena) : List (Nat × FileNode) :=
  Slots.occupied a.nodes

/-- The paths of the files, in the order of their slots. -/
def files (a : Arena) : List Path :=
  a.occupied.map (·.2.path)

def size (a : Arena) : Nat :=
  a.occupied.length

/-- The files that the file in a slot includes; an edge to a vacant slot names
none. -/
def targets (a : Arena) (i : Nat) : FileSet :=
  .ofList <| a.edges.filterMap fun e =>
    e.bind fun (k, j) => if k = i then (a.node? j).map FileNode.path else none

/-- Whether the edges from a slot lead to files. -/
def isAnchored (a : Arena) (i : Nat) : Bool :=
  a.edges.all fun e => e.all fun (k, j) => k != i || (a.node? j).isSome

def includes (a : Arena) (f : Path) : FileSet :=
  match a.slot? f with
  | some i => a.targets i
  | none => ∅

/-- What is answered to the question what a file includes. There is no answer
if an edge leads to a vacant slot, which has no file to name. -/
def includes? (a : Arena) (f : Path) : Option FileSet :=
  if (a.slot? f).all a.isAnchored then some (a.includes f) else none

def fileNode? (a : Arena) (f : Path) : Option FileNode :=
  (a.slot? f).bind a.node?

/-- The size of a file that was read. -/
def byteSize? (a : Arena) (f : Path) : Option Nat :=
  (a.fileNode? f).bind FileNode.size?

def knows (a : Arena) (f : Path) : Bool :=
  (a.byteSize? f).isSome

/-- Whether there is an answer to the questions for the size of a file and
whether it was read. There is none if its slot is vacant. -/
def isPlaced (a : Arena) (f : Path) : Bool :=
  (a.slot? f).all fun i => (a.node? i).isSome

/-- The graph of a table: each row is a file that was read, its size and what
it includes. -/
def ofRows (rows : List (Path × Nat × List Path)) : Arena :=
  rows.foldl (fun a r =>
    r.2.2.foldl (fun a target => a.addInclude r.1 target)
      (a.insertFile r.1 r.2.1).2) empty

end Arena

end IncludeBlock
