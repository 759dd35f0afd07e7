import IncludeBlock.Disk.Basic

/-!
# Changing a disk

A change of one node gives the new disk, or nothing where the system would
refuse. A change of several also tells how far it came.
-/

namespace IncludeBlock.Disk

/-- The disk with a node at a place. -/
def put (d : Disk) (place : Location) (node : Node) : Disk :=
  { d with nodes := (place, node) :: d.nodes.filter (fun a => a.1 != place) }

theorem node?_put_self {d : Disk} {place : Location} (h : place ≠ [])
    (node : Node) : (d.put place node).node? place = some node := by
  simp [node?, put, h]

theorem node?_put_of_ne {d : Disk} {place other : Location} (h : other ≠ place)
    (node : Node) : (d.put place node).node? other = d.node? other := by
  by_cases ho : other = []
  · simp [node?, ho]
  · have hb : (place == other) = false := by simpa using Ne.symm h
    simp only [node?, ho, if_false, put, List.find?_cons, hb]
    rw [List.find?_filter]
    congr 2
    funext a
    by_cases ha : a.1 = other <;> simp [ha, h]

/-- The disk without the node at a place and all that lies below it. -/
def clear (d : Disk) (place : Location) : Disk :=
  { d with nodes := d.nodes.filter (fun a => !place.isPrefixOf a.1) }

/-- Whether a node may get the last name of a place. -/
def isNameable (place : Location) : Bool :=
  (place.getLast?.map Text.byteLength).getD 0 ≤ 255

/-- The free place that a path names, if it names one that may be taken. -/
def freePlace? (d : Disk) (through : Bool) (p : Path) : Option Location :=
  match d.lookup through p with
  | some (.vacant place) => if isNameable place then some place else none
  | _ => none

/-- A path without the separators at its end. -/
def withoutEnd (p : Path) : Path :=
  ⟨String.ofList (p.text.toList.reverse.dropWhile (· == '/')).reverse⟩

/-- Makes one directory; there must be nothing yet. -/
def makeDirectory? (d : Disk) (p : Path) : Option Disk :=
  (d.freePlace? false (withoutEnd p)).map fun place => d.put place .directory

/-- Makes a directory and those it lies in, at most `depth` of them, and tells
whether they are all there then. Those that were made stay if a later one is
refused. -/
def makeDirectoriesWithin : (depth : Nat) → Disk → Path → Disk × Bool
  | 0, d, _ => (d, false)
  | depth + 1, d, p =>
      if p.components = [] then (d, true)
      else
        match d.makeDirectory? p with
        | some d' => (d', true)
        | none =>
            if d.isDirectory p then (d, true)
            else
              match p.parent? with
              | some dir =>
                  -- Where the whole path is refused, nothing above it is made.
                  if isUsable p then
                    match makeDirectoriesWithin depth d dir with
                    | (d', true) =>
                        match d'.makeDirectory? p with
                        | some d'' => (d'', true)
                        | none => (d', d'.isDirectory p)
                    | (d', false) => (d', false)
                  else (d, false)
              | none => (d, false)

/-- Makes a directory and those it lies in, unless they are there. A path has
fewer directories above it than characters. -/
def makeDirectories (d : Disk) (p : Path) : Disk × Bool :=
  makeDirectoriesWithin (p.text.length + 1) d p

/-- Writes a file, in place of its old bytes if there is one. -/
def write? (d : Disk) (p : Path) (bytes : List UInt8) : Option Disk :=
  match d.lookup true p with
  | some (.present place (.file _)) => some (d.put place (.file bytes))
  | _ => (d.freePlace? true p).map fun place => d.put place (.file bytes)

/-- Writes a file and first makes the directories it lies in; tells whether it
is written. The directories stay if it is not. -/
def save (d : Disk) (p : Path) (bytes : List UInt8) : Disk × Bool :=
  match p.parent?.elim (d, true) d.makeDirectories with
  | (d', true) =>
      match d'.write? p bytes with
      | some d'' => (d'', true)
      | none => (d', false)
  | (d', false) => (d', false)

/-- Makes a symbolic link where there is nothing yet. -/
def makeLink? (d : Disk) (p target : Path) : Option Disk :=
  (d.freePlace? false p).map fun place => d.put place (.link target)

/-- Takes away what a path names, without following a link at its end. -/
def remove (d : Disk) (p : Path) : Disk :=
  match d.lookup false p with
  | some (.present place _) => d.clear place
  | _ => d

end IncludeBlock.Disk
