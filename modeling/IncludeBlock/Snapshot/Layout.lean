import IncludeBlock.Snapshot.Arena

/-!
# How a graph is laid out in a file

A file lists the files of the graph in the order of their slots and, beside
them, the numbers of the vacant slots in ascending order; edges are listed
with their vacant slots in place. Vacant slots at the end are not written.
-/

namespace IncludeBlock

/-- The parts of a graph as a file lists them. -/
structure Layout where
  nodes : List FileNode
  holes : List Nat
  edges : List (Option (Nat × Nat))
  slots : List (Path × Nat)
deriving DecidableEq, Repr

namespace Layout

/-- The slots that hold the nodes in order and leave the holes vacant, from
slot `start` on. A hole has to come at or behind `start` and before
`total`. -/
def spread (total : Nat) : (start : Nat) → List FileNode → List Nat →
    Option (List (Option FileNode))
  | _, nodes, [] => some (nodes.map some)
  | start, nodes, hole :: holes =>
      -- The nodes between two holes fill the slots between them.
      if start ≤ hole ∧ hole < total then do
        let rest ← spread total (hole + 1) (nodes.drop (hole - start)) holes
        return (nodes.take (hole - start)).map some ++ none :: rest
      else none

/-- The graph of a layout. Holes have to ascend within the slots, and edges
have to join slots. -/
def toArena? (l : Layout) : Option Arena := do
  let total := l.nodes.length + l.holes.length
  let nodes ← spread total 0 l.nodes l.holes
  if l.edges.all (fun e => e.all fun (i, j) => i < total && j < total) then
    return ⟨nodes, l.edges, FileMap.ofList l.slots⟩
  else none

end Layout

def Arena.layout (a : Arena) : Layout where
  nodes := (Slots.occupied a.nodes).map (·.2)
  holes := Slots.vacant (Slots.trimmed a.nodes)
  edges := Slots.trimmed a.edges
  slots := a.slots.toList

end IncludeBlock
