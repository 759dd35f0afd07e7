import IncludeBlock.Json.Decode
import IncludeBlock.Snapshot.Layout

/-!
# Graphs as JSON

The readable form of a graph: an object with the graph and the table of
paths.
-/

namespace IncludeBlock

/-- The bound of the numbers of slots. -/
def slotBound : Nat := Nat.pow 2 32

/-- A file of the graph as an object with its kind as the only name. -/
def FileNode.toJson : FileNode → Json
  | parsed file size =>
      .record [("Parsed", .array [.ofString file.text, .natural size])]
  | stub file => .record [("Stub", .ofString file.text)]

def FileNode.ofJson : Json.Decoder FileNode
  | .object [(some "Parsed", .array [file, size])] => do
      return .parsed (← Json.asPath file) (← Json.asWord size)
  | .object [(some "Stub", file)] => do
      return .stub (← Json.asPath file)
  | _ => none

namespace Layout

def asSlot : Json.Decoder Nat := Json.asNatBelow slotBound

/-- An edge slot as JSON: its two ends and the weight, which is always null,
or null for a vacant slot. -/
def edgeToJson : Option (Nat × Nat) → Json
  | none => .null
  | some (i, j) => .array [.natural i, .natural j, .null]

/-- The edge slot that a value gives. -/
def edgeOfJson : Json.Decoder (Option (Nat × Nat))
  | .null => some none
  | .array [i, j, .null] => do
      return some (← asSlot i, ← asSlot j)
  | _ => none

def toJson (l : Layout) : Json :=
  .record [
    ("graph", .record [
      ("nodes", .ofList FileNode.toJson l.nodes),
      ("node_holes", .ofList .natural l.holes),
      ("edge_property", .ofString "directed"),
      ("edges", .ofList edgeToJson l.edges)]),
    ("nodes", .record (l.slots.map fun a => (a.1.text, .natural a.2)))]

/-- The only kind of edges a snapshot has. -/
def asDirected : Json.Decoder Unit :=
  Json.asChoice fun name => if name = "directed" then some () else none

def asSlotTable : Json.Decoder (List (Path × Nat))
  | .object members => members.mapM fun a => do
      return (⟨← a.1⟩, ← asSlot a.2)
  | _ => none

def ofJson : Json.Decoder Layout := fun v => do
  let [graph, slots] ← v.fields? ["graph", "nodes"] | none
  let [nodes, holes, kind, edges] ← (← graph).fields?
    ["nodes", "node_holes", "edge_property", "edges"] | none
  Json.required asDirected kind
  return {
    nodes := ← Json.required (Json.asList FileNode.ofJson) nodes
    holes := ← Json.orDefault [] (Json.asList asSlot) holes
    edges := ← Json.required (Json.asList edgeOfJson) edges
    slots := ← Json.required asSlotTable slots }

end Layout

end IncludeBlock
