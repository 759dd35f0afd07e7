import IncludeBlock.Proofs.Json.ReadBack
import IncludeBlock.Proofs.Snapshot.Layout
import IncludeBlock.Snapshot.File

/-!
# The readable form is read back

A layout whose numbers fit their fields is what is read from its own JSON, and
from a file that holds it.
-/

namespace IncludeBlock

/-! ## Values of one kind -/

namespace Json

variable {α : Type} {encode : α → Json} {decode : Decoder α} {as : List α}

theorem asList_ofList (h : ∀ a ∈ as, decode (encode a) = some a) :
    asList decode (ofList encode as) = some as := by
  rw [ofList, asList]
  induction as with
  | nil => rfl
  | cons a as ih =>
      obtain ⟨ha, has⟩ := List.forall_mem_cons.1 h
      rw [List.map_cons, List.mapM_cons, ha, ih has]
      rfl

theorem legible_ofList (h : ∀ a ∈ as, Legible (encode a)) :
    Legible (ofList encode as) :=
  legible_array (List.forall_mem_map.2 h)

theorem asNatBelow_natural {bound n : Nat} (h : n < bound) :
    asNatBelow bound (.natural n) = some n := by
  rw [asNatBelow, if_pos h]

end Json

/-! ## Nodes and edges -/

namespace FileNode

theorem legible_toJson (n : FileNode) : Json.Legible n.toJson := by
  cases n with
  | parsed file size =>
      refine Json.legible_record (List.forall_mem_singleton.2 ?_)
      refine Json.legible_array (List.forall_mem_cons.2
        ⟨Json.legible_string file.text, List.forall_mem_singleton.2 ?_⟩)
      exact Json.legible_natural size
  | stub file =>
      exact Json.legible_record (List.forall_mem_singleton.2
        (Json.legible_string file.text))

theorem ofJson_toJson {n : FileNode} (h : ∀ size ∈ n.size?, size < wordBound) :
    ofJson n.toJson = some n := by
  cases n with
  | parsed file size =>
      have hsize : Json.asWord (.natural size) = some size :=
        Json.asNatBelow_natural (h size rfl)
      simp [toJson, ofJson, Json.record, Json.ofString, Json.asPath,
        Json.asString, hsize]
  | stub file => rfl

end FileNode

namespace Layout

theorem legible_edgeToJson (e : Option (Nat × Nat)) :
    Json.Legible (edgeToJson e) := by
  cases e with
  | none => exact Json.legible_null
  | some e =>
      refine Json.legible_array ?_
      simp only [List.mem_cons, List.not_mem_nil, or_false, forall_eq_or_imp,
        forall_eq]
      exact ⟨Json.legible_natural e.1, Json.legible_natural e.2,
        Json.legible_null⟩

theorem edgeOfJson_edgeToJson {e : Option (Nat × Nat)}
    (h : ∀ a ∈ e, a.1 < slotBound ∧ a.2 < slotBound) :
    edgeOfJson (edgeToJson e) = some e := by
  cases e with
  | none => rfl
  | some e =>
      obtain ⟨hi, hj⟩ := h e rfl
      simp [edgeToJson, edgeOfJson, asSlot, Json.asNatBelow_natural hi,
        Json.asNatBelow_natural hj]

theorem asSlotTable_record {slots : List (Path × Nat)}
    (h : ∀ a ∈ slots, a.2 < slotBound) :
    asSlotTable (.record (slots.map fun a => (a.1.text, .natural a.2)))
      = some slots := by
  rw [Json.record, asSlotTable]
  induction slots with
  | nil => rfl
  | cons a slots ih =>
      obtain ⟨ha, hslots⟩ := List.forall_mem_cons.1 h
      rw [List.map_cons, List.map_cons, List.mapM_cons, ih hslots]
      simp [asSlot, Json.asNatBelow_natural ha]

/-! ## Layouts -/

theorem legible_toJson (l : Layout) : Json.Legible l.toJson := by
  refine Json.legible_record ?_
  simp only [List.mem_cons, List.not_mem_nil, or_false, forall_eq_or_imp,
    forall_eq]
  constructor
  · refine Json.legible_record ?_
    simp only [List.mem_cons, List.not_mem_nil, or_false, forall_eq_or_imp,
      forall_eq]
    exact ⟨Json.legible_ofList fun n _ => n.legible_toJson,
      Json.legible_ofList fun i _ => Json.legible_natural i,
      Json.legible_string _,
      Json.legible_ofList fun e _ => legible_edgeToJson e⟩
  · refine Json.legible_record (List.forall_mem_map.2 fun a _ => ?_)
    exact Json.legible_natural a.2

/-- **A layout is read back from its JSON.** -/
theorem ofJson_toJson {l : Layout} (h : l.Fits) : ofJson l.toJson = some l := by
  have hnodes : Json.asList FileNode.ofJson (.ofList FileNode.toJson l.nodes)
      = some l.nodes :=
    Json.asList_ofList fun n hn => FileNode.ofJson_toJson (h.size n hn)
  have hholes : Json.asList asSlot (.ofList .natural l.holes)
      = some l.holes :=
    Json.asList_ofList fun i hi => Json.asNatBelow_natural (h.hole i hi)
  have hedges : Json.asList edgeOfJson (.ofList edgeToJson l.edges)
      = some l.edges :=
    Json.asList_ofList fun e he => edgeOfJson_edgeToJson (h.edge e he)
  have hslots := asSlotTable_record h.slot
  have hkind : asDirected (.ofString "directed") = some () := rfl
  -- the members of the two records, in the order of their names
  have hfields (graph slots : Json) :
      (Json.record [("graph", graph), ("nodes", slots)]).fields?
        ["graph", "nodes"] = some [some graph, some slots] := rfl
  have hparts (nodes holes kind edges : Json) :
      (Json.record [("nodes", nodes), ("node_holes", holes),
        ("edge_property", kind), ("edges", edges)]).fields?
        ["nodes", "node_holes", "edge_property", "edges"]
        = some [some nodes, some holes, some kind, some edges] := rfl
  simp only [ofJson, toJson, hfields, hparts, Json.required, Json.orDefault,
    hnodes, hholes, hedges, hslots, hkind, Option.bind_eq_bind,
    Option.bind_some]
  rfl

end Layout

/-! ## Files -/

theorem Disk.readAs_eq {α : Type} {decode : Json.Decoder α} {d : Disk}
    {p : Path} {bytes : List UInt8} {v : Json} {a : α}
    (hopen : d.open? p = .ok (some bytes))
    (hparse : Json.parse? bytes = some v) (hdecode : decode v = some a) :
    d.readAs decode p = .ok a := by
  have hjson : d.readJson p = .ok v := by
    simp only [Disk.readJson, hopen, bind, Except.bind, Option.bind_some,
      hparse]
    rfl
  simp only [Disk.readAs, hjson, bind, Except.bind, hdecode]
  rfl

/-- A file of the readable form is read. -/
theorem Snapshot.load_of_compact {d : Disk} {p : Path} {l : Layout} {a : Arena}
    (hform : isReadable p = true)
    (hopen : d.open? p = .ok (some (Text.encode l.toJson.compact)))
    (harena : (Layout.ofJson l.toJson).bind Layout.toArena? = some a)
    (v : Versions) : load d p v = .ok (stamped a v) := by
  have hread : readArena d p = .ok a := by
    rw [readArena, if_pos hform]
    exact Disk.readAs_eq hopen (Json.parse?_compact l.legible_toJson) harena
  rw [load, hread]
  rfl

end IncludeBlock
