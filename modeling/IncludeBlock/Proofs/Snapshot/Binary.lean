import IncludeBlock.Proofs.Snapshot.Layout
import IncludeBlock.Proofs.Text.Utf8
import IncludeBlock.Snapshot.Binary

/-!
# The binary form is read back

Each part is read from its own bytes, whatever follows them. Parts follow each
other in the order in which they are read, so a whole layout is read part by
part.
-/

namespace IncludeBlock.Binary

variable {α β : Type}

/-! ## Parts -/

/-- A part is read from its bytes and nothing behind them is taken. -/
def Reads (read : Reader α) (bytes : List UInt8) (a : α) : Prop :=
  ∀ rest, read (bytes ++ rest) = some (a, rest)

theorem reads_pure (a : α) : Reads (pure a) [] a := fun _ => rfl

/-- One part behind the other. -/
theorem Reads.bind {read : Reader α} {next : α → Reader β}
    {bytes bytes' : List UInt8} {a : α} {b : β} (h : Reads read bytes a)
    (h' : Reads (next a) bytes' b) : Reads (read >>= next) (bytes ++ bytes') b := by
  intro rest
  show (read (bytes ++ bytes' ++ rest)).bind _ = _
  rw [List.append_assoc, h]
  exact h' rest

theorem Reads.map {read : Reader α} {bytes : List UInt8} {a : α}
    (h : Reads read bytes a) (f : α → β) : Reads (f <$> read) bytes (f a) := by
  intro rest
  show (read (bytes ++ rest)).bind _ = _
  rw [h]
  rfl

/-- What is left to be read of a part may be nothing. -/
theorem Reads.last {read : Reader α} {next : α → Reader β}
    {bytes : List UInt8} {a : α} {b : β} (h : Reads read bytes a)
    (h' : Reads (next a) [] b) : Reads (read >>= next) bytes b := by
  have := h.bind h'
  rwa [List.append_nil] at this

/-! ## Numbers and texts -/

theorem reads_take {count : Nat} {bytes : List UInt8}
    (h : bytes.length = count) : Reads (take count) bytes bytes := by
  intro rest
  subst h
  simp [take]

theorem length_bytesOf (count n : Nat) : (bytesOf count n).length = count := by
  induction count generalizing n with
  | zero => rfl
  | succ count ih => rw [bytesOf, List.length_cons, ih]

theorem ofBytes_bytesOf {count n : Nat} (h : n < Nat.pow 256 count) :
    ofBytes (bytesOf count n) = n := by
  induction count generalizing n with
  | zero => exact (Nat.lt_one_iff.1 h).symm
  | succ count ih =>
      have hpow : Nat.pow 256 (count + 1) = Nat.pow 256 count * 256 := rfl
      have hrest : n / 256 < Nat.pow 256 count := by omega
      rw [bytesOf, ofBytes, ih hrest, Text.toNat_ofNat (by omega)]
      omega

theorem reads_word {n : Nat} (h : n < wordBound) : Reads readWord (word n) n := by
  have := (reads_take (length_bytesOf 8 n)).map ofBytes
  rwa [ofBytes_bytesOf h] at this

theorem reads_half {n : Nat} (h : n < slotBound) :
    Reads readHalf (half n) n := by
  have := (reads_take (length_bytesOf 4 n)).map ofBytes
  rwa [ofBytes_bytesOf h] at this

theorem reads_text {s : String} (h : Text.byteLength s < wordBound) :
    Reads readText (text s) s := by
  refine (reads_word h).bind ((reads_take rfl).last ?_)
  rw [Text.decode_encode]
  exact reads_pure s

/-! ## Lists -/

theorem reads_repeated {read : Reader α} {f : α → List UInt8} {as : List α}
    (h : ∀ a ∈ as, Reads read (f a) a) :
    Reads (repeated read as.length) (as.flatMap f) as := by
  induction as with
  | nil => exact reads_pure []
  | cons a as ih =>
      obtain ⟨ha, has⟩ := List.forall_mem_cons.1 h
      exact ha.bind ((ih has).last (reads_pure (a :: as)))

theorem reads_list {read : Reader α} {f : α → List UInt8} {as : List α}
    (hcount : as.length < wordBound) (h : ∀ a ∈ as, Reads read (f a) a) :
    Reads (readList read) (list f as) as :=
  (reads_word hcount).bind (reads_repeated h)

/-! ## Graphs -/

theorem reads_node {n : FileNode} (hsize : ∀ size ∈ n.size?, size < wordBound)
    (hpath : Text.byteLength n.path.text < wordBound) :
    Reads readNode (node n) n := by
  cases n with
  | parsed file size =>
      rw [node, List.append_assoc]
      refine (reads_half (n := 0) (by decide)).bind ?_
      exact (reads_text hpath).bind ((reads_word (hsize size rfl)).last
        (reads_pure _))
  | stub file =>
      refine (reads_half (n := 1) (by decide)).bind ?_
      exact (reads_text hpath).last (reads_pure _)

theorem reads_edge {e : Option (Nat × Nat)}
    (h : ∀ a ∈ e, a.1 < slotBound ∧ a.2 < slotBound) :
    Reads readEdge (edge e) e := by
  have hmark (b : UInt8) : Reads (take 1) [b] [b] := reads_take rfl
  cases e with
  | none => exact (hmark 0).last (reads_pure none)
  | some e =>
      obtain ⟨hi, hj⟩ := h e rfl
      refine (hmark 1).bind ?_
      exact (reads_half hi).bind ((reads_half hj).last (reads_pure _))

/-- **A layout is read back from its bytes.** -/
theorem reads_layout {l : Layout} (h : l.Fits) :
    Reads readLayout (layout l) l := by
  obtain ⟨hnodes, hholes, hedges, hslots⟩ := h.count
  rw [layout, graph, List.append_assoc, List.append_assoc, List.append_assoc]
  refine (reads_list hnodes fun n hn =>
    reads_node (h.size n hn) (h.path n hn)).bind ?_
  refine (reads_list hholes fun i hi => reads_half (h.hole i hi)).bind ?_
  refine (reads_half (n := directed) (by decide)).bind ?_
  rw [if_pos rfl]
  refine (reads_list hedges fun e he => reads_edge (h.edge e he)).bind ?_
  refine (reads_list hslots fun a ha => ?_).last (reads_pure _)
  exact (reads_text (h.key a ha)).bind ((reads_half (h.slot a ha)).last
    (reads_pure _))

theorem ofBytes?_layout {l : Layout} (h : l.Fits) :
    ofBytes? (layout l) = some l := by
  have hread := reads_layout h []
  rw [List.append_nil] at hread
  rw [ofBytes?, hread]
  rfl

end IncludeBlock.Binary
