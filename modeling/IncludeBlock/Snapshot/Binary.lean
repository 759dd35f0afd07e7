import IncludeBlock.Snapshot.Layout
import IncludeBlock.Text.Utf8

/-!
# Graphs as bytes

The binary form of a graph: whole numbers with their lowest byte first, and
lists and texts behind their length. What follows the last part is not looked
at.
-/

namespace IncludeBlock.Binary

/-! ## Writing -/

/-- The lowest `count` bytes of a number, lowest first. -/
def bytesOf : (count : Nat) → Nat → List UInt8
  | 0, _ => []
  | count + 1, n => UInt8.ofNat (n % 256) :: bytesOf count (n / 256)

def word (n : Nat) : List UInt8 := bytesOf 8 n

def half (n : Nat) : List UInt8 := bytesOf 4 n

/-- A text behind the number of its bytes. -/
def text (s : String) : List UInt8 :=
  word (Text.encode s).length ++ Text.encode s

/-- The elements of a list behind their number. -/
def list {α : Type} (f : α → List UInt8) (as : List α) : List UInt8 :=
  word as.length ++ as.flatMap f

/-- A file of the graph behind the number of its kind. -/
def node : FileNode → List UInt8
  | .parsed file size => half 0 ++ text file.text ++ word size
  | .stub file => half 1 ++ text file.text

/-- An edge slot: whether it is taken, and the ends of its edge. -/
def edge : Option (Nat × Nat) → List UInt8
  | none => [0]
  | some (i, j) => 1 :: half i ++ half j

/-- The number that stands for directed edges. -/
def directed : Nat := 1

/-- The bytes of the files and edges of a graph. -/
def graph (l : Layout) : List UInt8 :=
  list node l.nodes ++ list half l.holes ++ half directed ++ list edge l.edges

/-- The bytes of a graph with its table of paths. -/
def layout (l : Layout) : List UInt8 :=
  graph l ++ list (fun a => text a.1.text ++ half a.2) l.slots

/-! ## Reading -/

/-- Reading a part from the front of a byte sequence. -/
abbrev Reader (α : Type) := StateT (List UInt8) Option α

def take (count : Nat) : Reader (List UInt8) := fun bs =>
  if count ≤ bs.length then some (bs.take count, bs.drop count) else none

/-- The number of which bytes are the digits, lowest first. -/
def ofBytes : List UInt8 → Nat
  | [] => 0
  | b :: bs => b.toNat + 256 * ofBytes bs

def readWord : Reader Nat := ofBytes <$> take 8

def readHalf : Reader Nat := ofBytes <$> take 4

/-- A text behind its length. -/
def readText : Reader String := do
  match Text.decode (← take (← readWord)) with
  | some s => return s
  | none => failure

/-- Reads the same kind of part a number of times. -/
def repeated {α : Type} (read : Reader α) : Nat → Reader (List α)
  | 0 => return []
  | n + 1 => do
      let a ← read
      let as ← repeated read n
      return a :: as

/-- The elements of a list behind their number. -/
def readList {α : Type} (read : Reader α) : Reader (List α) := do
  repeated read (← readWord)

def readNode : Reader FileNode := do
  match ← readHalf with
  | 0 => return .parsed ⟨← readText⟩ (← readWord)
  | 1 => return .stub ⟨← readText⟩
  | _ => failure

/-- An edge slot. -/
def readEdge : Reader (Option (Nat × Nat)) := do
  match ← take 1 with
  | [0] => return none
  | [1] => return some (← readHalf, ← readHalf)
  | _ => failure

/-- A graph with its table of paths. -/
def readLayout : Reader Layout := do
  let nodes ← readList readNode
  let holes ← readList readHalf
  let kind ← readHalf
  if kind = directed then
    let edges ← readList readEdge
    let slots ← readList do return (⟨← readText⟩, ← readHalf)
    return { nodes, holes, edges, slots }
  else failure

def ofBytes? (bytes : List UInt8) : Option Layout :=
  (readLayout bytes).map (·.1)

end IncludeBlock.Binary
