import IncludeBlock.Disk.Edit
import IncludeBlock.Json.Decode
import IncludeBlock.Json.Printer
import IncludeBlock.Json.Reader

/-!
# Disk images

A disk can be written as JSON: an object with the directory where relative
paths start and a list of items, each a path with what stands there. Items are
put on a disk in their order, with the directories they lie in.
-/

namespace IncludeBlock

/-! ## Bytes as hexadecimal digits -/

namespace Hex

/-- The digits of bytes, two for each. -/
def encode (bytes : List UInt8) : String :=
  String.ofList (bytes.flatMap fun b =>
    [Json.hexChar (b.toNat / 16), Json.hexChar (b.toNat % 16)])

/-- The bytes that pairs of digits write. -/
def bytesOf? : List Char → Option (List UInt8)
  | [] => some []
  | a :: b :: rest => do
      let high ← Json.hexDigit? (some a)
      let low ← Json.hexDigit? (some b)
      return UInt8.ofNat (high * 16 + low) :: (← bytesOf? rest)
  | _ => none

/-- The bytes that a text of digits writes. -/
def decode? (s : String) : Option (List UInt8) :=
  bytesOf? s.toList

end Hex

namespace Disk

/-! ## Items -/

/-- The disk with a directory and those it lies in. -/
def withDirectories? (d : Disk) (p : Path) : Option Disk :=
  match d.makeDirectories p with
  | (d', true) => some d'
  | _ => none

/-- Puts a node on a disk at a path, with the directories it lies in. -/
def place? (d : Disk) (p : Path) (node : Node) : Option Disk := do
  let d ← p.parent?.elim (some d) d.withDirectories?
  match node with
  | .file bytes => d.write? p bytes
  | .directory => d.withDirectories? p
  | .link target => d.makeLink? p target

/-- The member of an object that has a name; of several the last one. -/
def member? (v : Json) (name : String) : Option Json :=
  match v with
  | .object members =>
      (members.reverse.find? (fun a => a.1 == some name)).map (·.2)
  | _ => none

/-- What an item puts at its path: bytes as digits, a link, a directory, or a
file with a text, which is empty if it is not given. -/
def nodeOf? (item : Json) : Option Node :=
  match member? item "hex", member? item "link", member? item "dir" with
  | some digits, _, _ => do
      return .file (← Hex.decode? (← Json.asString digits))
  | none, some target, _ => do return .link (← Json.asPath target)
  | none, none, some (.bool true) => some .directory
  | none, none, _ => do
      let content ← Json.orDefault "" Json.asString (member? item "text")
      return .file (Text.encode content)

/-- Puts an item on a disk. -/
def addItem? (d : Disk) (item : Json) : Option Disk := do
  d.place? (← Json.asPath (← member? item "path")) (← nodeOf? item)

def itemOf (place : Location) (node : Node) : Json :=
  let content : String × Json := match node with
    | .file bytes => ("hex", .ofString (Hex.encode bytes))
    | .directory => ("dir", .bool true)
    | .link target => ("link", .ofString target.text)
  .record [("path", .ofString (pathOf place).text), content]

/-! ## Images -/

def toImage (d : Disk) : Json :=
  .record [
    ("working_directory", .ofString (pathOf d.workingDirectory).text),
    ("items", .ofList (fun a => itemOf a.1 a.2) d.nodes)]

/-- The disk of an image. The working directory is there without an item. -/
def ofImage? (image : Json) : Option Disk := do
  let [directory, items] ← image.fields? ["working_directory", "items"] | none
  let directory ← Json.orDefault (Path.mk "/") Json.asPath directory
  let items ← Json.orDefault [] (Json.asList some) items
  let empty : Disk :=
    { nodes := [], workingDirectory := (namesOf directory).filter (· ≠ "") }
  items.foldlM addItem? (← empty.withDirectories? directory)

end Disk

end IncludeBlock
