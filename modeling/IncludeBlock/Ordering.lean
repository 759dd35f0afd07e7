import IncludeBlock.Entry
import IncludeBlock.Failure
import IncludeBlock.Sorting

/-!
# Order and groups of a block

Entries are put in order by what they include, and entries of unrelated
directories are set apart as groups.
-/

namespace IncludeBlock

/-- How a block is put in order. -/
inductive Order where
  /-- The project's files, then other libraries, then the system's; within
  each the paths descend. -/
  | specificFirst
  /-- The reverse of `specificFirst`. -/
  | generalFirst
  /-- Entries stay where they are. -/
  | keepCurrent
  | alphabetical
deriving DecidableEq, Repr, Inhabited

namespace Order

def display : Order → String
  | specificFirst => "specific-first"
  | generalFirst => "general-first"
  | keepCurrent => "keep-current"
  | alphabetical => "alphabetical"

/-- The name of an order in a settings file. -/
def settingName : Order → String
  | specificFirst => "SpecificFirst"
  | generalFirst => "GeneralFirst"
  | keepCurrent => "KeepCurrent"
  | alphabetical => "Alphabetical"

/-- The order of a name in a settings file. -/
def ofSettingName? (s : String) : Option Order :=
  [specificFirst, generalFirst, keepCurrent, alphabetical].find?
    (·.settingName == s)

/-- The names by which a user may ask for an order. -/
def names : List (String × Order) :=
  [("specificfirst", specificFirst), ("specific-first", specificFirst),
    ("specific", specificFirst), ("generalfirst", generalFirst),
    ("general-first", generalFirst), ("general", generalFirst),
    ("keepcurrent", keepCurrent), ("keep-current", keepCurrent),
    ("keep", keepCurrent), ("alphabetical", alphabetical),
    ("alpha", alphabetical)]

/-- The order that a user asks for; blanks around the name and the case of its
letters do not count. -/
def parse (s : String) : Except Failure Order :=
  match names.lookup (Text.lower (Text.trim s)) with
  | some order => .ok order
  | none => .error (.unknownOrder s)

end Order

/-! ## Buckets -/

/-- Where an included file belongs. -/
inductive Bucket where
  | project
  | other
  | system
deriving DecidableEq, Repr

/-- The place of a bucket in the sequence from the specific to the general. -/
def Bucket.rank : Bucket → Nat
  | project => 0
  | other => 1
  | system => 2

/-- An order together with the directories that tell where a file belongs. -/
structure OrderingPolicy where
  order : Order
  projectRoot : Path
  systemRoot : Path

namespace OrderingPolicy

/-- The bucket of an entry; files that are not known belong to neither the
project nor the system. -/
def bucket (p : OrderingPolicy) (e : Entry) : Bucket :=
  if !e.isResolved then .other
  else if e.file.isWithin p.projectRoot then .project
  else if e.file.isWithin p.systemRoot then .system
  else .other

/-- Whether `a` may stand before `b` from the specific to the general: by
ascending buckets, and by descending keys within one. -/
def specificLe (p : OrderingPolicy) (a b : Entry) : Bool :=
  let i := (p.bucket a).rank
  let j := (p.bucket b).rank
  i < j || (i == j && !decide (a.sortKey < b.sortKey))

/-- Whether `a` may stand before `b` in the order of their keys. -/
def keyLe (a b : Entry) : Bool :=
  !decide (b.sortKey < a.sortKey)

end OrderingPolicy

/-! ## Groups -/

/-- The directory an entry is grouped by, empty for a bare spelling. -/
def Entry.groupDirectory (e : Entry) : Path :=
  let p : Path := ⟨e.sortKey⟩
  p.parent?.getD p

/-- Whether entries of two directories stand together: one lies within the
other, or both are bare. -/
def related (a b : Path) : Bool :=
  if a.isEmpty || b.isEmpty then a.isEmpty && b.isEmpty
  else a.startsWith b || b.startsWith a

/-- Gives groups to the entries behind one in `directory`, whose group is
`group`: a new group starts at an unrelated directory. -/
def assignGroupsAfter (directory : Path) (group : Nat) :
    List Entry → List Entry
  | [] => []
  | e :: es =>
      let next :=
        if related e.groupDirectory directory then group else group + 1
      { e with group := next } :: assignGroupsAfter e.groupDirectory next es

/-- Gives groups to entries in their order, from group 0 on. -/
def assignGroups : List Entry → List Entry
  | [] => []
  | e :: es => { e with group := 0 } :: assignGroupsAfter e.groupDirectory 0 es

/-- Puts entries in order and gives them their groups. -/
def OrderingPolicy.apply (p : OrderingPolicy) (es : List Entry) : List Entry :=
  match p.order with
  | .keepCurrent => es
  | .alphabetical =>
      (Sorting.sortBy OrderingPolicy.keyLe es).map ({ · with group := 0 })
  | .specificFirst => assignGroups (Sorting.sortBy p.specificLe es)
  | .generalFirst => assignGroups (Sorting.sortBy p.specificLe es).reverse

end IncludeBlock
