import IncludeBlock.Cover.Reduction
import IncludeBlock.Resolution
import IncludeBlock.Settings

/-!
# Organizing a block

One pass over the include block of a document: files are searched for entries
that have none, private headers give way to their public ones, the entries are
reduced to what the required files need, and the result is put in order.
-/

namespace IncludeBlock

/-- A document with its entries and the files that it needs. -/
structure OrganizeRequest where
  document : Path := Path.empty
  projectRoot : Path := Path.empty
  searchRoots : List Path := []
  /-- The entries in the order of the document. -/
  entries : List Entry := []
  /-- The files that declare something the document uses. -/
  required : List Path := []
deriving DecidableEq, Repr, Inhabited

namespace OrganizeRequest

def toJson (r : OrganizeRequest) : Json :=
  .record [("document", .ofString r.document.text),
    ("project_root", .ofString r.projectRoot.text),
    ("search_roots", .ofList (fun p => .ofString p.text) r.searchRoots),
    ("entries", .ofList Entry.toJson r.entries),
    ("required", .ofList (fun p => .ofString p.text) r.required)]

def ofJson : Json.Decoder OrganizeRequest := fun v => do
  let [document, projectRoot, searchRoots, entries, required] ← v.fields?
    ["document", "project_root", "search_roots", "entries", "required"] | none
  return {
    document := ← Json.orDefault Path.empty Json.asPath document
    projectRoot := ← Json.orDefault Path.empty Json.asPath projectRoot
    searchRoots := ← Json.orDefault [] (Json.asList Json.asPath) searchRoots
    entries := ← Json.orDefault [] (Json.asList Entry.ofJson) entries
    required := ← Json.orDefault [] (Json.asList Json.asPath) required }

def load (d : Disk) (p : Path) : Except Failure OrganizeRequest :=
  d.readAs ofJson p

/-- The roots that spellings start from: the search roots and the directory of
the document. -/
def spellingRoots (d : Disk) (r : OrganizeRequest) : List Path :=
  r.searchRoots.map d.canonical ++
    (if r.document.directory.isEmpty then [] else [r.document.directory])

end OrganizeRequest

/-- The outcome of a pass. -/
structure OrganizeResult where
  /-- The entries of the new block, in order. -/
  entries : List Entry
  /-- The entries that are taken out. -/
  dropped : List Entry
  /-- The entries kept as they are because their file was not found. -/
  unresolved : List Entry
  /-- The required files that no entry can reach, in ascending order. -/
  uncoverable : List Path
deriving DecidableEq, Repr, Inhabited

namespace OrganizeResult

def render (r : OrganizeResult) : String :=
  Entry.renderBlock r.entries

/-- The entries that were not in the document. -/
def added (r : OrganizeResult) : List Entry :=
  r.entries.filter (·.isNew)

end OrganizeResult

/-! ## The steps of a pass -/

namespace Organize

/-- Searches the disk for the file of an entry that has none. -/
def resolveEntry (d : Disk) (roots : List Path) (e : Entry) : Entry :=
  if !e.isResolved && !e.isMoc && e.spelling != "" then
    match Resolution.resolve d e.spelling roots with
    | some file => { e with file }
    | none => e
  else e

/-- Lets an entry include the public header of its file; its spelling is to be
written anew then. -/
def preferPublic (d : Disk) (e : Entry) : Entry :=
  match Resolution.publicHeader? d e.file with
  | some file => { e with file, spelling := "" }
  | none => e

/-- Parts the entries that include a file for the first time from those that
repeat it. `seen` are the files included before. -/
def splitRepeated (seen : FileSet) : List Entry → List Entry × List Entry
  | [] => ([], [])
  | e :: es =>
      if e.file ∈ seen then
        let (kept, repeats) := splitRepeated seen es
        (kept, e :: repeats)
      else
        let (kept, repeats) := splitRepeated (seen.insert e.file) es
        (e :: kept, repeats)

/-- The file that is required in place of another: its public header, where
that is preferred. -/
def preferredForm (d : Disk) (s : Settings) (f : Path) : Path :=
  if s.preferPublic then Resolution.publicForm d f else f

/-- The files that are required, apart from the document itself, which is
never required by its own block. -/
def requiredFiles (d : Disk) (s : Settings) (r : OrganizeRequest) :
    FileSet × FileSet :=
  let files := FileSet.ofList <|
    (r.required.filter (!·.isEmpty)).map (preferredForm d s)
  (files.filter (· != r.document), files.filter (· == r.document))

/-- Fills in how an entry is written. -/
def spellEntry (r : OrganizeRequest) (roots : List Path) (rename : Bool)
    (e : Entry) : Entry :=
  { e with
    isLocal :=
      if r.projectRoot.isEmpty then e.isLocal
      else e.file.isWithin r.projectRoot
    spelling :=
      if rename || e.spelling == "" then
        Resolution.shortestSpelling e.file roots
      else e.spelling }

/-- The key by which entries go back to their lines; entries without a line
come last. -/
def lineKey (e : Entry) : Nat := e.line.getD (Nat.pow 2 64 - 1)

/-- The greatest number that a group can have. -/
def maxGroup : Nat := Nat.pow 2 64 - 1

/-- The number of the group behind one. Numbers are machine words: behind the
greatest one the count starts anew. -/
def nextGroup (group : Nat) : Nat := (group + 1) % (maxGroup + 1)

theorem nextGroup_of_lt {group : Nat} (h : group < maxGroup) :
    nextGroup group = group + 1 :=
  Nat.mod_eq_of_lt (Nat.succ_lt_succ h)

/-- Entries by their lines, and behind them the new ones as a group of their
own. -/
def keepLines (es : List Entry) : List Entry :=
  let existing := Sorting.sortBy (fun a b => lineKey a ≤ lineKey b)
    (es.filter (!·.isNew))
  let group := existing.foldl (fun n e => max n (nextGroup e.group)) 0
  existing ++ (es.filter (·.isNew)).map ({ · with group })

/-- Puts the entries of a block in order; those without a file keep their
place where lines are kept. -/
def arrange (p : OrderingPolicy) (entries unresolved : List Entry) :
    List Entry :=
  p.apply <|
    if p.order = .keepCurrent then keepLines (entries ++ unresolved)
    else entries ++ unresolved

/-- Puts the entries of generated code behind a block, as a group. -/
def appendMoc (block moc : List Entry) : List Entry :=
  let group := (block.getLast?.map (nextGroup ·.group)).getD 0
  block ++ moc.map ({ · with group })

end Organize

/-! ## The phases of a pass -/

/-- What a pass finds before it weighs anything. -/
structure Survey where
  /-- Includes of generated code. -/
  moc : List Entry
  /-- Entries whose file was not found. -/
  unresolved : List Entry
  /-- The entries to weigh. -/
  found : List Entry
  /-- Entries that repeat one of those. -/
  repeats : List Entry
  /-- The files that the entries are weighed against. -/
  required : FileSet
  /-- The document, if it is required of itself. -/
  self : FileSet

namespace Organize

/-- The entries of a request, with the files that the search finds. -/
def searched (s : Settings) (d : Disk) (r : OrganizeRequest)
    (actions : Actions) : List Entry :=
  if actions.resolve && s.searchUnresolved then
    r.entries.map (resolveEntry d (r.spellingRoots d))
  else r.entries

def survey (s : Settings) (d : Disk) (r : OrganizeRequest)
    (actions : Actions) : Survey :=
  let entries := searched s d r actions
  -- Includes of generated code and those without a file are left alone.
  let plain := entries.filter (!·.isMoc)
  let found := plain.filter (·.isResolved)
  -- The rest may get other files, and then some of them say the same.
  let found := if s.preferPublic then found.map (preferPublic d) else found
  let parts := if actions.remove then splitRepeated ∅ found else (found, [])
  let files := requiredFiles d s r
  { moc := entries.filter (·.isMoc)
    unresolved := plain.filter (!·.isResolved)
    found := parts.1
    repeats := parts.2
    required := files.1
    self := files.2 }

/-- Weighs the entries against what the document needs. The index keeps what
it expanded for that. -/
def weigh (x : Index) (d : Disk) (policy : Policy) (v : Survey) :
    Reduction × Index :=
  let files := v.found.map (·.file)
  let index := x.expandAll d
    (files ++ v.required.toList.filter (x.isResolvable d))
  let catalog := index.catalog d
  ((Cover.reduce catalog policy
    (CoverageMap.build catalog files v.required.toList)).2, index)

def isDropped (actions : Actions) (k : Reduction) (e : Entry) : Bool :=
  actions.remove && decide (e.file ∈ k.drop)

/-- The entries after dropping and adding, of which one is allowed without the
other. -/
def revised (actions : Actions) (v : Survey) (k : Reduction) :
    List Entry :=
  v.found.filter (!isDropped actions k ·) ++
    (if actions.add then k.add.toList.map Entry.synthesized else [])

/-- The block without the entries of generated code: what is left is written
and put in order. -/
def block (s : Settings) (d : Disk) (r : OrganizeRequest) (actions : Actions)
    (v : Survey) (k : Reduction) : List Entry :=
  let order := if actions.sort then s.order else .keepCurrent
  arrange ⟨order, r.projectRoot, s.systemRoot⟩
    ((revised actions v k).map
      (spellEntry r (r.spellingRoots d) actions.rename))
    v.unresolved

end Organize

/-! ## A pass -/

/-- An index with the settings to organize by. -/
structure Organizer where
  index : Index
  settings : Settings

namespace Organizer

open Organize

/-- Runs a pass that may do what `actions` allow. -/
def organizeWith (o : Organizer) (d : Disk) (r : OrganizeRequest)
    (actions : Actions) : OrganizeResult × Organizer :=
  let v := survey o.settings d r actions
  let weighed := weigh o.index d o.settings.policy v
  let k := weighed.1
  ({ entries := appendMoc (block o.settings d r actions v k) v.moc
     dropped := v.repeats ++ v.found.filter (isDropped actions k)
     unresolved := v.unresolved
     uncoverable := (v.self.union k.uncoverable).toList },
   { o with index := weighed.2 })

/-- Runs a pass that may do what the settings allow. -/
def organize (o : Organizer) (d : Disk) (r : OrganizeRequest) :
    OrganizeResult × Organizer :=
  o.organizeWith d r o.settings.actions

end Organizer

end IncludeBlock
