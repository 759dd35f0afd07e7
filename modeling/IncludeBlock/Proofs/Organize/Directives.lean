import IncludeBlock.Proofs.Organize.Outcome
import IncludeBlock.Proofs.Resolution.Meaning
import IncludeBlock.Proofs.Resolution.Spelling
import IncludeBlock.Scan

/-!
# Entries and their directives

A scan follows a directive to the first file that its spelling leads to, out of
the directories it is tried in. A pass searches for the file of an entry below
the same directories, but by the last components of a path, and so it may come
upon another one (`resolved_of_directive`).
-/

namespace IncludeBlock

open Disk Resolution

/-- The directive that an entry is written as. -/
def Entry.asDirective (e : Entry) : Directive where
  spelling := e.spelling
  isQuoted := e.isLocal

/-! ## The directories of a request -/

namespace OrganizeRequest

/-- The document and the search roots are plain paths. -/
structure IsPlain (r : OrganizeRequest) : Prop where
  document : r.document.IsPlain
  searchRoots : ∀ p ∈ r.searchRoots, p.IsPlain

instance (r : OrganizeRequest) : Decidable r.IsPlain :=
  decidable_of_iff
    (r.document.IsPlain ∧ ∀ p ∈ r.searchRoots, p.IsPlain)
    ⟨fun h => ⟨h.1, h.2⟩, fun h => ⟨h.1, h.2⟩⟩

/-- The directories that a directive is tried in. -/
def triedBy (r : OrganizeRequest) (quoted : Bool) : List Path :=
  (if quoted then r.document.parent?.toList else []) ++ r.searchRoots

variable {d : Disk} {r : OrganizeRequest}

theorem IsPlain.of_mem_document (hr : r.IsPlain) :
    ∀ p ∈ r.document.parent?.toList, p.IsPlain := by
  intro p hp
  exact (hr.document.parent? (Option.mem_toList.1 hp)).1

theorem IsPlain.of_mem_triedBy (hr : r.IsPlain) {quoted : Bool} :
    ∀ p ∈ r.triedBy quoted, p.IsPlain := by
  intro p hp
  rcases List.mem_append.1 hp with h | h
  · split at h
    · exact hr.of_mem_document p h
    · cases h
  · exact hr.searchRoots p h

/-- Plain search roots are searched as they are, and behind them the directory
of the document, if it has one. -/
theorem spellingRoots_eq (hd : d.LinkFree) (hr : r.IsPlain) :
    r.spellingRoots d = r.searchRoots ++ r.document.parent?.toList := by
  have hroots : r.searchRoots.map d.canonical = r.searchRoots :=
    (List.map_congr_left fun p hp =>
      canonical_of_isPlain hd (hr.searchRoots p hp)).trans (List.map_id _)
  rw [spellingRoots, hroots, Path.directory]
  cases hdir : r.document.parent? with
  | none => rfl
  | some dir =>
      have hplain := hr.of_mem_document dir (by simp [hdir])
      have hempty : dir.isEmpty = false := by
        simpa [Path.isEmpty] using hplain.text_ne
      simp [hempty]

theorem IsPlain.of_mem_spellingRoots (hd : d.LinkFree) (hr : r.IsPlain) :
    ∀ p ∈ r.spellingRoots d, p.IsPlain := by
  intro p hp
  rw [spellingRoots_eq hd hr] at hp
  rcases List.mem_append.1 hp with h | h
  · exact hr.searchRoots p h
  · exact hr.of_mem_document p h

/-- Plain roots start from the root of the disk, which is there. -/
theorem IsPlain.holds_start (hd : d.LinkFree) (hr : r.IsPlain) :
    ∀ p ∈ r.spellingRoots d, d.Holds (d.start p) .directory := by
  intro p hp
  have habsolute := (hr.of_mem_spellingRoots hd p hp).isAbsolute
  rw [start, if_pos habsolute]
  exact holds_nil

theorem mem_spellingRoots_of_mem_triedBy (hd : d.LinkFree) (hr : r.IsPlain)
    {quoted : Bool} {p : Path} (hp : p ∈ r.triedBy quoted) :
    p ∈ r.spellingRoots d := by
  rw [spellingRoots_eq hd hr]
  rcases List.mem_append.1 hp with h | h
  · split at h
    · exact List.mem_append_right _ h
    · cases h
  · exact List.mem_append_left _ h

/-- A directive leads to the first file that its spelling leads to from the
directories it is tried in. -/
theorem resolveDirective_eq (d : Disk) (r : OrganizeRequest)
    (directive : Directive) :
    Scan.resolveDirective d r.document directive r.searchRoots
      = ((r.triedBy directive.isQuoted).map
          (·.join directive.spelling)).find? d.isFile := by
  rw [Scan.resolveDirective, triedBy, List.map_append]
  cases directive.isQuoted <;> rfl

end OrganizeRequest

/-! ## The file that the search gives -/

namespace Organize

variable {s : Settings} {d : Disk} {r : OrganizeRequest} {actions : Actions}
  {e : Entry} {file : Path}

/-- An entry without a file gets the one that its spelling means. -/
theorem file_lookedUp (hresolve : actions.resolve = true)
    (hsearch : s.searchUnresolved = true) (hunresolved : e.isResolved = false)
    (hmoc : e.isMoc = false) (hspelling : Text.trim e.spelling ≠ "") :
    (lookedUp s d r actions e).file
      = (resolve d e.spelling (r.spellingRoots d)).getD Path.empty := by
  have hempty : e.file = Path.empty :=
    Path.eq_empty_of_isEmpty (by simpa [Entry.isResolved] using hunresolved)
  have hne : e.spelling ≠ "" := by
    intro heq
    rw [heq] at hspelling
    exact hspelling rfl
  rw [lookedUp, if_pos (by simp [hresolve, hsearch]), resolveEntry,
    if_pos (by simp [hunresolved, hmoc, hne])]
  cases resolve d e.spelling (r.spellingRoots d) with
  | none => exact hempty
  | some file => rfl

theorem file_lookedUp_eq_iff (hd : d.LinkFree) (hn : d.Named)
    (hr : r.IsPlain) (hresolve : actions.resolve = true)
    (hsearch : s.searchUnresolved = true) (hunresolved : e.isResolved = false)
    (hmoc : e.isMoc = false) (hspelling : Text.trim e.spelling ≠ "")
    (hfile : file.isEmpty = false) :
    (lookedUp s d r actions e).file = file
      ↔ FirstHit d ⟨Text.trim e.spelling⟩
          (r.searchRoots ++ r.document.parent?.toList) file := by
  have hmeaning : resolve d e.spelling (r.spellingRoots d) = some file ↔ _ :=
    resolve_eq_some_iff hd hn (hr.holds_start hd) hspelling
  rw [OrganizeRequest.spellingRoots_eq hd hr] at hmeaning
  rw [file_lookedUp hresolve hsearch hunresolved hmoc hspelling, ← hmeaning,
    OrganizeRequest.spellingRoots_eq hd hr]
  cases resolve d e.spelling (r.searchRoots ++ r.document.parent?.toList) with
  | none =>
      refine ⟨fun h => ?_, nofun⟩
      rw [← h] at hfile
      cases hfile
  | some found => simp

end Organize

namespace Organizer

open Organize

/-- **The search and the directives.** On a disk without links, and where
public headers are not preferred, every entry comes out of a pass with the file
that the search gives it. For an entry whose directive leads to a file this is
the same file exactly if the search comes upon that one first. If the spelling
is made of names, is not too long and has no blanks around it, the search finds
some file, and it is the one that the directive leads to unless another file
below the roots ends in the same names. -/
theorem resolved_of_directive (o : Organizer) (d : Disk) (r : OrganizeRequest)
    (actions : Actions) (hd : d.LinkFree) (hn : d.Named) (hr : r.IsPlain)
    (hresolve : actions.resolve = true)
    (hsearch : o.settings.searchUnresolved = true)
    (hpublic : o.settings.preferPublic = false) {e : Entry}
    (hunresolved : e.isResolved = false) (hmoc : e.isMoc = false)
    (hspelling : Text.trim e.spelling ≠ "") {target : Path}
    (htarget : Scan.resolveDirective d r.document e.asDirective r.searchRoots
      = some target) :
    let result := (o.organizeWith d r actions).1
    let given := lookedUp o.settings d r actions
    let wanted : Path := ⟨Text.trim e.spelling⟩
    let roots := r.searchRoots ++ r.document.parent?.toList
    ((result.dropped ++ result.entries).map fun e => (e.origin, e.file)).Perm
        ((r.entries.map given
          ++ newEntries actions (o.addedFiles d r actions)).map
            fun e => (e.origin, e.file))
      ∧ ((given e).file = d.canonical target
          ↔ FirstHit d wanted roots (d.canonical target))
      ∧ ∀ names : List String,
          (Path.mk e.spelling).components = names.map .name →
          names.length ≤ maxDepth → Text.trim e.spelling = e.spelling →
          FirstHit d wanted roots (given e).file
            ∧ ((∀ root ∈ roots, ∀ ns, Hit d wanted root ns →
                pathOf (root.place ++ ns) = d.canonical target) →
              (given e).file = d.canonical target) := by
  intro result given wanted roots
  rw [OrganizeRequest.resolveDirective_eq] at htarget
  obtain ⟨dir, hdir, rfl⟩ :=
    List.mem_map.1 (List.mem_of_find?_eq_some htarget)
  have hfile : d.isFile (dir.join e.spelling) = true :=
    List.find?_some htarget
  refine ⟨?_, ?_, fun names hnames hdepth htrim => ?_⟩
  · have hprefer (e : Entry) : preferredEntry o.settings d e = e := by
      simp [preferredEntry, hpublic]
    have htraits := o.traits_dropped_append_entries d r actions
      (fun e => (e.origin, e.file)) (fun _ => rfl)
      (fun e => by rw [hprefer]) (fun _ => rfl)
    rwa [searched_eq_map] at htraits
  · exact file_lookedUp_eq_iff hd hn hr hresolve hsearch hunresolved hmoc
      hspelling (isEmpty_canonical (isEmpty_of_isFile hfile))
  · -- the file that the directive leads to is a hit, so there is a first one
    have hne : names ≠ [] := by
      rintro rfl
      have hspelling' : e.spelling ≠ "" := htrim ▸ hspelling
      exact Path.components_ne_nil (p := ⟨e.spelling⟩) hspelling' hnames
    have hroot : dir ∈ r.spellingRoots d :=
      OrganizeRequest.mem_spellingRoots_of_mem_triedBy hd hr hdir
    have hhit := hit_of_join hd (hr.of_mem_triedBy dir hdir) hnames hdepth hne
      hfile
    rw [← htrim] at hhit
    obtain ⟨file, hfirst⟩ := exists_firstHit hd hn
      (hr.holds_start hd) hspelling hroot hhit
    rw [OrganizeRequest.spellingRoots_eq hd hr] at hfirst
    obtain ⟨root, hmem, ns, hhit, hfile⟩ := hfirst.exists_hit
    have hplain : root.IsPlain := hr.of_mem_spellingRoots hd root
      (OrganizeRequest.spellingRoots_eq hd hr ▸ hmem)
    rw [hhit.canonical hd hplain] at hfile
    have hgiven : (given e).file = file :=
      (file_lookedUp_eq_iff hd hn hr hresolve hsearch hunresolved hmoc
        hspelling (hfile ▸ isEmpty_pathOf _)).2 hfirst
    rw [hgiven]
    exact ⟨hfirst, fun hall => hfile.trans (hall root hmem ns hhit)⟩

/-- A disk where two paths below `/s` end in `b/x.h`. -/
def nestedDisk : Disk where
  nodes := [(["s"], .directory), (["s", "a"], .directory),
    (["s", "a", "b"], .directory), (["s", "a", "b", "x.h"], .file []),
    (["s", "b"], .directory), (["s", "b", "x.h"], .file [])]
  workingDirectory := []

/-- A document with an include below `/s`. -/
def nestedRequest (spelling : String) : OrganizeRequest where
  document := ⟨"/d.cpp"⟩
  searchRoots := [⟨"/s"⟩]
  entries := [.unresolved spelling (some 1) false]

theorem resolved_of_directive_deep :
    let r := nestedRequest "a/b/x.h"
    let e : Entry := .unresolved "a/b/x.h" (some 1) false
    let given := lookedUp { preferPublic := false } nestedDisk r .all e
    FirstHit nestedDisk ⟨Text.trim e.spelling⟩
        (r.searchRoots ++ r.document.parent?.toList) given.file
      ∧ given.file = ⟨"/s/a/b/x.h"⟩ := by
  intro r e given
  have htarget : Scan.resolveDirective nestedDisk r.document e.asDirective
      r.searchRoots = some ⟨"/s/a/b/x.h"⟩ := by
    decide +kernel
  obtain ⟨_, _, hnames⟩ := resolved_of_directive
    ⟨Index.new Snapshot.empty.toSource, { preferPublic := false }⟩ nestedDisk r
    .all (by decide) (by decide +kernel) (by decide +kernel) rfl rfl rfl
    (by decide +kernel) (by decide +kernel) (by decide +kernel) htarget
  refine ⟨(hnames ["a", "b", "x.h"] ?_ ?_ ?_).1, ?_⟩ <;> decide +kernel

/-- **The search may give another file than the directive leads to.** From `/s`
the spelling `b/x.h` leads to `/s/b/x.h`, but the search comes upon
`/s/a/b/x.h` before, which ends in the same names. -/
theorem not_resolved_of_directive_nested :
    let r := nestedRequest "b/x.h"
    let e : Entry := .unresolved "b/x.h" (some 1) false
    let result := (organizeWith
      ⟨Index.new Snapshot.empty.toSource, { preferPublic := false }⟩ nestedDisk
      r { Actions.none with resolve := true }).1
    nestedDisk.LinkFree ∧ nestedDisk.Named ∧ r.IsPlain ∧ e ∈ r.entries
      ∧ e.isResolved = false ∧ e.isMoc = false
      ∧ Scan.resolveDirective nestedDisk r.document e.asDirective r.searchRoots
        = some ⟨"/s/b/x.h"⟩
      ∧ result.entries.map (fun e => (e.line, e.file))
        = [(some 1, ⟨"/s/a/b/x.h"⟩)] := by
  decide +kernel

/-- A pass that may write spellings anew gives its entries the shortest. -/
theorem spelling_of_mem_entries (o : Organizer) (d : Disk)
    (r : OrganizeRequest) (actions : Actions) (hrename : actions.rename = true)
    {e : Entry} (he : e ∈ (o.organizeWith d r actions).1.entries)
    (hmoc : e.isMoc = false) (hresolved : e.isResolved = true) :
    e.spelling = shortestSpelling e.file (r.spellingRoots d) := by
  have hself := (o.isFinished_of_mem_entries d r actions e he).2 hmoc hresolved
  have hspelling := congrArg Entry.spelling hself
  rw [hrename] at hspelling
  exact hspelling.symm

/-- **The directives of a new block.** On a disk without links, let `home` be
the directory where the spelling of an entry starts. From there the spelling
leads to the file of the entry. If `home` is tried, the directive leads to this
file exactly if the first file that it leads to from the directories before is
no other. If `home` is not tried, it leads to another file or to none. -/
theorem directive_of_mem_entries (o : Organizer) (d : Disk)
    (r : OrganizeRequest) (actions : Actions) (hd : d.LinkFree)
    (hr : r.IsPlain) (hrename : actions.rename = true) {e : Entry}
    (he : e ∈ (o.organizeWith d r actions).1.entries) (hmoc : e.isMoc = false)
    (hfile : d.isFile e.file = true)
    (hwithin : ∃ root ∈ r.searchRoots ++ r.document.parent?.toList,
      e.file.isWithin root = true) :
    let tried := r.triedBy e.isLocal
    let found :=
      Scan.resolveDirective d r.document e.asDirective r.searchRoots
    ∃ home, start? e.file (r.spellingRoots d) = some home
      ∧ d.isFile (home.join e.spelling) = true
      ∧ d.canonical (home.join e.spelling) = d.canonical e.file
      ∧ (∀ pre post, tried = pre ++ home :: post →
          ((∃ target, found = some target
              ∧ d.canonical target = d.canonical e.file)
            ↔ ∀ target, (pre.map (·.join e.spelling)).find? d.isFile
                = some target → d.canonical target = d.canonical e.file))
      ∧ (home ∉ tried → e.file.IsPlain → ∀ target, found = some target →
          d.canonical target ≠ d.canonical e.file) := by
  intro tried found
  have hresolved : e.isResolved = true := by
    simpa [Entry.isResolved] using isEmpty_of_isFile hfile
  rw [← OrganizeRequest.spellingRoots_eq hd hr] at hwithin
  obtain ⟨home, hhome, hback, hsame, honly⟩ :=
    exists_start hd (hr.of_mem_spellingRoots hd) hfile hwithin
  rw [← o.spelling_of_mem_entries d r actions hrename he hmoc hresolved]
    at hback hsame honly
  have hfound : found = (tried.map (·.join e.spelling)).find? d.isFile :=
    OrganizeRequest.resolveDirective_eq d r e.asDirective
  refine ⟨home, hhome, hback, hsame, ?_, ?_⟩
  · intro pre post htried
    have hfirst : found = (((pre.map (·.join e.spelling)).find? d.isFile).or
        (some (home.join e.spelling))) := by
      rw [hfound, htried, List.map_append, List.map_cons, List.find?_append,
        List.find?_cons_of_pos hback]
    rw [hfirst]
    cases (pre.map (·.join e.spelling)).find? d.isFile with
    | none => simpa using hsame
    | some target => simp
  · intro hout hplain target htarget heq
    rw [hfound] at htarget
    obtain ⟨dir, hdir, rfl⟩ :=
      List.mem_map.1 (List.mem_of_find?_eq_some htarget)
    have hdirHome : dir = home := honly dir (hr.of_mem_triedBy dir hdir) hplain
      (List.find?_some htarget) heq
    exact hout (hdirHome ▸ hdir)

/-- A disk with the header `/w/x.h`. -/
def headerDisk : Disk where
  nodes := [(["w"], .directory), (["w", "x.h"], .file [])]
  workingDirectory := []

/-- A document beside the header that it needs, with its project. -/
def besideRequest (projectRoot : Path) : OrganizeRequest where
  document := ⟨"/w/d.cpp"⟩
  projectRoot := projectRoot
  searchRoots := [⟨"/"⟩]
  required := [⟨"/w/x.h"⟩]

theorem directive_of_mem_entries_inside :
    let r := besideRequest ⟨"/w"⟩
    let e : Entry := ⟨⟨"/w/x.h"⟩, "x.h", true, none, 0, true⟩
    e ∈ (organizeWith
        ⟨Index.new Snapshot.empty.toSource, { preferPublic := false }⟩
        headerDisk r .all).1.entries
      ∧ ∃ target, Scan.resolveDirective headerDisk r.document e.asDirective
          r.searchRoots = some target
        ∧ headerDisk.canonical target = headerDisk.canonical e.file := by
  intro r e
  have he : e ∈ (organizeWith
      ⟨Index.new Snapshot.empty.toSource, { preferPublic := false }⟩ headerDisk
      r .all).1.entries := by
    decide +kernel
  obtain ⟨home, hhome, _, _, hfound, _⟩ := directive_of_mem_entries _ headerDisk
    r .all (by decide) (by decide +kernel) rfl he (by decide)
    (by decide +kernel) ⟨⟨"/w"⟩, by decide +kernel, by decide +kernel⟩
  have hstart : start? e.file (r.spellingRoots headerDisk) = some ⟨"/w"⟩ := by
    decide +kernel
  obtain rfl : home = ⟨"/w"⟩ := Option.some.inj (hhome.symm.trans hstart)
  exact ⟨he, (hfound [] [⟨"/"⟩] (by decide +kernel)).2 (by simp)⟩

/-- **The directive of an entry may lead to nothing.** The header beside the
document is spelled from their directory, but in brackets since it lies outside
the project, and then that directory is not tried. -/
theorem not_directive_outside :
    let r := besideRequest ⟨"/p"⟩
    let e : Entry := ⟨⟨"/w/x.h"⟩, "x.h", false, none, 0, true⟩
    let result := (organizeWith
      ⟨Index.new Snapshot.empty.toSource, { preferPublic := false }⟩ headerDisk
      r .all).1
    headerDisk.LinkFree ∧ r.IsPlain ∧ r.projectRoot.IsPlain
      ∧ result.entries = [e] ∧ e.isMoc = false
      ∧ headerDisk.isFile e.file = true
      ∧ (∀ root ∈ r.searchRoots, e.file.isWithin root = true)
      ∧ Scan.resolveDirective headerDisk r.document e.asDirective r.searchRoots
        = none := by
  decide +kernel

end Organizer

end IncludeBlock
