import IncludeBlock.Proofs.Scan.Graph

/-!
# A scan gives the least closed graph

A quoted include is looked for beside the path by which the scan first came to
the file (`firstWay`). That path leads to the directory of the file, but it may
be longer than the file's own path, and the system takes no paths beyond a
certain length. So the graph, and its dependence on the order of the roots, can
hang on that limit, and on nothing else (`scan_least`, `not_least_longRoot`).
-/

namespace IncludeBlock

namespace Scan

open Disk

variable {d : Disk} {roots searchRoots : List Path} {p t f : Path}

/-! ## The ways of a scan -/

/-- The paths that a scan takes up. -/
def takenFrom (d : Disk) (roots searchRoots : List Path) : List Path :=
  match sources d roots with
  | .ok queue =>
      taken d searchRoots (queue.length + directiveCount d) queue ∅
  | .error _ => []

/-- The path by which a scan first comes to a file. -/
def firstWay (d : Disk) (roots searchRoots : List Path) (f : Path) : Path :=
  ((takenFrom d roots searchRoots).find? (d.canonical · == f)).getD f

theorem firstWay_canonical
    (h : ((takenFrom d roots searchRoots).map d.canonical).Nodup)
    (hp : p ∈ takenFrom d roots searchRoots) :
    firstWay d roots searchRoots (d.canonical p) = p := by
  rw [firstWay]
  cases hfind : (takenFrom d roots searchRoots).find?
      (d.canonical · == d.canonical p) with
  | none =>
      have hnone := List.find?_eq_none.1 hfind p hp
      simp at hnone
  | some q =>
      have hq := List.mem_of_find?_eq_some hfind
      have heq : d.canonical q = d.canonical p := by
        simpa using List.find?_some hfind
      exact List.inj_on_of_nodup_map h hq hp heq

/-- The paths by which a scan may come to a file: those below the roots, and
those that the directives of a file lead to when it was reached by such a
path. -/
inductive Reached (d : Disk) (roots searchRoots : List Path) : Path → Prop
  | fromRoot {root p : Path} (hroot : root ∈ roots) (hp : SourceBelow d root p) :
      Reached d roots searchRoots p
  | included {p t : Path} (hp : Reached d roots searchRoots p)
      (ht : t ∈ leads d searchRoots (d.canonical p) p)
      (hsource : isSource t = true) : Reached d roots searchRoots t

/-! ## The way to a file hardly matters -/

/-- **A directive leads to the same file by any way to the including one**, if
the system takes what is looked for beside the way exactly if it takes what is
looked for beside the file's own path. -/
theorem canonical_resolveDirective (hd : d.Ordinary) (hp : d.isFile p = true)
    (directive : Directive)
    (husable : directive.isQuoted = true → directive.spelling ≠ "" →
      isUsable (p.directory.join directive.spelling)
        = isUsable ((d.canonical p).directory.join directive.spelling)) :
    (resolveDirective d p directive searchRoots).map d.canonical
      = (resolveDirective d (d.canonical p) directive searchRoots).map
          d.canonical := by
  obtain ⟨q, bytes, hlocate⟩ := isFile_iff_locate.1 hp
  obtain ⟨mid, n, hlies, hcanonical⟩ := liesIn_canonical hd hlocate
  rw [resolveDirective, resolveDirective]
  cases hquoted : directive.isQuoted with
  | false => rfl
  | true =>
      simp only [if_true, hlies.parent?, hcanonical.parent?,
        Option.toList_some, List.map_singleton, List.singleton_append,
        List.find?_cons]
      by_cases hempty : directive.spelling = ""
      · rw [hempty, not_isFile_join_empty hd, not_isFile_join_empty hd]
      · have hsame := locate_join_congr hd hlies.leadsTo hcanonical.leadsTo
          (husable hquoted hempty)
        rw [← isFile_congr hsame]
        split
        · rename_i hfile
          exact congrArg some (canonical_congr hsame hfile)
        · rfl

theorem targets_congr (searchRoots : List Path) (hd : d.Ordinary)
    (hp : d.isFile p = true)
    (husable : ∀ directive ∈ directivesIn (d.contents (d.canonical p)),
      directive.isQuoted = true → directive.spelling ≠ "" →
        isUsable (p.directory.join directive.spelling)
          = isUsable ((d.canonical p).directory.join directive.spelling)) :
    targets d searchRoots (d.canonical p) p
      = targets d searchRoots (d.canonical p) (d.canonical p) := by
  rw [targets, targets, leads, leads, List.map_filterMap, List.map_filterMap]
  refine List.filterMap_congr fun directive hdirective => ?_
  exact canonical_resolveDirective hd hp directive (husable directive hdirective)

/-! ## The scan -/

/-- The limit on the length of paths does not tell the ways of a scan from the
files' own paths: the system takes what a quoted include is looked for as beside
the one exactly if it takes it beside the other. -/
def Unhindered (d : Disk) (roots searchRoots : List Path) : Prop :=
  let way := firstWay d roots searchRoots
  ∀ f, Known d roots searchRoots way f →
    ∀ directive ∈ directivesIn (d.contents f),
      directive.isQuoted = true → directive.spelling ≠ "" →
        isUsable ((way f).directory.join directive.spelling)
          = isUsable (f.directory.join directive.spelling)

/-- What a scan comes to, by the paths that it takes up. -/
structure Outcome (d : Disk) (roots searchRoots : List Path) (v : Versions)
    (s : Snapshot) (w : Versions) : Prop where
  scan : Snapshot.scan d roots searchRoots v = .ok (s, w)
  /-- The scan has come to its end by itself. -/
  ended : ∃ queue, sources d roots = .ok queue ∧ ∀ more,
    (run d searchRoots (queue.length + directiveCount d + more) queue
      ⟨.empty, v, ∅⟩).snapshot = s
  ways : ∀ f, s.arena.knows f = true →
    Reached d roots searchRoots (firstWay d roots searchRoots f)
      ∧ d.canonical (firstWay d roots searchRoots f) = f
  graph : IsGraph d roots searchRoots (firstWay d roots searchRoots) s.arena

/-- **A scan ends with the graph of what it reaches**, each file taken as it was
first reached. -/
theorem exists_outcome (hd : d.Ordinary)
    (hroots : ∀ root ∈ roots, d.pathExists root = true)
    (searchRoots : List Path) (v : Versions) :
    ∃ s w, Outcome d roots searchRoots v s w := by
  obtain ⟨queue, hsources, hqueue⟩ := exists_sources hd hroots
  have hwithin : Within d (queue.length + directiveCount d) queue ∅ := by
    refine ⟨fun p hp => ?_, Nat.le_of_eq (by rw [unread_empty])⟩
    obtain ⟨root, _, hp⟩ := (hqueue p).1 hp
    exact hp.isFile
  have htaken : takenFrom d roots searchRoots
      = taken d searchRoots (queue.length + directiveCount d) queue ∅ := by
    rw [takenFrom, hsources]
  have htrail := trail_taken hd searchRoots hwithin
  rw [← htaken] at htrail
  have hway : ∀ p ∈ takenFrom d roots searchRoots,
      firstWay d roots searchRoots (d.canonical p) = p :=
    fun p hp => firstWay_canonical htrail.distinct hp
  have hgraph : IsGraph d roots searchRoots (firstWay d roots searchRoots)
      ((takenFrom d roots searchRoots).foldl (takeUp d searchRoots) .empty) :=
    htaken ▸ isGraph_taken hd hqueue hwithin (htaken ▸ hway)
  have hreached : ∀ p ∈ takenFrom d roots searchRoots,
      Reached d roots searchRoots p := by
    rw [htaken]
    refine forall_mem_taken (fun p hp => ?_) fun _ _ hp _ => hp.included
    obtain ⟨root, hroot, hp⟩ := (hqueue p).1 hp
    exact .fromRoot hroot hp
  let s := run d searchRoots (queue.length + directiveCount d) queue
    ⟨.empty, v, ∅⟩
  have harena : s.snapshot.arena
      = (takenFrom d roots searchRoots).foldl (takeUp d searchRoots) .empty :=
    htaken ▸ arena_run hd hwithin.isFile _
  refine ⟨s.snapshot, s.versions, ?_, ⟨queue, hsources, fun more => ?_⟩,
    fun f hf => ?_, harena ▸ hgraph⟩
  · rw [Snapshot.scan, hsources]
    rfl
  · rw [run_add hd hwithin]
  · rw [harena, hgraph.knows] at hf
    obtain ⟨p, hp, rfl⟩ := List.mem_map.1 (mem_map_canonical_of_known hd
      (fun root hroot p hp => (hqueue p).2 ⟨root, hroot, hp⟩) htrail hway hf)
    rw [hway p hp]
    exact ⟨hreached p hp, rfl⟩

theorem Outcome.graph_of_unhindered {v w : Versions} {s : Snapshot}
    (h : Outcome d roots searchRoots v s w) (hd : d.Ordinary)
    (hunhindered : Unhindered d roots searchRoots) :
    IsGraph d roots searchRoots id s.arena := by
  refine h.graph.of_targets fun f hf => ?_
  obtain ⟨hreached, hcanonical⟩ := h.ways f ((h.graph.knows f).2 hf)
  have hfile : d.isFile (firstWay d roots searchRoots f) = true := by
    cases hreached with
    | fromRoot _ hp => exact hp.isFile
    | included _ ht _ => exact isFile_of_mem_leads ht
  have htargets := targets_congr searchRoots hd hfile
    (by rw [hcanonical]; exact hunhindered f hf)
  rwa [hcanonical] at htargets

/-- **A scan gives the least closed graph.** On a disk without links, with roots
that are there, it ends, and its snapshot is the graph of the files below the
roots and of all that the directives of such a file lead to, where a quoted
include is looked for beside the path by which the scan first came to the file.
If the limit on the length of paths does not tell this path from the file's own
one, it is the graph for which a quoted include is looked for in the directory
of its file, and then the order of the roots does not matter. -/
theorem scan_least (hd : d.Ordinary)
    (hroots : ∀ root ∈ roots, d.pathExists root = true)
    (searchRoots : List Path) (v : Versions) :
    ∃ s w, Outcome d roots searchRoots v s w
      ∧ (Unhindered d roots searchRoots →
        IsGraph d roots searchRoots id s.arena
          ∧ ∀ roots' s' v' w', (∀ root, root ∈ roots ↔ root ∈ roots') →
            Unhindered d roots' searchRoots →
            Snapshot.scan d roots' searchRoots v' = .ok (s', w') →
            s.arena.SameAnswers s'.arena
              ∧ ∀ f, f ∈ s.arena.files ↔ f ∈ s'.arena.files) := by
  obtain ⟨s, w, h⟩ := exists_outcome hd hroots searchRoots v
  refine ⟨s, w, h, fun hunhindered => ?_⟩
  have hgraph := h.graph_of_unhindered hd hunhindered
  refine ⟨hgraph, fun roots' s' v' w' hsame hunhindered' hscan => ?_⟩
  obtain ⟨t, u, h'⟩ := exists_outcome hd
    (fun root hroot => hroots root ((hsame root).2 hroot)) searchRoots v'
  have hgraph' := h'.graph_of_unhindered hd hunhindered'
  have heq : (s', w') = (t, u) := Except.ok.inj (hscan.symm.trans h'.scan)
  cases heq
  exact hgraph.sameAnswers hgraph' hsame

/-- A directory with a file and a header without extension that it includes. -/
def longDisk : Disk where
  nodes := [(["s"], .directory), (["s", "initializer_list"], .file []),
    (["s", "m.c"], .file (Text.encode "#include \"initializer_list\"\n"))]
  workingDirectory := []

theorem ordinary_longDisk : longDisk.Ordinary where
  linkFree := by decide
  named := by decide
  workingDirectory := holds_nil

/-- A file and the header that it includes. -/
def includer : Path := ⟨"/s/m.c"⟩

def header : Path := ⟨"/s/initializer_list"⟩

theorem canonical_includer_self :
    longDisk.canonical includer = includer := by
  decide

theorem canonical_header_self : longDisk.canonical header = header := by
  decide

theorem header_mem_targets :
    header ∈ targets longDisk [] includer includer := by
  decide +kernel

theorem takenFrom_own :
    takenFrom longDisk [⟨"/s"⟩] [] = [includer, header] := by
  decide +kernel

theorem unhindered_longDisk : Unhindered longDisk [⟨"/s"⟩] [] := by
  intro f _ directive _ _ _
  have hway : firstWay longDisk [⟨"/s"⟩] [] f = f := by
    rw [firstWay, takenFrom_own]
    simp only [List.find?_cons, List.find?_nil, canonical_includer_self,
      canonical_header_self]
    split
    · rename_i heq
      exact eq_of_beq heq
    · split
      · rename_i heq
        exact eq_of_beq heq
      · rfl
  rw [hway]

theorem scan_least_shortRoot : longDisk.Ordinary
    ∧ (∀ root ∈ [(⟨"/s"⟩ : Path)], longDisk.pathExists root = true)
    ∧ Unhindered longDisk [⟨"/s"⟩] []
    ∧ ∃ s w, Outcome longDisk [⟨"/s"⟩] [] {} s w
      ∧ IsGraph longDisk [⟨"/s"⟩] [] id s.arena := by
  have hroots : ∀ root ∈ [(⟨"/s"⟩ : Path)],
      longDisk.pathExists root = true := by
    decide
  obtain ⟨s, w, houtcome, hleast⟩ :=
    scan_least ordinary_longDisk hroots [] {}
  exact ⟨ordinary_longDisk, hroots, unhindered_longDisk, s, w, houtcome,
    (hleast unhindered_longDisk).1⟩

/-! ## A root with a long path -/

/-- Goes down to `s` and up and down again `k` times. -/
def climb : Nat → Path
  | 0 => ⟨"s"⟩
  | k + 1 => ⟨(climb k).text ++ "/../s"⟩

theorem toList_climb_succ (k : Nat) : (climb (k + 1)).text.toList
    = (climb k).text.toList ++ '/' :: ['.', '.', '/', 's'] :=
  String.toList_append

/-- The text of such a path. -/
structure ClimbText (text : String) (k : Nat) : Prop where
  head : ∃ cs, text.toList = 's' :: cs
  last : text.toList.getLast? = some 's'
  length : Text.byteLength text = 5 * k + 1
  chars : '\x00' ∉ text.toList
  pieces : ∃ rest, Path.namePieces text.toList = ['s'] :: rest
    ∧ Path.fromComponent rest.reverse = rest.reverse

theorem climbText (k : Nat) : ClimbText (climb k).text k := by
  induction k with
  | zero =>
      refine ⟨⟨[], rfl⟩, rfl, by decide, by decide, [], rfl, rfl⟩
  | succ k ih =>
      obtain ⟨cs, hcs⟩ := ih.head
      obtain ⟨rest, hrest, _⟩ := ih.pieces
      have hlength : Text.byteLength "/../s" = 5 := by decide
      refine ⟨?_, ?_, ?_, ?_, rest ++ [['.', '.'], ['s']], ?_, ?_⟩
      · rw [toList_climb_succ, hcs]
        exact ⟨_, rfl⟩
      · rw [toList_climb_succ]
        simp
      · show Text.byteLength ((climb k).text ++ "/../s") = _
        rw [byteLength_append, ih.length, hlength]
        omega
      · rw [toList_climb_succ, List.mem_append, not_or]
        exact ⟨ih.chars, by decide⟩
      · rw [toList_climb_succ, Path.namePieces, Text.pieces_append_cons]
        rw [Path.namePieces] at hrest
        rw [hrest]
        rfl
      · rw [List.reverse_append]
        exact List.dropWhile_cons_of_neg (by decide)

/-- What a name makes behind such a path. -/
theorem join_climb (k : Nat) {n : String} (hn : n.toList.head? ≠ some '/') :
    (climb k).join n = ⟨(climb k).text ++ "/" ++ n⟩ := by
  rw [Path.join, if_neg (by simpa using hn),
    if_neg (by simp [(climbText k).last])]

theorem isUsable_join_climb (k : Nat) {n : String}
    (hn : n.toList.head? ≠ some '/') :
    isUsable ((climb k).join n) = true
      ↔ 5 * k + 2 + Text.byteLength n < 4096 ∧ '\x00' ∉ n.toList := by
  have hlength : Text.byteLength "/" = 1 := by decide
  have hne : (climb k).text ++ "/" ++ n ≠ "" := by
    intro hnil
    obtain ⟨cs, hcs⟩ := (climbText k).head
    have := congrArg String.toList hnil
    simp [String.toList_append, hcs] at this
  rw [join_climb k hn]
  simp only [isUsable, Path.isEmpty, Bool.and_eq_true, Bool.not_eq_true',
    beq_eq_false_iff_ne, decide_eq_true_eq, byteLength_append,
    (climbText k).length, hlength, List.contains_eq_mem,
    decide_eq_false_iff_not, String.toList_append, List.mem_append,
    (climbText k).chars]
  simp [hne]

theorem parent?_join_climb (k : Nat) {n : String} (hn : IsName n)
    (hhead : n.toList.head? ≠ some '/') :
    ((climb k).join n).parent? = some (climb k) := by
  obtain ⟨cs, hcs⟩ := (climbText k).head
  obtain ⟨rest, hrest, hcut⟩ := (climbText k).pieces
  have htext : ((climb k).join n).text.toList
      = (climb k).text.toList ++ '/' :: n.toList := by
    rw [join_climb k hhead]
    simp [String.toList_append]
  have hpieces : Path.namePieces ((climb k).join n).text.toList
      = ['s'] :: (rest ++ [n.toList]) := by
    rw [htext, Path.namePieces, Text.pieces_append_cons,
      Text.pieces_of_not_mem hn.2.2.2, ← Path.namePieces, hrest]
    rfl
  have hsilent : Path.isSilent n.toList = false := by
    rw [← Path.isSilentName_ofList, String.ofList_toList, hn.isSilentName]
  have hrelative (cs' : List Char) :
      ((climb k).join n).text.toList ≠ '/' :: cs' := by
    rw [htext, hcs]
    simp
  rw [Path.parent?_of_fromComponent hrelative hpieces
      (Path.fromComponent_reverse_concat hsilent), hcut, List.reverse_reverse,
    ← hrest, Path.namePieces, Text.unpieces_pieces, String.ofList_toList]

theorem leadsTo_climb (k : Nat) : longDisk.LeadsTo (climb k) ["s"] := by
  have hstart (k : Nat) : longDisk.start (climb k) = [] := by
    rw [start]
    split <;> rfl
  rw [LeadsTo, hstart]
  induction k with
  | zero => rfl
  | succ k ih =>
      have hnames : namesOf (climb (k + 1))
          = namesOf (climb k) ++ ["..", "s"] := by
        rw [namesOf, toList_climb_succ, Path.namePieces,
          Text.pieces_append_cons, List.map_append]
        rfl
      rw [hnames, follow_append holds_nil (by simp)]
      exact ⟨["s"], ih, rfl⟩

/-- A path to the directory of the two that is too long for the system once the
name of the header is joined to it. -/
structure IsLong (root : Path) : Prop where
  locate : longDisk.locate root = some (["s"], .directory)
  reads : longDisk.locate (root.join "m.c") = some (["s", "m.c"],
    .file (Text.encode "#include \"initializer_list\"\n"))
  parent? : (root.join "m.c").parent? = some root
  misses : longDisk.isFile (root.join "initializer_list") = false

theorem isLong_climb : IsLong (climb 817) where
  locate := by
    have hlength := (climbText 817).length
    refine (locate_iff ordinary_longDisk.linkFree).2 ⟨?_, leadsTo_climb 817⟩
    obtain ⟨cs, hcs⟩ := (climbText 817).head
    have hne : (climb 817).text ≠ "" := by
      intro hnil
      rw [hnil] at hcs
      cases hcs
    simp [isUsable, Path.isEmpty, hne, hlength, (climbText 817).chars]
  reads := by
    have hhead : "m.c".toList.head? ≠ some '/' := by decide
    have hlength : Text.byteLength "m.c" = 3 := by decide
    refine (locate_iff ordinary_longDisk.linkFree).2 ⟨?_, ?_⟩
    · refine (isUsable_join_climb 817 hhead).2 ⟨?_, by decide⟩
      omega
    · exact (follow_join (ordinary_longDisk.holds_start _) hhead).2
        ⟨["s"], leadsTo_climb 817, by rfl⟩
  parent? := parent?_join_climb 817 (by decide) (by decide)
  misses := by
    refine Bool.eq_false_iff.2 fun hfile => ?_
    obtain ⟨q, bytes, hlocate⟩ := isFile_iff_locate.1 hfile
    have husable := (isUsable_join_climb 817 (by decide)).1
      (isUsable_of_locate hlocate)
    have hlength : Text.byteLength "initializer_list" = 16 := by decide
    omega

namespace IsLong

variable {root : Path}

/-- What a walk comes by below a path to the directory. -/
theorem walk_longDisk (h : longDisk.locate root = some (["s"], .directory)) :
    longDisk.walk byName longDisk.levels root
      = some [⟨root, false⟩, ⟨root.join "initializer_list", true⟩,
        ⟨root.join "m.c", true⟩] := by
  have hentries : longDisk.entries ["s"]
      = [("initializer_list", .file []),
        ("m.c", .file (Text.encode "#include \"initializer_list\"\n"))] := by
    decide
  obtain ⟨depth, hdepth⟩ : ∃ depth, longDisk.levels = depth + 1 :=
    ⟨19, by decide⟩
  rw [walk, h, hdepth]
  simp only [visitsBelow, byName, hentries, resolveEntry, Node.isLink,
    List.flatMap_cons, List.flatMap_nil]
  rfl

theorem walk_short : longDisk.walk byName longDisk.levels ⟨"/s"⟩
    = some [⟨⟨"/s"⟩, false⟩, ⟨header, true⟩, ⟨includer, true⟩] :=
  (walk_longDisk (by decide)).trans (by decide)

theorem canonical_includer (h : IsLong root) :
    longDisk.canonical (root.join "m.c") = includer :=
  canonical_of_locate h.reads

/-- Beside the long path the header is not found. -/
theorem leads_includer (h : IsLong root) :
    leads longDisk [] includer (root.join "m.c") = [] := by
  have hdirectives : directivesIn (longDisk.contents includer)
      = [⟨"initializer_list", true⟩] := by
    decide
  simp [leads, hdirectives, resolveDirective, h.parent?, h.misses]

theorem sourcesBelow_eq (h : IsLong root) : sourcesBelow longDisk
    ((longDisk.walk byName longDisk.levels root).getD [])
      = [root.join "m.c"] := by
  have hroot : longDisk.isFile root = false := by
    rw [isFile, read?, h.locate]
    rfl
  have hfile := isFile_of_locate h.reads
  obtain ⟨mid, n, hlies, hcanonical⟩ :=
    liesIn_canonical ordinary_longDisk h.reads
  have hextension : (root.join "m.c").extension? = some "c" := by
    rw [hlies.extension? hcanonical, h.canonical_includer]
    decide
  have hsource : isSource (root.join "m.c") = true := by
    rw [← isSource_canonical ordinary_longDisk hfile, h.canonical_includer]
    decide
  rw [walk_longDisk h.locate]
  simp [sourcesBelow, hroot, h.misses, hfile, hextension, hsource]

theorem sourcesBelow_short : sourcesBelow longDisk
    ((longDisk.walk byName longDisk.levels ⟨"/s"⟩).getD [])
      = [includer] := by
  rw [walk_short]
  decide

theorem sources_longDisk (h : IsLong root) {roots : List Path}
    (hroots : ∀ p ∈ roots, p = root ∨ p = ⟨"/s"⟩) :
    sources longDisk roots = .ok (roots.flatMap fun root =>
      sourcesBelow longDisk
        ((longDisk.walk byName longDisk.levels root).getD [])) := by
  refine sources_eq fun p hp => ?_
  rcases hroots p hp with rfl | rfl
  · rw [walk_longDisk h.locate]
    rfl
  · rw [walk_short]
    rfl

theorem directiveCount_longDisk : directiveCount longDisk = 1 := by
  decide

/-- The long path is taken up, and the file is not met again by the other. -/
theorem takenFrom_long (h : IsLong root) :
    takenFrom longDisk [root, ⟨"/s"⟩] [] = [root.join "m.c"] := by
  rw [takenFrom, h.sources_longDisk (by simp)]
  simp [h.sourcesBelow_eq, sourcesBelow_short, directiveCount_longDisk, taken,
    later, h.canonical_includer, canonical_includer_self, h.leads_includer]

/-- The file is met by its own path, and so is the header. -/
theorem takenFrom_short (h : IsLong root) :
    takenFrom longDisk [⟨"/s"⟩, root] [] = [includer, header] := by
  have hlater : later longDisk [] ((∅ : FileSet).insert includer)
      includer = [header] := by
    decide +kernel
  have hne : header ≠ includer := by decide
  rw [takenFrom, h.sources_longDisk (by simp)]
  simp [h.sourcesBelow_eq, sourcesBelow_short, directiveCount_longDisk, taken,
    hlater, h.canonical_includer, canonical_includer_self,
    canonical_header_self, hne]

theorem canonical_of_isFile (hp : longDisk.isFile p = true) :
    longDisk.canonical p = includer ∨ longDisk.canonical p = header := by
  obtain ⟨place, bytes, hplace, hholds, _⟩ := read?_of_isFile ordinary_longDisk hp
  have hnode := hholds.node?
  rw [node?] at hnode
  split at hnode
  · cases hnode
  · obtain ⟨a, ha, hbytes⟩ := Option.map_eq_some_iff.1 hnode
    have heq : a.1 = place := by simpa using List.find?_some ha
    have hmem := List.mem_of_find?_eq_some ha
    rw [hplace, ← heq]
    simp only [longDisk, List.mem_cons, List.not_mem_nil, or_false] at hmem
    rcases hmem with rfl | rfl | rfl
    · cases hbytes
    · exact .inr (by decide)
    · exact .inl (by decide)

theorem firstWay_long (h : IsLong root) :
    firstWay longDisk [root, ⟨"/s"⟩] [] includer = root.join "m.c" := by
  rw [firstWay, h.takenFrom_long]
  simp [h.canonical_includer]

theorem firstWay_short (h : IsLong root) :
    firstWay longDisk [⟨"/s"⟩, root] [] includer = includer := by
  rw [firstWay, h.takenFrom_short]
  simp [canonical_includer_self]

theorem known_includer {roots : List Path} (hroots : ⟨"/s"⟩ ∈ roots)
    (way : Path → Path) : Known longDisk roots [] way includer := by
  have hbelow : SourceBelow longDisk ⟨"/s"⟩ includer :=
    ⟨⟨["m.c"], by decide, by decide⟩, by decide,
      by decide, by decide⟩
  have hknown : Known longDisk roots [] way (longDisk.canonical includer) :=
    .fromRoot hroots hbelow
  rwa [canonical_includer_self] at hknown

/-- What a scan that comes by the long path knows. -/
theorem eq_includer_of_known (h : IsLong root)
    (hf : Known longDisk [root, ⟨"/s"⟩] []
      (firstWay longDisk [root, ⟨"/s"⟩] []) f) : f = includer := by
  induction hf with
  | @fromRoot _ p _ hp =>
      refine (canonical_of_isFile hp.isFile).resolve_right fun hheader => ?_
      obtain ⟨q, bytes, hlocate⟩ := isFile_iff_locate.1 hp.isFile
      obtain ⟨mid, n, hlies, hcanonical⟩ :=
        liesIn_canonical ordinary_longDisk hlocate
      have hextension := hp.extension
      have hnone : header.extension? = none := by decide
      rw [hlies.extension? hcanonical, hheader, hnone] at hextension
      cases hextension
  | included _ ht _ ih =>
      rw [ih, h.firstWay_long, targets, h.leads_includer] at ht
      cases ht

theorem hides_header (h : IsLong root) :
    (∀ p ∈ [root, ⟨"/s"⟩], longDisk.pathExists p = true)
      ∧ ∃ s w s' w',
        Snapshot.scan longDisk [root, ⟨"/s"⟩] [] {} = .ok (s, w)
          ∧ Snapshot.scan longDisk [⟨"/s"⟩, root] [] {} = .ok (s', w')
          ∧ s.arena.knows includer = true ∧ s.arena.knows header = false
          ∧ s'.arena.knows includer = true ∧ s'.arena.knows header = true := by
  have hroot : longDisk.pathExists root = true := by
    rw [pathExists, h.locate]
    rfl
  have hshort : longDisk.pathExists ⟨"/s"⟩ = true := by decide
  have hroots : ∀ p ∈ [root, ⟨"/s"⟩], longDisk.pathExists p = true := by
    simp [hroot, hshort]
  obtain ⟨s, w, hs⟩ := exists_outcome ordinary_longDisk hroots [] {}
  obtain ⟨s', w', hs'⟩ := exists_outcome ordinary_longDisk
    (by simp [hroot, hshort] : ∀ p ∈ [⟨"/s"⟩, root], _) [] {}
  refine ⟨hroots, s, w, s', w', hs.scan, hs'.scan, ?_, ?_, ?_, ?_⟩
  · exact (hs.graph.knows _).2 (known_includer (by simp) _)
  · refine Bool.eq_false_iff.2 fun hknows => ?_
    have heq := h.eq_includer_of_known ((hs.graph.knows _).1 hknows)
    exact absurd heq (by decide)
  · exact (hs'.graph.knows _).2 (known_includer (by simp) _)
  · refine (hs'.graph.knows _).2
      (.included (known_includer (by simp) _) ?_ (by decide))
    rw [h.firstWay_short]
    exact header_mem_targets

end IsLong

/-- **A long path can hide a header, and the order of the roots can bring it
back.** The file is known, and its include leads to the header in its own
directory, but the scan that comes to the file by the long path does not know
the header. With the roots in the other order it does. -/
theorem not_least_longRoot :
    longDisk.Ordinary
      ∧ (∀ root ∈ [climb 817, ⟨"/s"⟩], longDisk.pathExists root = true)
      ∧ header ∈ targets longDisk [] includer includer
      ∧ isSource header = true
      ∧ ∃ s w s' w',
        Snapshot.scan longDisk [climb 817, ⟨"/s"⟩] [] {} = .ok (s, w)
          ∧ Snapshot.scan longDisk [⟨"/s"⟩, climb 817] [] {} = .ok (s', w')
          ∧ s.arena.knows includer = true ∧ s.arena.knows header = false
          ∧ s'.arena.knows includer = true ∧ s'.arena.knows header = true := by
  obtain ⟨hroots, hscans⟩ := isLong_climb.hides_header
  exact ⟨ordinary_longDisk, hroots, header_mem_targets, by decide, hscans⟩

end Scan

end IncludeBlock
