import IncludeBlock.Proofs.Disk.Components
import IncludeBlock.Proofs.Disk.LinkFree

/-!
# Many ways to a directory

A file can be reached by many paths: relative ones, and ones that go up and
down again. The directory of such a path and the directory that the file lies in
are not the same text, but names behind either lead to the same place
(`liesIn_of_locate`, `follow_join`). So it does not matter by which path a file
was reached, unless the system refuses what is joined to it
(`locate_join_congr`).
-/

namespace IncludeBlock

namespace Disk

/-- A disk as a system has it: it has no links, all names on it are names that
an entry can have, and the directory where relative paths start is there. -/
structure Ordinary (d : Disk) : Prop where
  linkFree : d.LinkFree
  named : d.Named
  workingDirectory : d.Holds d.workingDirectory .directory

/-- The directory that the names of a path start from. -/
def start (d : Disk) (p : Path) : Location :=
  if p.isAbsolute then [] else d.workingDirectory

/-- The names of a path lead to a directory, whether or not the system would
take the path. -/
def LeadsTo (d : Disk) (p : Path) (place : Location) : Prop :=
  d.follow (d.start p) (namesOf p) = some (.present place .directory)

variable {d : Disk} {here mid q : Location} {names rest : List String}
  {n : String} {node : Node} {bytes : List UInt8} {p dir dir' : Path}
  {tail : String} {t : Target}

theorem Ordinary.holds_start (hd : d.Ordinary) (p : Path) :
    d.Holds (d.start p) .directory := by
  rw [start]
  split
  · exact holds_nil
  · exact hd.workingDirectory

theorem locate_iff (hd : d.LinkFree) : d.locate p = some (q, node)
    ↔ isUsable p = true
      ∧ d.follow (d.start p) (namesOf p) = some (.present q node) := by
  rw [locate, lookup, followWithin_eq_follow hd, ← start]
  by_cases husable : isUsable p = true
  · rw [if_pos husable]
    cases d.follow (d.start p) (namesOf p) with
    | none => simp
    | some target => cases target <;> simp [husable]
  · simp [husable]

/-! ## Names behind names -/

theorem holds_of_follow (hhere : d.Holds here .directory)
    (h : d.follow here names = some (.present q node)) : d.Holds q node := by
  induction names generalizing here with
  | nil =>
      change (d.node? here).map _ = _ at h
      rw [hhere.node?] at h
      cases h
      exact hhere
  | cons n rest ih =>
      cases hn : isSilentName n with
      | true =>
          rw [follow_cons_of_isSilentName hn] at h
          exact ih hhere h
      | false =>
          rw [follow_cons hn] at h
          split at h
          · exact ih hhere.dropLast h
          · split at h
            · split at h <;> cases h
            · rename_i hnode
              exact ih (holds_concat.2 ⟨hnode, hhere⟩) h
            · rename_i hnode
              split at h
              · cases h
                exact holds_concat.2 ⟨hnode, hhere⟩
              · cases h
            · cases h

/-- **A look-up goes on from the directory that the first names lead to.** -/
theorem follow_append (hhere : d.Holds here .directory) (hne : rest ≠ []) :
    d.follow here (names ++ rest) = some t
      ↔ ∃ mid, d.follow here names = some (.present mid .directory)
        ∧ d.follow mid rest = some t := by
  induction names generalizing here with
  | nil =>
      have hnil : d.follow here [] = some (.present here .directory) := by
        change (d.node? here).map _ = _
        rw [hhere.node?]
        rfl
      simp [hnil]
  | cons n names ih =>
      rw [List.cons_append]
      cases hn : isSilentName n with
      | true =>
          rw [follow_cons_of_isSilentName hn, follow_cons_of_isSilentName hn]
          exact ih hhere
      | false =>
          rw [follow_cons hn, follow_cons hn]
          split
          · exact ih hhere.dropLast
          · split
            · -- nothing is there, or a free place
              split <;> simp_all
            · rename_i hnode
              exact ih (holds_concat.2 ⟨hnode, hhere⟩)
            · split <;> simp_all
            · simp

/-- Silent names do not matter on the way to a directory. -/
theorem follow_filter_directory :
    d.follow here (names.filter (!isSilentName ·))
        = some (.present q .directory)
      ↔ d.follow here names = some (.present q .directory) := by
  induction names generalizing here with
  | nil => rfl
  | cons n rest ih =>
      cases hn : isSilentName n with
      | true =>
          rw [List.filter_cons_of_neg (by simp [hn]),
            follow_cons_of_isSilentName hn]
          exact ih
      | false =>
          rw [List.filter_cons_of_pos (by simp [hn]), follow_cons hn,
            follow_cons hn]
          split
          · exact ih
          · split
            · split <;> split <;> simp
            · exact ih
            · split <;> split <;> simp
            · rfl

/-- Only a name that is not silent leads from a directory to a file. -/
theorem follow_singleton_file (hhere : d.Holds here .directory)
    (hn : isSilentName n = false)
    (h : d.follow here [n] = some (.present q (.file bytes))) :
    q = here ++ [n] := by
  rw [follow_cons hn] at h
  split at h
  · change (d.node? here.dropLast).map _ = _ at h
    rw [hhere.dropLast.node?] at h
    cases h
  · split at h
    · cases h
    · rename_i hnode
      change (d.node? (here ++ [n])).map _ = _ at h
      rw [hnode] at h
      cases h
    · cases h
      rfl
    · cases h

/-! ## Joining -/

theorem start_join (htail : tail.toList.head? ≠ some '/') (dir : Path) :
    d.start (dir.join tail) = d.start dir := by
  rw [start, start, Path.isAbsolute_join_eq htail]

/-- **What a relative text leads to behind a path**: to what its names lead to
from the directory that the path leads to. -/
theorem follow_join (hstart : d.Holds (d.start dir) .directory)
    (htail : tail.toList.head? ≠ some '/') :
    d.follow (d.start (dir.join tail)) (namesOf (dir.join tail)) = some t
      ↔ ∃ mid, d.LeadsTo dir mid ∧ d.follow mid (namesOf ⟨tail⟩) = some t := by
  obtain ⟨front, hdir, hjoin⟩ := Path.exists_namesOf_join htail dir
  rw [start_join htail, hjoin, follow_append hstart (Path.namesOf_ne_nil _)]
  refine exists_congr fun mid => and_congr_left fun _ => ?_
  rw [LeadsTo]
  rcases hdir with hdir | hdir
  · rw [hdir]
  · have hfilter : (front ++ [""]).filter (!isSilentName ·)
        = front.filter (!isSilentName ·) := by
      rw [List.filter_append, List.filter_cons_of_neg (by decide),
        List.filter_nil, List.append_nil]
    rw [hdir, ← follow_filter_directory, ← hfilter, follow_filter_directory]

theorem LeadsTo.unique (h : d.LeadsTo dir mid) (h' : d.LeadsTo dir q) :
    q = mid := by
  rw [LeadsTo, h] at h'
  cases h'
  rfl

theorem LeadsTo.holds (hstart : d.Holds (d.start dir) .directory)
    (h : d.LeadsTo dir mid) : d.Holds mid .directory :=
  holds_of_follow hstart h

/-- What one name behind a path leads to. -/
theorem follow_join_name (hstart : d.Holds (d.start dir) .directory)
    (hn : IsName n) :
    d.follow (d.start (dir.join n)) (namesOf (dir.join n)) = some t
      ↔ ∃ place, d.LeadsTo dir place ∧ d.follow place [n] = some t := by
  rw [follow_join hstart hn.head?_ne, Path.namesOf_of_isName hn]

/-- **What names behind a path lead to** is what stands below its directory. -/
theorem follow_foldl_join (hd : d.LinkFree)
    (hstart : d.Holds (d.start dir) .directory)
    (hnames : ∀ n ∈ names, IsName n) (hne : names ≠ []) :
    d.follow (d.start (names.foldl Path.join dir))
        (namesOf (names.foldl Path.join dir)) = some (.present q node)
      ↔ ∃ place, d.LeadsTo dir place ∧ q = place ++ names
        ∧ d.Holds q node := by
  induction names generalizing dir with
  | nil => exact absurd rfl hne
  | cons n rest ih =>
      obtain ⟨hn, hrest⟩ := List.forall_mem_cons.1 hnames
      rw [List.foldl_cons]
      by_cases hnil : rest = []
      · subst hnil
        rw [List.foldl_nil, follow_join_name hstart hn]
        refine exists_congr fun place => and_congr_right fun h => ?_
        exact follow_names hd (h.holds hstart) (by simpa using hn)
      · have hnext : d.Holds (d.start (dir.join n)) .directory := by
          rwa [start_join hn.head?_ne]
        refine (ih hnext hrest hnil).trans ?_
        constructor
        · rintro ⟨mid, hmid, rfl, hq⟩
          obtain ⟨place, hroot, hstep⟩ := (follow_join_name hstart hn).1 hmid
          obtain ⟨rfl, _⟩ := (follow_names hd (hroot.holds hstart)
            (by simpa using hn)).1 hstep
          exact ⟨place, hroot, by simp, hq⟩
        · rintro ⟨place, hroot, rfl, hq⟩
          have hbelow : d.Holds (place ++ [n] ++ rest) node := by simpa using hq
          have hmid : d.LeadsTo (dir.join n) (place ++ [n]) := by
            refine (follow_join_name hstart hn).2 ⟨place, hroot, ?_⟩
            refine (follow_names hd (hroot.holds hstart)
              (by simpa using hn)).2 ⟨rfl, hbelow.of_append hnil⟩
          exact ⟨place ++ [n], hmid, by simp, hq⟩

/-- **Behind two paths to one directory a text leads to the same**, if the
system takes both or neither. -/
theorem locate_join_congr (hd : d.Ordinary) (hdir : d.LeadsTo dir mid)
    (hdir' : d.LeadsTo dir' mid)
    (husable : isUsable (dir.join tail) = isUsable (dir'.join tail)) :
    d.locate (dir.join tail) = d.locate (dir'.join tail) := by
  by_cases htail : tail.toList.head? = some '/'
  · rw [Path.join, Path.join, if_pos (by simp [htail]),
      if_pos (by simp [htail])]
  · have hfollow : d.follow (d.start (dir.join tail)) (namesOf (dir.join tail))
        = d.follow (d.start (dir'.join tail)) (namesOf (dir'.join tail)) := by
      refine Option.ext fun t => ?_
      rw [follow_join (hd.holds_start dir) htail,
        follow_join (hd.holds_start dir') htail]
      constructor
      · rintro ⟨mid', h, ht⟩
        exact ⟨mid, hdir', hdir.unique h ▸ ht⟩
      · rintro ⟨mid', h, ht⟩
        exact ⟨mid, hdir, hdir'.unique h ▸ ht⟩
    refine Option.ext fun found => ?_
    obtain ⟨q, node⟩ := found
    rw [locate_iff hd.linkFree, locate_iff hd.linkFree, husable, hfollow]

theorem isFile_congr {p' : Path} (h : d.locate p = d.locate p') :
    d.isFile p = d.isFile p' := by
  rw [isFile, isFile, read?, read?, h]

theorem canonical_congr {p' : Path} (h : d.locate p = d.locate p')
    (hp : d.isFile p = true) : d.canonical p = d.canonical p' := by
  obtain ⟨q, bytes, hq⟩ := isFile_iff_locate.1 hp
  rw [canonical_of_locate hq, canonical_of_locate (h.symm.trans hq)]

/-- Nothing that is joined to a directory leads to a file unless it ends in a
name. -/
theorem not_isFile_join_empty (hd : d.Ordinary) (dir : Path) :
    d.isFile (dir.join "") = false := by
  refine Bool.eq_false_iff.2 fun hfile => ?_
  obtain ⟨q, bytes, hlocate⟩ := isFile_iff_locate.1 hfile
  obtain ⟨_, hfollow⟩ := (locate_iff hd.linkFree).1 hlocate
  obtain ⟨front, _, hjoin⟩ :=
    Path.exists_namesOf_join (by decide : "".toList.head? ≠ some '/') dir
  have hends := endsInName_of_file (hd.holds_start _) hfollow
  rw [hjoin] at hends
  have hempty : namesOf ⟨""⟩ = [""] := rfl
  have hsilent := hends "" (by simp [hempty])
  cases hsilent

/-! ## The directory of a file -/

theorem leadsTo_pathOf (hd : d.Ordinary) (h : d.Holds here .directory) :
    d.LeadsTo (pathOf here) here := by
  have hnames := isName_of_node? hd.named h.node?
  have hfilter : (namesOf (pathOf here)).filter (!isSilentName ·) = here := by
    by_cases hne : here = []
    · subst hne
      rfl
    · rw [namesOf_pathOf hnames hne, List.filter_cons_of_neg (by decide)]
      exact List.filter_eq_self.2 fun n hn => by
        simp [(hnames n hn).isSilentName]
  rw [LeadsTo, start, if_pos (isAbsolute_pathOf here),
    ← follow_filter_directory, hfilter,
    follow_names hd.linkFree holds_nil hnames]
  exact ⟨rfl, h⟩

/-- Where a file lies, by a path that leads to it. -/
structure LiesIn (d : Disk) (p : Path) (mid : Location) (n : String) :
    Prop where
  parent? : p.parent? = some p.directory
  leadsTo : d.LeadsTo p.directory mid
  fileName? : p.fileName? = some n

/-- A path to a file ends in the name of the file, and what is before this name
leads to the directory of the file. -/
theorem exists_namesOf_of_locate (hd : d.LinkFree) (hnamed : d.Named)
    (hstart : d.Holds (d.start p) .directory)
    (h : d.locate p = some (q, .file bytes)) :
    ∃ names mid n, namesOf p = names ++ [n] ∧ IsName n ∧ q = mid ++ [n]
      ∧ d.follow (d.start p) names = some (.present mid .directory) := by
  obtain ⟨_, hfollow⟩ := (locate_iff hd).1 h
  have hends := endsInName_of_file hstart hfollow
  obtain ⟨names, n, hnames⟩ : ∃ names n, namesOf p = names ++ [n] :=
    ⟨_, _, (List.dropLast_concat_getLast (Path.namesOf_ne_nil p)).symm⟩
  have hn : isSilentName n = false := by
    rw [hnames] at hends
    exact hends n (by simp)
  rw [hnames, follow_append hstart (by simp)] at hfollow
  obtain ⟨mid, hmid, hlast⟩ := hfollow
  have hholds := holds_of_follow hstart hmid
  obtain rfl := follow_singleton_file hholds hn hlast
  have hname : IsName n := isName_of_node? hnamed
    (holds_of_follow hholds hlast).node? n (by simp)
  exact ⟨names, mid, n, hnames, hname, rfl, hmid⟩

/-- **The directory in a path to a file leads to the directory of the file.** -/
theorem liesIn_of_locate (hd : d.Ordinary)
    (h : d.locate p = some (q, .file bytes)) :
    ∃ mid n, q = mid ++ [n] ∧ d.LiesIn p mid n := by
  obtain ⟨names, mid, n, hnames, hname, rfl, hmid⟩ :=
    exists_namesOf_of_locate hd.linkFree hd.named (hd.holds_start p) h
  obtain ⟨dir, hparent, habsolute, hfilter⟩ :=
    Path.parent?_of_namesOf hname.isSilentName hnames
  have hdirectory : p.directory = dir := by
    rw [Path.directory, hparent]
    rfl
  refine ⟨mid, n, rfl, hdirectory ▸ hparent, ?_,
    Path.fileName?_of_namesOf hname hnames⟩
  rw [hdirectory, LeadsTo, start, habsolute, ← follow_filter_directory, hfilter,
    follow_filter_directory]
  exact hmid

theorem liesIn_pathOf (hd : d.Ordinary)
    (h : d.Holds (mid ++ [n]) (.file bytes)) :
    d.LiesIn (pathOf (mid ++ [n])) mid n := by
  have hnames := isName_of_node? hd.named h.node?
  have hparent := parent?_pathOf_concat hnames
  have hdirectory : (pathOf (mid ++ [n])).directory = pathOf mid := by
    rw [Path.directory, hparent]
    rfl
  refine ⟨hdirectory ▸ hparent, ?_, ?_⟩
  · rw [hdirectory]
    exact leadsTo_pathOf hd (holds_concat.1 h).2
  · rw [Path.fileName?, components_pathOf hnames, List.map_append,
      List.map_singleton, ← List.cons_append, List.getLast?_concat]

theorem LiesIn.extension? (h : d.LiesIn p mid n) {p' : Path}
    (h' : d.LiesIn p' mid n) : p.extension? = p'.extension? := by
  rw [Path.extension?, Path.extension?, h.fileName?, h'.fileName?]

/-- A file lies where its canonical path says. -/
theorem liesIn_canonical (hd : d.Ordinary)
    (h : d.locate p = some (q, .file bytes)) :
    ∃ mid n, d.LiesIn p mid n ∧ d.LiesIn (d.canonical p) mid n := by
  obtain ⟨mid, n, rfl, hp⟩ := liesIn_of_locate hd h
  refine ⟨mid, n, hp, ?_⟩
  rw [canonical_of_locate h]
  obtain ⟨_, hfollow⟩ := (locate_iff hd.linkFree).1 h
  exact liesIn_pathOf hd (holds_of_follow (hd.holds_start p) hfollow)

end Disk

end IncludeBlock
