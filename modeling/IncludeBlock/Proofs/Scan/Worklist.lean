import IncludeBlock.Proofs.Scan.Sources
import IncludeBlock.Proofs.Snapshot.Relation

/-!
# The worklist of a scan

A scan takes paths from a queue and passes over those whose file it has met. The
graph that it makes is told by the paths that it takes up, in their order
(`arena_run`). Each of them leads to another file, and behind them nothing is
left: what is in the queue and what the files include is met, as long as the
steps suffice (`Trail`, `trail_taken`). They do, for taking up a file uses up
its directives (`length_later_add_unread`).
-/

namespace IncludeBlock

/-- The bytes of a file, by its canonical path. -/
def Disk.contents (d : Disk) (f : Path) : List UInt8 :=
  match d.node? f.place with
  | some (.file bytes) => bytes
  | _ => []

namespace Scan

open Disk

variable {d : Disk} {searchRoots queue ps : List Path} {p t f : Path}
  {seen : FileSet} {fuel : Nat}

/-! ## Files by the paths that lead to them -/

/-- What the directives of a file lead to, if it was reached by a path: what is
quoted is looked for beside that path first. -/
def leads (d : Disk) (searchRoots : List Path) (f p : Path) : List Path :=
  (directivesIn (d.contents f)).filterMap fun directive =>
    resolveDirective d p directive searchRoots

/-- The files that the directives of a file lead to. -/
def targets (d : Disk) (searchRoots : List Path) (f p : Path) : List Path :=
  (leads d searchRoots f p).map d.canonical

theorem isFile_of_mem_leads (h : t ∈ leads d searchRoots f p) :
    d.isFile t = true := by
  obtain ⟨directive, _, hfound⟩ := List.mem_filterMap.1 h
  exact List.find?_some hfound

/-- What a path to a file says about the file. -/
theorem read?_of_isFile (hd : d.Ordinary) (h : d.isFile p = true) :
    ∃ place bytes, d.canonical p = pathOf place
      ∧ d.Holds place (.file bytes)
      ∧ d.read? p = some bytes ∧ d.contents (d.canonical p) = bytes := by
  obtain ⟨place, bytes, hlocate⟩ := isFile_iff_locate.1 h
  obtain ⟨_, hfollow⟩ := (locate_iff hd.linkFree).1 hlocate
  have hholds := holds_of_follow (hd.holds_start p) hfollow
  have hcanonical := canonical_of_locate hlocate
  refine ⟨place, bytes, hcanonical, hholds, by rw [read?, hlocate], ?_⟩
  rw [contents, hcanonical,
    Path.place_pathOf (isName_of_node? hd.named hholds.node?), hholds.node?]

/-! ## The paths that are taken up -/

/-- The paths that are put into the queue when a path is taken up. -/
def later (d : Disk) (searchRoots : List Path) (seen : FileSet) (p : Path) :
    List Path :=
  (leads d searchRoots (d.canonical p) p).filter fun t =>
    d.canonical t ∉ seen ∧ isSource t

/-- The paths of a queue, and of what is put into it, that are taken up. -/
def taken (d : Disk) (searchRoots : List Path) :
    (fuel : Nat) → List Path → FileSet → List Path
  | 0, _, _ => []
  | _, [], _ => []
  | fuel + 1, p :: queue, seen =>
      let file := d.canonical p
      if file ∈ seen then taken d searchRoots fuel queue seen
      else
        let seen := seen.insert file
        p :: taken d searchRoots fuel (queue ++ later d searchRoots seen p) seen

/-- What taking up a path makes of a graph. -/
def takeUp (d : Disk) (searchRoots : List Path) (a : Arena) (p : Path) :
    Arena :=
  let file := d.canonical p
  (targets d searchRoots file p).foldl (·.addInclude file)
    (a.insertFile file (d.contents file).length).2

/-- What one directive adds to a record. -/
def noteDirective (d : Disk) (searchRoots : List Path) (path file : Path)
    (x : State × List Path) (directive : Directive) : State × List Path :=
  match resolveDirective d path directive searchRoots with
  | none => x
  | some target =>
      let (snapshot, versions) :=
        x.1.snapshot.addInclude file (d.canonical target) x.1.versions
      ({ x.1 with snapshot, versions },
        if d.canonical target ∉ x.1.seen ∧ isSource target then
          x.2 ++ [target]
        else x.2)

theorem foldl_noteDirective (d : Disk) (searchRoots : List Path)
    (path file : Path) (directives : List Directive)
    (x : State × List Path) :
    let ts := directives.filterMap (resolveDirective d path · searchRoots)
    let y := directives.foldl (noteDirective d searchRoots path file) x
    y.1.seen = x.1.seen
      ∧ y.1.snapshot.arena
        = (ts.map d.canonical).foldl (·.addInclude file) x.1.snapshot.arena
      ∧ y.2 = x.2 ++ ts.filter fun t =>
          d.canonical t ∉ x.1.seen ∧ isSource t := by
  induction directives generalizing x with
  | nil => simp
  | cons directive directives ih =>
      obtain ⟨hseen, harena, hlater⟩ :=
        ih (noteDirective d searchRoots path file x directive)
      simp only [List.foldl_cons, hseen, harena, hlater]
      cases htarget : resolveDirective d path directive searchRoots with
      | none => simp [noteDirective, htarget]
      | some target =>
          simp only [List.filterMap_cons, noteDirective, htarget,
            List.map_cons, List.foldl_cons, List.filter_cons]
          refine ⟨trivial, rfl, ?_⟩
          by_cases htest : d.canonical target ∉ x.1.seen ∧ isSource target
          · rw [if_pos htest, if_pos (decide_eq_true htest)]
            simp
          · rw [if_neg htest, if_neg (by simpa using htest)]

/-- **A record is what its path makes of the graph.** -/
theorem record_spec (searchRoots : List Path) (hd : d.Ordinary)
    (h : d.isFile p = true) (s : State)
    {bytes : List UInt8} (hread : d.read? p = some bytes) :
    let file := d.canonical p
    let x := record d searchRoots p file bytes s
    x.1.seen = s.seen.insert file
      ∧ x.1.snapshot.arena = takeUp d searchRoots s.snapshot.arena p
      ∧ x.2 = later d searchRoots (s.seen.insert file) p := by
  obtain ⟨place, bytes', _, _, hread', hcontents⟩ := read?_of_isFile hd h
  rw [hread] at hread'
  cases hread'
  obtain ⟨hseen, harena, hlater⟩ :=
    foldl_noteDirective d searchRoots p (d.canonical p) (directivesIn bytes)
      ({ snapshot := (s.snapshot.insertFile (d.canonical p) bytes.length
          s.versions).1
         versions := (s.snapshot.insertFile (d.canonical p) bytes.length
          s.versions).2
         seen := s.seen.insert (d.canonical p) }, [])
  refine ⟨hseen, ?_, ?_⟩
  · rw [takeUp, targets, leads, hcontents]
    exact harena
  · rw [later, leads, hcontents]
    exact hlater

/-- **The graph of a scan is told by the paths that it takes up.** -/
theorem arena_run (hd : d.Ordinary) (hqueue : ∀ p ∈ queue, d.isFile p = true)
    (s : State) :
    (run d searchRoots fuel queue s).snapshot.arena
      = (taken d searchRoots fuel queue s.seen).foldl (takeUp d searchRoots)
          s.snapshot.arena := by
  induction fuel generalizing queue s with
  | zero => rfl
  | succ fuel ih =>
      cases queue with
      | nil => rfl
      | cons p queue =>
          obtain ⟨hp, hqueue⟩ := List.forall_mem_cons.1 hqueue
          rw [run, taken]
          dsimp only
          split
          · exact ih hqueue s
          · obtain ⟨_, bytes, _, _, hread, _⟩ := read?_of_isFile hd hp
            obtain ⟨hseen, harena, hlater⟩ :=
              record_spec searchRoots hd hp s hread
            rw [hread]
            dsimp only
            rw [ih, hseen, harena, hlater, List.foldl_cons]
            rw [hlater]
            intro t ht
            rcases List.mem_append.1 ht with ht | ht
            · exact hqueue t ht
            · exact isFile_of_mem_leads (List.mem_filter.1 ht).1

/-! ## The steps suffice -/

/-- The directives of a node that is a file. -/
def directivesAt : Node → List Directive
  | .file bytes => directivesIn bytes
  | _ => []

/-- The number of directives in files that were not met. -/
def unreadIn (seen : FileSet) : List (Location × Node) → Nat
  | [] => 0
  | a :: rest =>
      (if pathOf a.1 ∈ seen then 0 else (directivesAt a.2).length)
        + unreadIn seen rest

theorem unreadIn_insert {place : Location} (h : pathOf place ∉ seen)
    (nodes : List (Location × Node)) :
    ((nodes.find? (·.1 == place)).elim 0 (directivesAt ·.2 |>.length))
        + unreadIn (seen.insert (pathOf place)) nodes
      ≤ unreadIn seen nodes := by
  induction nodes with
  | nil => simp [unreadIn]
  | cons a rest ih =>
      by_cases ha : a.1 = place
      · subst ha
        simp only [unreadIn, List.find?_cons, beq_self_eq_true,
          FileSet.mem_insert, true_or, if_true, if_neg h, Option.elim_some]
        omega
      · have hweight :
            (if pathOf a.1 ∈ seen.insert (pathOf place) then 0
              else (directivesAt a.2).length)
            ≤ if pathOf a.1 ∈ seen then 0 else (directivesAt a.2).length := by
          split
          · exact Nat.zero_le _
          · rename_i hnew
            have hold : pathOf a.1 ∉ seen :=
              fun hold => hnew (FileSet.mem_insert.2 (.inr hold))
            exact Nat.le_of_eq (if_neg hold).symm
        simp only [unreadIn, List.find?_cons, beq_eq_false_iff_ne.2 ha]
        omega

/-- The number of directives on a disk in files that were not met. -/
def unread (d : Disk) (seen : FileSet) : Nat :=
  unreadIn seen d.nodes

theorem unread_empty (d : Disk) : unread d ∅ = directiveCount d := by
  rw [unread, directiveCount]
  induction d.nodes with
  | nil => rfl
  | cons a nodes ih =>
      rw [unreadIn, ih, if_neg (FileSet.not_mem_empty _), List.flatMap_cons,
        List.length_append]
      rfl

/-- **Taking up a file uses up its directives.** -/
theorem length_later_add_unread (searchRoots : List Path) (hd : d.Ordinary)
    (hp : d.isFile p = true)
    (hnew : d.canonical p ∉ seen) :
    (later d searchRoots (seen.insert (d.canonical p)) p).length
        + unread d (seen.insert (d.canonical p))
      ≤ unread d seen := by
  obtain ⟨place, bytes, hplace, hholds, _, hcontents⟩ := read?_of_isFile hd hp
  have hlength :
      (later d searchRoots (seen.insert (d.canonical p)) p).length
        ≤ (directivesIn bytes).length := by
    refine Nat.le_trans (List.length_filter_le _ _) ?_
    rw [leads, hcontents]
    exact List.length_filterMap_le _ _
  have hfind : (d.nodes.find? (·.1 == place)).elim 0
      (directivesAt ·.2 |>.length) = (directivesIn bytes).length := by
    have hnode := hholds.node?
    rw [node?] at hnode
    split at hnode
    · cases hnode
    · obtain ⟨a, ha, hbytes⟩ := Option.map_eq_some_iff.1 hnode
      rw [ha, Option.elim_some, hbytes]
      rfl
  rw [hplace] at hnew hlength ⊢
  have hunread := unreadIn_insert hnew d.nodes
  unfold unread
  omega

/-- A queue of files that can be worked off in a number of steps. -/
structure Within (d : Disk) (fuel : Nat) (queue : List Path) (seen : FileSet) :
    Prop where
  isFile : ∀ p ∈ queue, d.isFile p = true
  bound : queue.length + unread d seen ≤ fuel

theorem Within.again (h : Within d (fuel + 1) (p :: queue) seen) :
    Within d fuel queue seen where
  isFile := (List.forall_mem_cons.1 h.isFile).2
  bound := by
    have hbound := h.bound
    rw [List.length_cons] at hbound
    omega

theorem Within.take (hd : d.Ordinary)
    (h : Within d (fuel + 1) (p :: queue) seen)
    (hnew : d.canonical p ∉ seen) (searchRoots : List Path) :
    Within d fuel
      (queue ++ later d searchRoots (seen.insert (d.canonical p)) p)
      (seen.insert (d.canonical p)) where
  isFile := by
    intro t ht
    rcases List.mem_append.1 ht with ht | ht
    · exact h.again.isFile t ht
    · exact isFile_of_mem_leads (List.mem_filter.1 ht).1
  bound := by
    have hbound := h.bound
    have huses := length_later_add_unread searchRoots hd
      (h.isFile p List.mem_cons_self) hnew
    rw [List.length_cons] at hbound
    rw [List.length_append]
    omega

theorem Within.eq_nil (h : Within d 0 queue seen) : queue = [] := by
  have hbound := h.bound
  exact List.length_eq_zero_iff.1 (by omega)

/-- **A scan ends of itself**: more steps than suffice change nothing. -/
theorem run_add (hd : d.Ordinary) {s : State} (h : Within d fuel queue s.seen)
    (more : Nat) :
    run d searchRoots (fuel + more) queue s
      = run d searchRoots fuel queue s := by
  induction fuel generalizing queue s with
  | zero =>
      obtain rfl := h.eq_nil
      cases more <;> rfl
  | succ fuel ih =>
      cases queue with
      | nil =>
          rw [Nat.succ_add]
          rfl
      | cons p queue =>
          rw [Nat.succ_add, run, run]
          dsimp only
          split
          · exact ih h.again
          · rename_i hnew
            have hp := h.isFile p List.mem_cons_self
            obtain ⟨_, bytes, _, _, hread, _⟩ := read?_of_isFile hd hp
            obtain ⟨hseen, _, hlater⟩ := record_spec searchRoots hd hp s hread
            rw [hread]
            refine ih ?_
            rw [hseen, hlater]
            exact h.take hd hnew searchRoots

/-! ## What is taken up -/

/-- What the paths that are taken up are like: each leads to a file that was
not met before, and the files of the queue and all that these paths lead on to
are met. -/
structure Trail (d : Disk) (searchRoots queue : List Path) (seen : FileSet)
    (ps : List Path) : Prop where
  isFile : ∀ p ∈ ps, d.isFile p = true
  fresh : ∀ p ∈ ps, d.canonical p ∉ seen
  distinct : (ps.map d.canonical).Nodup
  covers : ∀ p ∈ queue,
    d.canonical p ∈ seen ∨ d.canonical p ∈ ps.map d.canonical
  closed : ∀ p ∈ ps, ∀ t ∈ leads d searchRoots (d.canonical p) p,
    isSource t = true →
      d.canonical t ∈ seen ∨ d.canonical t ∈ ps.map d.canonical

theorem Trail.nil : Trail d searchRoots [] seen [] where
  isFile := by simp
  fresh := by simp
  distinct := List.nodup_nil
  covers := by simp
  closed := by simp

theorem Trail.again (hp : d.canonical p ∈ seen)
    (h : Trail d searchRoots queue seen ps) :
    Trail d searchRoots (p :: queue) seen ps where
  isFile := h.isFile
  fresh := h.fresh
  distinct := h.distinct
  covers := List.forall_mem_cons.2 ⟨.inl hp, h.covers⟩
  closed := h.closed

theorem Trail.take (hp : d.isFile p = true) (hnew : d.canonical p ∉ seen)
    (h : Trail d searchRoots
      (queue ++ later d searchRoots (seen.insert (d.canonical p)) p)
      (seen.insert (d.canonical p)) ps) :
    Trail d searchRoots (p :: queue) seen (p :: ps) := by
  -- what was met with `p` counted as met is met with `p` in front
  have hmet {f : Path} (hf : f ∈ seen.insert (d.canonical p)
      ∨ f ∈ ps.map d.canonical) :
      f ∈ seen ∨ f ∈ (p :: ps).map d.canonical := by
    rw [FileSet.mem_insert] at hf
    rw [List.map_cons, List.mem_cons]
    rcases hf with (hf | hf) | hf
    · exact .inr (.inl hf)
    · exact .inl hf
    · exact .inr (.inr hf)
  refine ⟨List.forall_mem_cons.2 ⟨hp, h.isFile⟩,
    List.forall_mem_cons.2 ⟨hnew, fun t ht hold => ?_⟩, ?_,
    List.forall_mem_cons.2 ⟨.inr (by simp), fun t ht => ?_⟩,
    List.forall_mem_cons.2 ⟨fun t ht hsource => ?_, fun q hq t ht hsource => ?_⟩⟩
  · exact h.fresh t ht (FileSet.mem_insert.2 (.inr hold))
  · refine List.nodup_cons.2 ⟨fun hmem => ?_, h.distinct⟩
    obtain ⟨q, hq, heq⟩ := List.mem_map.1 hmem
    exact h.fresh q hq (FileSet.mem_insert.2 (.inl heq))
  · exact hmet (h.covers t (List.mem_append_left _ ht))
  · by_cases hseen : d.canonical t ∈ seen.insert (d.canonical p)
    · exact hmet (.inl hseen)
    · refine hmet (h.covers t (List.mem_append_right _ ?_))
      exact List.mem_filter.2 ⟨ht, decide_eq_true ⟨hseen, hsource⟩⟩
  · exact hmet (h.closed q hq t ht hsource)

/-- **The paths that are taken up leave nothing behind.** -/
theorem trail_taken (hd : d.Ordinary) (searchRoots : List Path)
    (h : Within d fuel queue seen) :
    Trail d searchRoots queue seen (taken d searchRoots fuel queue seen) := by
  induction fuel generalizing queue seen with
  | zero =>
      obtain rfl := h.eq_nil
      exact .nil
  | succ fuel ih =>
      cases queue with
      | nil => exact .nil
      | cons p queue =>
          rw [taken]
          dsimp only
          split
          · rename_i hold
            exact .again hold (ih h.again)
          · rename_i hnew
            exact .take (h.isFile p List.mem_cons_self) hnew
              (ih (h.take hd hnew searchRoots))

/-- What holds of the queue and goes on to what a path leads to holds of all
paths that are taken up. -/
theorem forall_mem_taken {P : Path → Prop} (hqueue : ∀ p ∈ queue, P p)
    (hleads : ∀ p ∈ taken d searchRoots fuel queue seen, P p →
      ∀ t ∈ leads d searchRoots (d.canonical p) p, isSource t = true → P t) :
    ∀ p ∈ taken d searchRoots fuel queue seen, P p := by
  induction fuel generalizing queue seen with
  | zero => simp [taken]
  | succ fuel ih =>
      cases queue with
      | nil => simp [taken]
      | cons p queue =>
          obtain ⟨hp, hqueue⟩ := List.forall_mem_cons.1 hqueue
          rw [taken] at hleads ⊢
          dsimp only at hleads ⊢
          split at hleads
          · rename_i hold
            rw [if_pos hold]
            exact ih hqueue hleads
          · rename_i hnew
            rw [if_neg hnew]
            refine List.forall_mem_cons.2 ⟨hp, ih (fun t ht => ?_) ?_⟩
            · rcases List.mem_append.1 ht with ht | ht
              · exact hqueue t ht
              · obtain ⟨ht, htest⟩ := List.mem_filter.1 ht
                exact hleads p List.mem_cons_self hp t ht
                  (of_decide_eq_true htest).2
            · exact fun q hq => hleads q (List.mem_cons_of_mem _ hq)

end Scan

end IncludeBlock
