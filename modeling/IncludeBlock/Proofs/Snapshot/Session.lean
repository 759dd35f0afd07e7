import IncludeBlock.Index
import IncludeBlock.Proofs.Snapshot.Layout
import IncludeBlock.Scan
import IncludeBlock.Snapshot.File

/-!
# The snapshots of a session

A session makes snapshots of rows, by scans and by edits of others, reads some
from files and keeps an index. What is made keeps a graph linked, and each
version is drawn from the one supply (`Snapshot.Drawn`). A graph that is read
may have edges that lead to vacant slots.
-/

namespace IncludeBlock

/-! ## Edits keep a graph linked -/

namespace Slots

variable {α : Type} {slots : List (Option α)} {a b : α}

/-- No other element comes with one that is added. -/
theorem mem_of_mem_add (h : some b ∈ (add slots a).2) :
    b = a ∨ some b ∈ slots := by
  unfold add at h
  split at h
  · rcases List.mem_or_eq_of_mem_set h with h | h
    · exact .inr h
    · exact .inl (Option.some.inj h)
  · rcases List.mem_append.1 h with h | h
    · exact .inr h
    · exact .inl (Option.some.inj (List.mem_singleton.1 h))

end Slots

namespace Arena

variable {a : Arena} {i j : Nat}

/-- Every slot that holds a node in one graph holds one in another. -/
def Keeps (a b : Arena) : Prop :=
  ∀ i, (a.node? i).isSome → (b.node? i).isSome

theorem isSome_node?_iff : (a.node? i).isSome ↔ ∃ n, a.nodes[i]? = some (some n) := by
  rw [Option.isSome_iff_exists]
  exact exists_congr fun n => node?_eq_some_iff

theorem keeps_addNode (a : Arena) (n : FileNode) : a.Keeps (a.addNode n).2 := by
  intro i h
  obtain ⟨m, hm⟩ := isSome_node?_iff.1 h
  exact isSome_node?_iff.2 ⟨m, Slots.getElem?_add_of_some hm n⟩

theorem isSome_addNode (a : Arena) (n : FileNode) :
    ((a.addNode n).2.node? (a.addNode n).1).isSome :=
  isSome_node?_iff.2 ⟨n, Slots.getElem?_add_self a.nodes n⟩

theorem Linked.addNode (h : a.Linked) (n : FileNode) :
    (a.addNode n).2.Linked where
  table {f i} hslot := by
    have hslot : (a.slots.insert n.path (a.addNode n).1).get? f = some i := hslot
    rw [FileMap.get?_insert] at hslot
    split at hslot
    · cases hslot
      exact isSome_addNode a n
    · exact keeps_addNode a n i (h.table hslot)
  edges he :=
    (h.edges he).imp (keeps_addNode a n _) (keeps_addNode a n _)

/-- What an edit that gives a slot makes of a graph. -/
structure Extends (a b : Arena) (i : Nat) : Prop where
  linked : b.Linked
  keeps : a.Keeps b
  present : (b.node? i).isSome

theorem Linked.getOrAdd (h : a.Linked) (f : Path) :
    a.Extends (a.getOrAdd f).2 (a.getOrAdd f).1 := by
  unfold Arena.getOrAdd
  split
  · rename_i hslot
    exact ⟨h, fun _ => id, h.table hslot⟩
  · exact ⟨h.addNode _, keeps_addNode a _, isSome_addNode a _⟩

theorem Linked.insertFile (h : a.Linked) (f : Path) (size : Nat) :
    a.Extends (a.insertFile f size).2 (a.insertFile f size).1 := by
  unfold Arena.insertFile
  split
  · rename_i i hslot
    have hkeeps : a.Keeps
        { a with nodes := a.nodes.set i (some (.parsed f size)) } := by
      intro j hj
      obtain ⟨n, hn⟩ := isSome_node?_iff.1 hj
      refine isSome_node?_iff.2 ?_
      show ∃ n, (a.nodes.set i (some (.parsed f size)))[j]? = some (some n)
      rcases Decidable.eq_or_ne i j with rfl | hne
      · refine ⟨_, List.getElem?_set_self ?_⟩
        exact (List.getElem?_eq_some_iff.1 hn).1
      · exact ⟨n, (List.getElem?_set_ne hne).trans hn⟩
    exact ⟨⟨fun hs => hkeeps _ (h.table hs),
      fun he => (h.edges he).imp (hkeeps _) (hkeeps _)⟩, hkeeps,
      hkeeps i (h.table hslot)⟩
  · exact ⟨h.addNode _, keeps_addNode a _, isSome_addNode a _⟩

theorem Linked.addEdge (h : a.Linked) (hi : (a.node? i).isSome)
    (hj : (a.node? j).isSome) : (a.addEdge i j).Linked := by
  unfold Arena.addEdge
  split
  · exact h
  · refine ⟨h.table, fun he => ?_⟩
    rcases Slots.mem_of_mem_add he with heq | he
    · cases heq
      exact ⟨hi, hj⟩
    · exact h.edges he

theorem Linked.addInclude (h : a.Linked) (f g : Path) :
    (a.addInclude f g).Linked := by
  have hsource := h.getOrAdd f
  have htarget := hsource.linked.getOrAdd g
  exact htarget.linked.addEdge (htarget.keeps _ hsource.present)
    htarget.present

theorem linked_empty : empty.Linked where
  table h := by cases h
  edges h := by cases h

end Arena

/-! ## Versions that are drawn -/

namespace Snapshot

/-- A linked snapshot that was made while the supply went from `v` to `w`: its
version is zero or was drawn in between. -/
structure Drawn (v w : Versions) (s : Snapshot) : Prop where
  linked : s.arena.Linked
  supply : v.next ≤ w.next
  drawn : s.version = 0 ∨ v.next ≤ s.version ∧ s.version < w.next

variable {u v w : Versions} {s : Snapshot}

theorem drawn_empty (v : Versions) : Drawn v v empty :=
  ⟨Arena.linked_empty, Nat.le_refl _, .inl rfl⟩

theorem drawn_stamped {a : Arena} (ha : a.Linked) (huv : u.next ≤ v.next) :
    Drawn u (stamped a v).2 (stamped a v).1 :=
  ⟨ha, Nat.le_succ_of_le huv, .inr ⟨huv, Nat.lt_succ_self _⟩⟩

/-- A snapshot may be changed again and again in the making. -/
theorem Drawn.insertFile (h : Drawn u v s) (f : Path) (size : Nat) :
    Drawn u (s.insertFile f size v).2 (s.insertFile f size v).1 :=
  drawn_stamped (h.linked.insertFile f size).linked h.supply

theorem Drawn.addInclude (h : Drawn u v s) (source target : Path) :
    Drawn u (s.addInclude source target v).2
      (s.addInclude source target v).1 :=
  drawn_stamped (h.linked.addInclude source target) h.supply

/-- What is read has the next version. -/
theorem load_eq {d : Disk} {p : Path} (h : load d p v = .ok (s, w)) :
    (s, w) = stamped s.arena v := by
  unfold load at h
  cases ha : readArena d p with
  | error e => rw [ha] at h; cases h
  | ok a => rw [ha] at h; cases h; rfl

theorem drawn_load {d : Disk} {p : Path} (h : load d p v = .ok (s, w))
    (hlinked : s.arena.Linked) : Drawn v w s := by
  have hdrawn := drawn_stamped hlinked (Nat.le_refl v.next)
  rwa [← load_eq h] at hdrawn

theorem drawn_ofRows (rows : List (Path × Nat × List Path)) (v : Versions) :
    Drawn v (ofRows rows v).2 (ofRows rows v).1 := by
  let Made (x : Snapshot × Versions) : Prop := Drawn v x.2 x.1
  show Made (ofRows rows v)
  refine List.foldlRecOn rows _ (drawn_empty v) fun x (hx : Made x) r _ => ?_
  exact List.foldlRecOn (motive := Made) r.2.2 _ (hx.insertFile r.1 r.2.1)
    fun y hy target _ => hy.addInclude r.1 target

end Snapshot

namespace Scan

open Snapshot

variable {d : Disk} {searchRoots : List Path} {u : Versions}

theorem drawn_record {s : State} (h : Drawn u s.versions s.snapshot)
    (path file : Path) (bytes : List UInt8) :
    let t := (record d searchRoots path file bytes s).1
    Drawn u t.versions t.snapshot := by
  let Made (x : State × List Path) : Prop := Drawn u x.1.versions x.1.snapshot
  show Made (record d searchRoots path file bytes s)
  refine List.foldlRecOn (motive := Made) (directivesIn bytes) _
    (h.insertFile file bytes.length) fun x hx directive _ => ?_
  dsimp only
  split
  · exact hx
  · exact hx.addInclude file _

theorem drawn_run (fuel : Nat) (queue : List Path) {s : State}
    (h : Drawn u s.versions s.snapshot) :
    let t := run d searchRoots fuel queue s
    Drawn u t.versions t.snapshot := by
  induction fuel generalizing queue s with
  | zero => simpa only [run] using h
  | succ fuel ih =>
      cases queue with
      | nil => simpa only [run] using h
      | cons path queue =>
          rw [run]
          dsimp only
          split
          · exact ih _ h
          · split
            · exact ih _ h
            · exact ih _ (drawn_record h path _ _)

theorem drawn_scan {roots : List Path} {v w : Versions} {s : Snapshot}
    (h : Snapshot.scan d roots searchRoots v = .ok (s, w)) : Drawn v w s := by
  unfold Snapshot.scan at h
  cases hqueue : sources d roots with
  | error e => rw [hqueue] at h; cases h
  | ok queue =>
      rw [hqueue] at h
      cases h
      exact drawn_run _ queue (drawn_empty v)

end Scan

/-! ## Sessions -/

/-- How a session makes one more snapshot: of nothing, of rows or by a scan, as
a copy of one that it has, or by an edit of that. -/
inductive Makes (made : List Snapshot) (v : Versions) :
    Snapshot → Versions → Prop where
  | new : Makes made v .empty v
  | ofRows (rows : List (Path × Nat × List Path)) :
      Makes made v (Snapshot.ofRows rows v).1 (Snapshot.ofRows rows v).2
  | scan {w : Versions} {s : Snapshot} {d : Disk}
      {roots searchRoots : List Path}
      (hscan : Snapshot.scan d roots searchRoots v = .ok (s, w)) :
      Makes made v s w
  | copy {s : Snapshot} (hs : s ∈ made) : Makes made v s v
  | insertFile {s : Snapshot} (hs : s ∈ made) (f : Path) (size : Nat) :
      Makes made v (s.insertFile f size v).1 (s.insertFile f size v).2
  | addInclude {s : Snapshot} (hs : s ∈ made) (source target : Path) :
      Makes made v (s.addInclude source target v).1
        (s.addInclude source target v).2
  | getOrAdd {s : Snapshot} (hs : s ∈ made) (f : Path) :
      Makes made v (s.getOrAdd f).2 v

/-- The snapshots that a session has made, the latest in front; those of them
that it `read` from files; the supply of versions that it has left; and the
index that it keeps, which is asked to expand files, each with the disk at its
time. -/
inductive Session : (made read : List Snapshot) → Versions → IndexCache →
    Prop where
  | start : Session [] [] {} .empty
  | make {made read : List Snapshot} {v w : Versions} {c : IndexCache}
      {s : Snapshot} (h : Session made read v c) (hs : Makes made v s w) :
      Session (s :: made) read w c
  | load {made read : List Snapshot} {v w : Versions} {c : IndexCache}
      {s : Snapshot} (h : Session made read v c) {d : Disk} {p : Path}
      (hload : Snapshot.load d p v = .ok (s, w)) :
      Session (s :: made) (s :: read) w c
  | indexFor {made read : List Snapshot} {v : Versions} {c : IndexCache}
      {s : Snapshot} (h : Session made read v c) (hs : s ∈ made) :
      Session made read v (c.indexFor s.toSource).2
  | expand {made read : List Snapshot} {v : Versions} {c : IndexCache}
      {x : Index} (h : Session made read v c) (hx : c.current = some x)
      (d : Disk) (f : Path) :
      Session made read v ⟨some (x.expand d f).2⟩

end IncludeBlock
