import IncludeBlock.Proofs.Disk.Saving
import IncludeBlock.Proofs.Snapshot.Binary
import IncludeBlock.Proofs.Snapshot.Edits
import IncludeBlock.Proofs.Snapshot.Versions

/-!
# Snapshots read back from files

A snapshot that was saved is read back as it was, in either form, but for
vacant slots at the end.
-/

namespace IncludeBlock

namespace Snapshot

variable {s : Snapshot} {d d' : Disk} {p : Path}

/-- What is read from a saved file. -/
theorem readArena_save (hlinked : s.arena.Linked) (hfits : s.arena.Fits)
    (hsave : save d p s = (d', .ok ())) :
    readArena d' p = .ok s.arena.trimmed := by
  have hopen : d'.open? p = .ok (some (bytesFor p s.arena)) :=
    Disk.open?_saving hsave
  have hlayout := Arena.fits_layout hlinked hfits
  have harena := Arena.toArena?_layout hlinked
  rw [bytesFor] at hopen
  rw [readArena]
  split
  · rename_i hform
    rw [if_pos hform] at hopen
    refine Disk.readAs_eq hopen
      (Json.parse?_compact (Layout.legible_toJson s.arena.layout)) ?_
    rw [Layout.ofJson_toJson hlayout]
    exact harena
  · rename_i hform
    rw [if_neg hform] at hopen
    have hdecode : ((some (Binary.layout s.arena.layout)).bind
        Binary.ofBytes?).bind Layout.toArena? = some s.arena.trimmed := by
      rw [Option.bind_some, Binary.ofBytes?_layout hlayout, Option.bind_some,
        harena]
    simp only [hopen, bind, Except.bind, hdecode]
    rfl

/-- **A saved snapshot is read back.** Whatever snapshot of a session is saved,
in either form, and whenever it is read again: the same node and the same edge
have every number, the table and all answers are the same, and the version is
none that the session has seen. Edits are given the same slots as before,
unless there is a vacant slot at the end and another one besides. -/
theorem load_save {made read : List Snapshot} {v : Versions} {c : IndexCache}
    (hsession : Session made read v c) (hread : ∀ x ∈ read, x.arena.Linked)
    (hs : s ∈ made) (hfits : s.arena.Fits)
    (hsave : save d p s = (d', .ok ())) :
    ∃ t w, load d' p v = .ok (t, w)
      ∧ t.arena.Alike s.arena
      ∧ t.version ≠ 0
      ∧ (∀ x ∈ made, x.version ≠ t.version)
      ∧ ((∀ es, t.arena.slotsGiven es = s.arena.slotsGiven es)
          ↔ (s.arena.nodes.getLast? = some none
              → none ∉ s.arena.nodes.dropLast)) := by
  have hhonest := hsession.honest hread
  have hlinked := hhonest.linked s hs
  refine ⟨⟨s.arena.trimmed, v.next⟩, ⟨v.next + 1⟩, ?_, s.arena.alike_trimmed,
    Nat.pos_iff_ne_zero.1 hhonest.next,
    fun x hx => Nat.ne_of_lt (hhonest.drawn x hx),
    Arena.slotsGiven_trimmed_iff hlinked⟩
  rw [load, readArena_save hlinked hfits hsave]
  rfl

/-- A file that was read and one that it includes. -/
def pair : Snapshot :=
  (((empty.insertFile ⟨"/a"⟩ 3 {}).1).addInclude ⟨"/a"⟩ ⟨"/b"⟩ ⟨2⟩).1

theorem load_save_pair :
    let d := (save ∅ ⟨"/t.json"⟩ pair).1
    ∃ t w, load d ⟨"/t.json"⟩ ⟨3⟩ = .ok (t, w)
      ∧ t.arena.byteSize? ⟨"/a"⟩ = some 3
      ∧ t.arena.includes ⟨"/a"⟩ = .ofList [⟨"/b"⟩]
      ∧ t.version ≠ pair.version
      ∧ t.arena.slotsGiven [.getOrAdd ⟨"/c"⟩] = [some 2] := by
  intro d
  have hsession : Session [pair, (empty.insertFile ⟨"/a"⟩ 3 {}).1, empty] []
      ⟨3⟩ .empty :=
    .make (.make (.make .start .new) (.insertFile List.mem_cons_self ⟨"/a"⟩ 3))
      (.addInclude List.mem_cons_self ⟨"/a"⟩ ⟨"/b"⟩)
  have hfits : pair.arena.Fits := by
    constructor <;> decide +kernel
  have hsave : save ∅ ⟨"/t.json"⟩ pair = (d, .ok ()) := by
    rfl
  obtain ⟨t, w, hload, halike, _, hversion, hslots⟩ :=
    load_save hsession (by simp) List.mem_cons_self hfits hsave
  refine ⟨t, w, hload, ?_, ?_, ?_, ?_⟩
  · rw [halike.byteSize]
    decide +kernel
  · rw [halike.includes]
    decide +kernel
  · exact (hversion pair List.mem_cons_self).symm
  · rw [hslots.2 (by decide +kernel)]
    decide +kernel

/-- A graph with two vacant slots behind its only node. -/
def vacantEnd : Layout := ⟨[.stub ⟨"/a"⟩], [1, 2], [], [(⟨"/a"⟩, 0)]⟩

/-- **Vacant slots at the end are forgotten.** The snapshot that was read gives
the last of them to a new file, its copy gives the first. -/
theorem not_same_slots_vacantEnd :
    let d : Disk :=
      { nodes := [(["s.json"], .file (Text.encode vacantEnd.toJson.compact))]
        workingDirectory := [] }
    ∃ s t, load d ⟨"/s.json"⟩ {} = .ok (s, ⟨2⟩)
      ∧ s.arena.Linked
      ∧ (save d ⟨"/t.json"⟩ s).2 = .ok ()
      ∧ load (save d ⟨"/t.json"⟩ s).1 ⟨"/t.json"⟩ ⟨2⟩ = .ok (t, ⟨3⟩)
      ∧ (s.getOrAdd ⟨"/n"⟩).1 = 2
      ∧ (t.getOrAdd ⟨"/n"⟩).1 = 1 := by
  intro d
  let table : FileMap Nat := .ofList [(⟨"/a"⟩, 0)]
  have hopen : d.open? ⟨"/s.json"⟩
      = .ok (some (Text.encode vacantEnd.toJson.compact)) := rfl
  let s : Snapshot := ⟨⟨[some (.stub ⟨"/a"⟩), none, none], [], table⟩, 1⟩
  have hlinked : s.arena.Linked := by
    refine ⟨fun h => ?_, fun h => ?_⟩
    · have hmem := FileMap.get?_eq_some_iff.1 h
      cases List.mem_singleton.1 hmem
      rfl
    · simp [s] at h
  have hfits : s.arena.Fits := by
    constructor <;> decide +kernel
  have hsave : save d ⟨"/t.json"⟩ s = ((save d ⟨"/t.json"⟩ s).1, .ok ()) := rfl
  refine ⟨s, ⟨s.arena.trimmed, 2⟩, ?_, hlinked, rfl, ?_, rfl, rfl⟩
  · exact load_of_compact (by decide +kernel) hopen rfl {}
  · rw [load, readArena_save hlinked hfits hsave]
    rfl

end Snapshot

end IncludeBlock
