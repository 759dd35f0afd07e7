import IncludeBlock.Proofs.Scan.Worklist
import Mathlib.Data.List.Nodup

/-!
# The graph that a scan should give

A scan should know the files below its roots and whatever the directives of a
known file lead to (`Known`), and its graph should say of them what stands on
the disk (`IsGraph`). What a quoted include leads to may hang on the path by
which the file was reached, so both are stated for any choice of such paths.
The paths that a scan takes up are one choice, and the graph that they make is
the graph for it (`isGraph_taken`).
-/

namespace IncludeBlock

namespace Scan

open Disk

variable {d : Disk} {roots roots' searchRoots queue ps : List Path}
  {p t f g : Path} {seen : FileSet} {fuel : Nat} {way way' : Path → Path}
  {a a' : Arena}

/-! ## The graph of a disk -/

/-- The files that a scan should know, when each file was reached by a certain
path: the source files below the roots and the source files that the directives
of a known file lead to. -/
inductive Known (d : Disk) (roots searchRoots : List Path)
    (way : Path → Path) : Path → Prop
  | fromRoot {root p : Path} (hroot : root ∈ roots) (hp : SourceBelow d root p) :
      Known d roots searchRoots way (d.canonical p)
  | included {f t : Path} (hf : Known d roots searchRoots way f)
      (ht : t ∈ targets d searchRoots f (way f)) (hsource : isSource t = true) :
      Known d roots searchRoots way t

/-- A graph knows the files that it should with their sizes and all that they
include; what else it has are stubs for what they include. -/
structure IsGraph (d : Disk) (roots searchRoots : List Path)
    (way : Path → Path) (a : Arena) : Prop where
  knows : ∀ f, a.knows f = true ↔ Known d roots searchRoots way f
  byteSize : ∀ f, Known d roots searchRoots way f →
    a.byteSize? f = some (d.contents f).length
  includes : ∀ f g, g ∈ a.includes f
    ↔ Known d roots searchRoots way f ∧ g ∈ targets d searchRoots f (way f)
  files : ∀ f, f ∈ a.files ↔ Known d roots searchRoots way f
    ∨ ∃ g, Known d roots searchRoots way g
      ∧ f ∈ targets d searchRoots g (way g)
  stub : ∀ f ∈ a.files, ¬ Known d roots searchRoots way f →
    a.fileNode? f = some (.stub f)
  nodup : a.files.Nodup

theorem isSource_canonical (hd : d.Ordinary) (hp : d.isFile p = true) :
    isSource (d.canonical p) = isSource p := by
  obtain ⟨q, bytes, hlocate⟩ := isFile_iff_locate.1 hp
  obtain ⟨mid, n, hlies, hcanonical⟩ := liesIn_canonical hd hlocate
  rw [isSource, isSource, hcanonical.extension? hlies]

/-! ## What the paths tell that are taken up -/

/-- The relation that paths tell when they are taken up. -/
def told (d : Disk) (searchRoots ps : List Path) : IncludeRelation where
  mentions f := f ∈ ps.map d.canonical
    ∨ ∃ p ∈ ps, f ∈ targets d searchRoots (d.canonical p) p
  size? f :=
    if f ∈ ps.map d.canonical then some (d.contents f).length else none
  includes f g := ∃ p ∈ ps, f = d.canonical p
    ∧ g ∈ targets d searchRoots (d.canonical p) p

theorem mentions_told_concat : (told d searchRoots (ps ++ [p])).mentions f
    ↔ f ∈ targets d searchRoots (d.canonical p) p ∨ f = d.canonical p
      ∨ (told d searchRoots ps).mentions f := by
  show f ∈ (ps ++ [p]).map d.canonical ∨ _
    ↔ _ ∨ _ ∨ f ∈ ps.map d.canonical ∨ _
  rw [List.map_append, List.map_singleton, List.mem_append,
    List.mem_singleton]
  constructor
  · rintro ((hf | hf) | ⟨q, hq, hf⟩)
    · exact .inr (.inr (.inl hf))
    · exact .inr (.inl hf)
    · rcases List.mem_append.1 hq with hq | hq
      · exact .inr (.inr (.inr ⟨q, hq, hf⟩))
      · obtain rfl := List.mem_singleton.1 hq
        exact .inl hf
  · rintro (hf | hf | hf | ⟨q, hq, hf⟩)
    · exact .inr ⟨p, by simp, hf⟩
    · exact .inl (.inr hf)
    · exact .inl (.inl hf)
    · exact .inr ⟨q, List.mem_append_left _ hq, hf⟩

theorem size?_told_concat : (told d searchRoots (ps ++ [p])).size? f
    = if f = d.canonical p then some (d.contents (d.canonical p)).length
      else (told d searchRoots ps).size? f := by
  have hmem : f ∈ (ps ++ [p]).map d.canonical
      ↔ f ∈ ps.map d.canonical ∨ f = d.canonical p := by
    rw [List.map_append, List.map_singleton, List.mem_append,
      List.mem_singleton]
  simp only [told, hmem]
  by_cases hf : f = d.canonical p
  · rw [if_pos (.inr hf), if_pos hf, hf]
  · simp only [hf, or_false, if_false]

theorem includes_told_concat : (told d searchRoots (ps ++ [p])).includes f g
    ↔ (f = d.canonical p ∧ g ∈ targets d searchRoots (d.canonical p) p)
      ∨ (told d searchRoots ps).includes f g := by
  constructor
  · rintro ⟨q, hq, hfg⟩
    rcases List.mem_append.1 hq with hq | hq
    · exact .inr ⟨q, hq, hfg⟩
    · obtain rfl := List.mem_singleton.1 hq
      exact .inl hfg
  · rintro (hfg | ⟨q, hq, hfg⟩)
    · exact ⟨p, by simp, hfg⟩
    · exact ⟨q, List.mem_append_left _ hq, hfg⟩

/-- **The graph of a scan stands for what its paths tell.** -/
theorem represents_told (d : Disk) (searchRoots ps : List Path) :
    (ps.foldl (takeUp d searchRoots) .empty).Represents
      (told d searchRoots ps) := by
  induction ps using List.reverseRecOn with
  | nil =>
      refine Arena.represents_empty.congr (fun f => ?_) (fun f => ?_)
        fun f g => ?_ <;> simp [told, IncludeRelation.empty]
  | append_singleton ps p ih =>
      rw [List.foldl_append, List.foldl_cons, List.foldl_nil]
      have hread := ih.insertFile (d.canonical p)
        (d.contents (d.canonical p)).length
      exact (hread.foldl_addInclude (.inl rfl)
        (targets d searchRoots (d.canonical p) p)).congr
        (fun _ => mentions_told_concat.symm) (fun _ => size?_told_concat.symm)
        fun _ _ => includes_told_concat.symm

theorem known_of_mem_taken (hd : d.Ordinary)
    (hqueue : ∀ p ∈ queue, ∃ root ∈ roots, SourceBelow d root p)
    (hway : ∀ p ∈ taken d searchRoots fuel queue seen,
      way (d.canonical p) = p) :
    ∀ p ∈ taken d searchRoots fuel queue seen,
      Known d roots searchRoots way (d.canonical p) := by
  refine forall_mem_taken (fun p hp => ?_) fun p hp hknown t ht hsource => ?_
  · obtain ⟨root, hroot, hp⟩ := hqueue p hp
    exact .fromRoot hroot hp
  · refine hknown.included ?_ ?_
    · rw [hway p hp]
      exact List.mem_map_of_mem ht
    · rw [isSource_canonical hd (isFile_of_mem_leads ht), hsource]

theorem mem_map_canonical_of_known (hd : d.Ordinary)
    (hqueue : ∀ root ∈ roots, ∀ p, SourceBelow d root p → p ∈ queue)
    (htrail : Trail d searchRoots queue ∅ ps)
    (hway : ∀ p ∈ ps, way (d.canonical p) = p)
    (hknown : Known d roots searchRoots way f) :
    f ∈ ps.map d.canonical := by
  induction hknown with
  | fromRoot hroot hp =>
      exact (htrail.covers _ (hqueue _ hroot _ hp)).resolve_left
        (FileSet.not_mem_empty _)
  | included _ ht hsource ih =>
      obtain ⟨p, hp, rfl⟩ := List.mem_map.1 ih
      rw [hway p hp] at ht
      obtain ⟨t, hleads, rfl⟩ := List.mem_map.1 ht
      rw [isSource_canonical hd (isFile_of_mem_leads hleads)] at hsource
      exact (htrail.closed p hp t hleads hsource).resolve_left
        (FileSet.not_mem_empty _)

theorem mem_map_canonical_taken_iff (hd : d.Ordinary)
    (hqueue : ∀ p, p ∈ queue ↔ ∃ root ∈ roots, SourceBelow d root p)
    (hwithin : Within d fuel queue ∅)
    (hway : ∀ p ∈ taken d searchRoots fuel queue ∅,
      way (d.canonical p) = p) :
    f ∈ (taken d searchRoots fuel queue ∅).map d.canonical
      ↔ Known d roots searchRoots way f := by
  constructor
  · rw [List.mem_map]
    rintro ⟨p, hp, rfl⟩
    exact known_of_mem_taken hd (fun p => (hqueue p).1) hway p hp
  · exact mem_map_canonical_of_known hd
      (fun root hroot p hp => (hqueue p).2 ⟨root, hroot, hp⟩)
      (trail_taken hd searchRoots hwithin) hway

/-- **The graph of the paths that are taken up is that of the disk.** -/
theorem isGraph_taken (hd : d.Ordinary)
    (hqueue : ∀ p, p ∈ queue ↔ ∃ root ∈ roots, SourceBelow d root p)
    (hwithin : Within d fuel queue ∅)
    (hway : ∀ p ∈ taken d searchRoots fuel queue ∅,
      way (d.canonical p) = p) :
    IsGraph d roots searchRoots way
      ((taken d searchRoots fuel queue ∅).foldl (takeUp d searchRoots)
        .empty) := by
  have hmem (f : Path) :=
    mem_map_canonical_taken_iff (f := f) hd hqueue hwithin hway
  generalize taken d searchRoots fuel queue ∅ = ps at hway hmem
  have htold := represents_told d searchRoots ps
  have hincludes (f g : Path) : (told d searchRoots ps).includes f g
      ↔ Known d roots searchRoots way f
        ∧ g ∈ targets d searchRoots f (way f) := by
    rw [← hmem, List.mem_map]
    constructor
    · rintro ⟨p, hp, rfl, hg⟩
      refine ⟨⟨p, hp, rfl⟩, ?_⟩
      rwa [hway p hp]
    · rintro ⟨⟨p, hp, rfl⟩, hg⟩
      refine ⟨p, hp, rfl, ?_⟩
      rwa [hway p hp] at hg
  have hmentions (f : Path) : (told d searchRoots ps).mentions f
      ↔ Known d roots searchRoots way f
        ∨ ∃ g, Known d roots searchRoots way g
          ∧ f ∈ targets d searchRoots g (way g) := by
    refine or_congr (hmem f) ⟨?_, ?_⟩
    · rintro ⟨p, hp, hf⟩
      exact ⟨_, (hincludes _ f).1 ⟨p, hp, rfl, hf⟩⟩
    · rintro ⟨g, hg⟩
      obtain ⟨p, hp, _, hf⟩ := (hincludes g f).2 hg
      exact ⟨p, hp, hf⟩
  refine ⟨fun f => ?_, fun f hf => ?_, fun f g => ?_, fun f => ?_,
    fun f hf hunknown => ?_, htold.tabled.nodup_files⟩
  · rw [htold.knows_iff, ← hmem]
    show (if f ∈ ps.map d.canonical then some _ else none).isSome = true ↔ _
    split <;> simp_all
  · rw [htold.size?]
    exact if_pos ((hmem f).2 hf)
  · rw [htold.mem_includes, hincludes]
  · rw [htold.mem_files, hmentions]
  · refine htold.fileNode? (htold.mem_files.1 hf) ?_
    exact if_neg fun hin => hunknown ((hmem f).1 hin)

/-! ## Graphs for other ways and other roots -/

/-- The known files go by what they include, not by the ways to them. -/
theorem known_iff_of_targets
    (h : ∀ f, Known d roots searchRoots way f →
      targets d searchRoots f (way f) = targets d searchRoots f (way' f)) :
    Known d roots searchRoots way f ↔ Known d roots searchRoots way' f := by
  constructor
  · intro hf
    induction hf with
    | fromRoot hroot hp => exact .fromRoot hroot hp
    | included hf ht hsource ih => exact .included ih (h _ hf ▸ ht) hsource
  · intro hf
    induction hf with
    | fromRoot hroot hp => exact .fromRoot hroot hp
    | included _ ht hsource ih =>
        exact .included ih ((h _ ih).symm ▸ ht) hsource

theorem IsGraph.of_targets (h : IsGraph d roots searchRoots way a)
    (heq : ∀ f, Known d roots searchRoots way f →
      targets d searchRoots f (way f) = targets d searchRoots f (way' f)) :
    IsGraph d roots searchRoots way' a := by
  have hknown (f : Path) := known_iff_of_targets (f := f) heq
  have hboth (f g : Path) : (Known d roots searchRoots way f
        ∧ g ∈ targets d searchRoots f (way f))
      ↔ (Known d roots searchRoots way' f
        ∧ g ∈ targets d searchRoots f (way' f)) := by
    rw [← hknown]
    refine and_congr_right fun hf => ?_
    rw [heq f hf]
  refine ⟨fun f => ?_, fun f hf => ?_, fun f g => ?_, fun f => ?_,
    fun f hf hunknown => ?_, h.nodup⟩
  · rw [h.knows, hknown]
  · exact h.byteSize f ((hknown f).2 hf)
  · rw [h.includes, hboth]
  · rw [h.files, hknown]
    exact or_congr_right (exists_congr fun g => hboth g f)
  · exact h.stub f hf fun hf => hunknown ((hknown f).1 hf)

theorem Known.of_subset (hroots : roots ⊆ roots')
    (h : Known d roots searchRoots way f) :
    Known d roots' searchRoots way f := by
  induction h with
  | fromRoot hroot hp => exact .fromRoot (hroots hroot) hp
  | included _ ht hsource ih => exact .included ih ht hsource

/-- Graphs of one disk answer alike, whatever the order of the roots is. -/
theorem IsGraph.sameAnswers (h : IsGraph d roots searchRoots way a)
    (h' : IsGraph d roots' searchRoots way a')
    (hroots : ∀ root, root ∈ roots ↔ root ∈ roots') :
    a.SameAnswers a' ∧ ∀ f, f ∈ a.files ↔ f ∈ a'.files := by
  have hknown (f : Path) : Known d roots searchRoots way f
      ↔ Known d roots' searchRoots way f :=
    ⟨.of_subset fun root => (hroots root).1,
      .of_subset fun root => (hroots root).2⟩
  refine ⟨⟨fun f => FileSet.ext fun g => ?_, fun f => ?_⟩, fun f => ?_⟩
  · rw [h.includes, h'.includes, hknown]
  · by_cases hf : Known d roots searchRoots way f
    · rw [h.byteSize f hf, h'.byteSize f ((hknown f).1 hf)]
    · have hnone {b : Arena} (hb : ¬ b.knows f = true) :
          b.byteSize? f = none := by
        simpa [Arena.knows] using hb
      rw [hnone fun hb => hf ((h.knows f).1 hb),
        hnone fun hb => hf ((hknown f).2 ((h'.knows f).1 hb))]
  · simp only [h.files, h'.files, hknown]

end Scan

end IncludeBlock
