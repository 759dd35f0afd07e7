import IncludeBlock.Proofs.Organize.Provision

/-!
# Passes do not disturb each other

All passes over one source share an index, and each leaves another part of it
expanded. A pass asks the index only through its catalog, and no use of an
index changes that (`catalog_after`). So the outcome of a pass is the one that
it has on a new index (`organizeWith_after`). Of the required files it reads
the set alone: their order, repeats and empty paths play no part.
-/

namespace IncludeBlock

namespace Organizer

open Organize

/-! ## Uses of an index -/

/-- What an index is asked for: the expansion of a file, or a pass with some
settings. -/
inductive Use where
  | expand (f : Path)
  | pass (settings : Settings) (r : OrganizeRequest) (actions : Actions)

/-- The index as a use leaves it. -/
def Use.on (d : Disk) (x : Index) : Use → Index
  | expand f => (x.expand d f).2
  | pass settings r actions => (organizeWith ⟨x, settings⟩ d r actions).2.index

/-- The index of a source after some uses, the first one in front. -/
def indexAfter (s : Source) (d : Disk) (uses : List Use) : Index :=
  uses.foldl (Use.on d) (Index.new s)

variable {d : Disk} {r : OrganizeRequest} {actions : Actions}

theorem catalog_on (x : Index) (u : Use) :
    (u.on d x).catalog d = x.catalog d := by
  cases u with
  | expand f => exact x.catalog_expandAll d [f]
  | pass settings r actions =>
      -- a pass expands files and does nothing else to the index
      exact x.catalog_expandAll d _

/-- **No use of an index changes what it answers.** -/
theorem catalog_after (s : Source) (d : Disk) (uses : List Use) :
    (indexAfter s d uses).catalog d = (Index.new s).catalog d := by
  have hfold : ∀ x : Index,
      (uses.foldl (Use.on d) x).catalog d = x.catalog d := by
    induction uses with
    | nil => exact fun _ => rfl
    | cons u uses ih =>
        intro x
        rw [List.foldl_cons, ih, catalog_on]
  exact hfold _

/-! ## What a pass reads -/

theorem weigh_congr {x y : Index} (h : x.catalog d = y.catalog d)
    (policy : Policy) (v : Survey) :
    (weigh x d policy v).1 = (weigh y d policy v).1 := by
  rw [weigh_eq, weigh_eq, h]

/-- Indices that answer alike give the same outcome. -/
theorem organizeWith_congr {x y : Index} (h : x.catalog d = y.catalog d)
    (settings : Settings) :
    (organizeWith ⟨x, settings⟩ d r actions).1
      = (organizeWith ⟨y, settings⟩ d r actions).1 := by
  unfold organizeWith
  dsimp only
  rw [weigh_congr h]

theorem requiredFiles_congr {settings : Settings} {required : List Path}
    (h : ∀ f, f.isEmpty = false → (f ∈ required ↔ f ∈ r.required)) :
    requiredFiles d settings { r with required }
      = requiredFiles d settings r := by
  have hfiles : preferredFiles d settings { r with required }
      = preferredFiles d settings r := by
    refine FileSet.ext fun p => ?_
    rw [mem_preferredFiles, mem_preferredFiles]
    refine exists_congr fun f => ?_
    constructor
    · rintro ⟨hf, hnonempty, hp⟩
      exact ⟨(h f hnonempty).1 hf, hnonempty, hp⟩
    · rintro ⟨hf, hnonempty, hp⟩
      exact ⟨(h f hnonempty).2 hf, hnonempty, hp⟩
  show ((preferredFiles d settings { r with required }).filter
      (· != r.document),
    (preferredFiles d settings { r with required }).filter
      (· == r.document)) = _
  rw [hfiles]
  rfl

/-- A request that lists the same required files gives the same outcome. -/
theorem organizeWith_required (o : Organizer) {required : List Path}
    (h : ∀ f, f.isEmpty = false → (f ∈ required ↔ f ∈ r.required)) :
    (o.organizeWith d { r with required } actions).1
      = (o.organizeWith d r actions).1 := by
  have hsurvey : survey o.settings d { r with required } actions
      = survey o.settings d r actions := by
    unfold survey
    rw [requiredFiles_congr h]
    rfl
  unfold organizeWith
  rw [hsurvey]
  rfl

/-- **Passes do not influence each other.** Whatever files were expanded and
whatever passes ran before on the index of a source, with any settings, a pass
has the outcome that it has on a new index of that source. And it is the same
for every list of the same required files, in any order, with repeats and with
empty paths in between. -/
theorem organizeWith_after (s : Source) (settings : Settings) (d : Disk)
    (uses : List Use) (r : OrganizeRequest) (actions : Actions)
    (required : List Path)
    (h : ∀ f, f.isEmpty = false → (f ∈ required ↔ f ∈ r.required)) :
    (organizeWith ⟨indexAfter s d uses, settings⟩ d { r with required }
        actions).1
      = (organizeWith ⟨Index.new s, settings⟩ d r actions).1 :=
  (organizeWith_required _ h).trans
    (organizeWith_congr (catalog_after s d uses) settings)

/-- The files that `smallRequest` needs, the other way round and with more. -/
theorem organizeWith_after_smallRequest :
    let s := Cover.overlapping.source
    let uses : List Use := [.expand ⟨"/b"⟩,
      .pass { policy := .minimalDepth } smallRequest .all, .expand ⟨"/x"⟩]
    let result := (organizeWith ⟨indexAfter s ∅ uses, {}⟩ ∅
      { smallRequest with required := [⟨"/y"⟩, ⟨""⟩, ⟨"/x"⟩, ⟨"/y"⟩] } .all).1
    result = (organizeWith ⟨Index.new s, {}⟩ ∅ smallRequest .all).1
      ∧ result.entries.map (·.file) = [⟨"/x"⟩, ⟨"/b"⟩, ⟨""⟩] := by
  intro s uses result
  have hresult : result
      = (organizeWith ⟨Index.new s, {}⟩ ∅ smallRequest .all).1 := by
    refine organizeWith_after s {} ∅ uses smallRequest .all
      [⟨"/y"⟩, ⟨""⟩, ⟨"/x"⟩, ⟨"/y"⟩] fun f hf => ?_
    simp only [smallRequest, List.mem_cons, List.not_mem_nil, or_false]
    constructor
    · rintro (rfl | rfl | rfl | rfl)
      · exact .inr rfl
      · cases hf
      · exact .inl rfl
      · exact .inr rfl
    · rintro (rfl | rfl)
      · exact .inr (.inr (.inl rfl))
      · exact .inl rfl
  refine ⟨hresult, ?_⟩
  rw [hresult]
  decide +kernel

end Organizer

end IncludeBlock
