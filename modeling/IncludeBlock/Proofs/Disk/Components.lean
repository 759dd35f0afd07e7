import IncludeBlock.Proofs.Disk.Places

/-!
# Components of paths that are joined and cut

The first name of a path tells where it begins: at the root, at a point in
front, or with a component like any other (`components_of_namesOf`). Behind it
silent names have no part. So joining a relative text appends components
(`components_join`), and a parent lacks just the last one
(`parent?_cases`), whatever separators and points the texts have.
-/

namespace IncludeBlock

open Disk

namespace Text

/-- A separator cuts the pieces before it from those behind. -/
theorem pieces_append_cons (sep : Char) (as bs : List Char) :
    pieces sep (as ++ sep :: bs) = pieces sep as ++ pieces sep bs := by
  have hpieces : ∀ p ∈ pieces sep as ++ pieces sep bs, sep ∉ p := by
    intro p hp
    rcases List.mem_append.1 hp with hp | hp <;>
      exact not_mem_of_mem_pieces hp
  calc pieces sep (as ++ sep :: bs)
      = pieces sep (unpieces sep (pieces sep as ++ pieces sep bs)) := by
        rw [unpieces_append (pieces_ne_nil sep as) (pieces_ne_nil sep bs),
          unpieces_pieces, unpieces_pieces]
    _ = pieces sep as ++ pieces sep bs :=
        pieces_unpieces (by simp [pieces_ne_nil]) hpieces

end Text

namespace Component

/-- The component that the first name of a path stands for. -/
def ofFront (n : String) : Component :=
  if n = "" then .root else (ofName? n).getD .here

theorem ne_root_of_ofName? {n : String} {c : Component}
    (h : ofName? n = some c) : c ≠ .root := by
  rintro rfl
  rw [ofName?_eq] at h
  split at h
  · cases h
  · split at h <;> cases h

theorem ofFront_of_ne {n : String} (hn : n ≠ "") :
    ofFront n ≠ .root ∧ (ofFront n).text = n := by
  rw [ofFront, if_neg hn]
  cases hsilent : isSilentName n with
  | true =>
      rw [ofName?_of_isSilentName hsilent]
      have hpoint : n = "." := by simpa [isSilentName, hn] using hsilent
      exact ⟨Component.noConfusion, hpoint.symm⟩
  | false =>
      obtain ⟨c, hc, htext⟩ := text_of_ofName? hsilent
      rw [hc]
      exact ⟨ne_root_of_ofName? hc, htext⟩

/-- First names stand for different components. -/
theorem ofFront_injective {m n : String} (h : ofFront m = ofFront n) :
    m = n := by
  by_cases hm : m = ""
  · by_cases hn : n = ""
    · rw [hm, hn]
    · rw [hm] at h
      exact absurd h.symm (ofFront_of_ne hn).1
  · by_cases hn : n = ""
    · rw [hn] at h
      exact absurd h (ofFront_of_ne hm).1
    · rw [← (ofFront_of_ne hm).2, h, (ofFront_of_ne hn).2]

theorem ofPiece?_eq_none_iff {piece : List Char} :
    ofPiece? piece = none ↔ Path.isSilent piece = true := by
  rw [ofPiece?, Path.isSilent, Bool.or_eq_true, beq_iff_eq, beq_iff_eq]
  split
  · simp_all
  · split <;> simp_all

theorem filterMap_ofPiece?_filter (ps : List (List Char)) :
    (ps.filter (!Path.isSilent ·)).filterMap ofPiece?
      = ps.filterMap ofPiece? := by
  induction ps with
  | nil => rfl
  | cons piece ps ih =>
      cases hpiece : Path.isSilent piece with
      | true =>
          rw [List.filter_cons_of_neg (by simp [hpiece]), ih,
            List.filterMap_cons_none (ofPiece?_eq_none_iff.2 hpiece)]
      | false =>
          rw [List.filter_cons_of_pos (by simp [hpiece]), List.filterMap_cons,
            List.filterMap_cons, ih]

/-- Pieces with the same ones that are not silent make the same components. -/
theorem filterMap_ofPiece?_congr {ps qs : List (List Char)}
    (h : ps.filter (!Path.isSilent ·) = qs.filter (!Path.isSilent ·)) :
    ps.filterMap ofPiece? = qs.filterMap ofPiece? := by
  rw [← filterMap_ofPiece?_filter, h, filterMap_ofPiece?_filter]

end Component

namespace Path

variable {p dir : Path} {tail n : String} {names : List String}

/-! ## Silent pieces -/

theorem filter_dropWhile_not {α : Type} (test : α → Bool) (as : List α) :
    (as.dropWhile test).filter (!test ·) = as.filter (!test ·) := by
  induction as with
  | nil => rfl
  | cons a as ih =>
      cases ha : test a with
      | true =>
          rw [List.dropWhile_cons_of_pos ha, ih,
            List.filter_cons_of_neg (by simp [ha])]
      | false => rw [List.dropWhile_cons_of_neg (by simp [ha])]

/-- Pieces without the silent ones at their end. -/
theorem filter_fromComponent (ps : List (List Char)) :
    ((Path.fromComponent ps.reverse).reverse).filter (!Path.isSilent ·)
      = ps.filter (!Path.isSilent ·) := by
  rw [List.filter_reverse, Path.fromComponent, filter_dropWhile_not,
    List.filter_reverse, List.reverse_reverse]

theorem isSilentName_ofList (p : List Char) :
    isSilentName (String.ofList p) = Path.isSilent p := by
  have hiff (s : String) : String.ofList p = s ↔ p = s.toList := by
    rw [← String.toList_inj, String.toList_ofList]
  rw [Bool.eq_iff_iff]
  simp only [isSilentName, Path.isSilent, Bool.or_eq_true, beq_iff_eq, hiff]
  exact Iff.rfl

/-- No pieces make the same text as one that is empty. -/
theorem filter_pieces_unpieces {ps : List (List Char)}
    (h : ∀ piece ∈ ps, '/' ∉ piece) :
    (Path.namePieces (Text.unpieces '/' ps)).filter (!Path.isSilent ·)
      = ps.filter (!Path.isSilent ·) := by
  by_cases hps : ps = []
  · subst hps
    rfl
  · rw [Path.namePieces, Text.pieces_unpieces hps h]

theorem fromComponent_reverse_concat {ps : List (List Char)} {piece : List Char}
    (h : Path.isSilent piece = false) :
    Path.fromComponent (ps ++ [piece]).reverse = piece :: ps.reverse := by
  rw [Path.fromComponent, List.reverse_append, List.reverse_singleton,
    List.singleton_append, List.dropWhile_cons_of_neg (by simp [h])]

theorem not_mem_of_mem_fromComponent {ps : List (List Char)}
    (h : ∀ piece ∈ ps, '/' ∉ piece) :
    ∀ piece ∈ (Path.fromComponent ps.reverse).reverse, '/' ∉ piece := by
  intro piece hpiece
  refine h piece (List.mem_reverse.1 ?_)
  exact List.dropWhile_subset _ (List.mem_reverse.1 hpiece)

/-! ## The front of a path -/

/-- **The components of a path by its names**: what its first name stands for,
and what the others do that are not silent. -/
theorem components_of_namesOf {p : Path} {front : String} {names : List String}
    (hp : p.text ≠ "") (h : namesOf p = front :: names) :
    p.components
      = Component.ofFront front :: names.filterMap Component.ofName? := by
  by_cases habsolute : p.isAbsolute = true
  · obtain ⟨cs, _, hnames⟩ := namesOf_of_isAbsolute habsolute
    rw [hnames] at h
    obtain ⟨rfl, rfl⟩ := List.cons.inj h
    rw [components_of_isAbsolute habsolute, hnames,
      List.filterMap_cons_none (by rfl)]
    rfl
  · obtain ⟨c, cs, htext⟩ := List.exists_cons_of_ne_nil
      fun hnil : p.text.toList = [] => hp (String.toList_inj.1 hnil)
    have hc : c ≠ '/' := by
      rintro rfl
      simp [isAbsolute, htext] at habsolute
    obtain ⟨piece, ps, hpieces⟩ := Text.exists_pieces_cons hc cs
    rw [namesOf, htext, namePieces, hpieces, List.map_cons] at h
    obtain ⟨rfl, rfl⟩ := List.cons.inj h
    have hfront : String.ofList (c :: piece) ≠ "" := by
      simp [← String.toList_inj]
    rw [Component.ofFront, if_neg hfront, components, htext]
    split
    · rename_i heq
      exact absurd (List.cons.inj heq).1 hc
    · rw [namePieces, hpieces]
      split
      · rename_i hdot
        obtain ⟨hpoint, rfl⟩ := List.cons.inj hdot
        rw [hpoint, filterMap_ofPiece?]
        rfl
      · rename_i hdot
        have hsilent : isSilentName (String.ofList (c :: piece)) = false := by
          rw [isSilentName_ofList, isSilent, Bool.or_eq_false_iff]
          refine ⟨rfl, beq_eq_false_iff_ne.2 fun heq => ?_⟩
          exact hdot ps (by rw [heq])
        obtain ⟨component, hcomponent, _⟩ := Component.text_of_ofName? hsilent
        rw [filterMap_ofPiece?, List.map_cons,
          List.filterMap_cons_some hcomponent, hcomponent]
        rfl

/-- The components of a text that is put together from pieces. -/
theorem components_unpieces {front : List Char} {ps : List (List Char)}
    (hfront : front ≠ []) (h : ∀ piece ∈ front :: ps, '/' ∉ piece) :
    (Path.mk (String.ofList (Text.unpieces '/' (front :: ps)))).components
      = Component.ofFront (String.ofList front)
        :: ps.filterMap Component.ofPiece? := by
  generalize hp : Path.mk (String.ofList (Text.unpieces '/' (front :: ps))) = p
  have htext : p.text.toList = Text.unpieces '/' (front :: ps) := by
    rw [← hp, String.toList_ofList]
  have hne : p.text ≠ "" := by
    intro hempty
    rw [hempty] at htext
    cases ps <;> simp [Text.unpieces, hfront] at htext
  have hnames : namesOf p = String.ofList front :: ps.map String.ofList := by
    rw [namesOf, htext, namePieces,
      Text.pieces_unpieces (List.cons_ne_nil _ _) h, List.map_cons]
  rw [components_of_namesOf hne hnames, filterMap_ofPiece?]

theorem isAbsolute_of_namesOf {front : String} (hp : p.text ≠ "")
    (h : namesOf p = front :: names) : p.isAbsolute = true ↔ front = "" := by
  constructor
  · intro habsolute
    obtain ⟨cs, _, hnames⟩ := namesOf_of_isAbsolute habsolute
    exact (List.cons.inj (h.symm.trans hnames)).1
  · rintro rfl
    exact isAbsolute_of_components (components_of_namesOf hp h)

theorem components_eq_nil_iff {p : Path} :
    p.components = [] ↔ p.isEmpty = true := by
  rw [isEmpty, beq_iff_eq]
  constructor
  · exact fun h => Classical.byContradiction fun hne => components_ne_nil hne h
  · intro h
    rw [show p = ⟨""⟩ from congrArg Path.mk h]
    rfl

/-! ## Joining -/

theorem isAbsolute_join_eq (htail : tail.toList.head? ≠ some '/')
    (dir : Path) : (dir.join tail).isAbsolute = dir.isAbsolute := by
  rw [Path.join, if_neg (by simpa using htail), Path.isAbsolute,
    Path.isAbsolute]
  by_cases hnil : dir.text.toList = []
  · rw [if_pos (by simp [hnil])]
    simp [String.toList_append, hnil, htail]
  · obtain ⟨c, cs, hcs⟩ := List.exists_cons_of_ne_nil hnil
    split <;> simp [String.toList_append, hcs]

/-- The names of what is joined to a directory. A separator at the end of the
directory makes no difference, and neither does an empty directory. -/
theorem exists_namesOf_join (htail : tail.toList.head? ≠ some '/')
    (dir : Path) : ∃ front, (namesOf dir = front ∨ namesOf dir = front ++ [""])
      ∧ namesOf (dir.join tail) = front ++ namesOf ⟨tail⟩ := by
  have hjoin : dir.join tail
      = if dir.text.toList.getLast?.all (· == '/') then ⟨dir.text ++ tail⟩
        else ⟨dir.text ++ "/" ++ tail⟩ := by
    rw [Path.join, if_neg (by simpa using htail)]
  rw [hjoin]
  rcases List.eq_nil_or_concat dir.text.toList with hnil | ⟨cs, c, hcs⟩
  · refine ⟨[], .inr ?_, ?_⟩
    · rw [namesOf, hnil]
      rfl
    · rw [if_pos (by simp [hnil]), namesOf, String.toList_append, hnil]
      rfl
  · rw [List.concat_eq_append] at hcs
    by_cases hc : c = '/'
    · refine ⟨(Path.namePieces cs).map String.ofList, .inr ?_, ?_⟩
      · rw [namesOf, hcs, hc, Path.namePieces, Text.pieces_append_cons,
          List.map_append]
        rfl
      · rw [if_pos (by simp [hcs, hc]), namesOf, String.toList_append, hcs, hc,
          List.append_assoc, List.singleton_append, Path.namePieces,
          Text.pieces_append_cons, List.map_append]
        rfl
    · refine ⟨namesOf dir, .inl rfl, ?_⟩
      rw [if_neg (by simp [hcs, hc]), namesOf, String.toList_append,
        String.toList_append, List.append_assoc]
      change (Text.pieces '/' (_ ++ '/' :: _)).map _ = _
      rw [Text.pieces_append_cons, List.map_append]
      rfl

/-- **Joining appends components.** -/
theorem components_join {p : Path} {tail : String} (hp : p.text ≠ "")
    (htail : tail.toList.head? ≠ some '/') :
    (p.join tail).components
      = p.components ++ (namesOf ⟨tail⟩).filterMap Component.ofName? := by
  obtain ⟨names, hnames, hjoin⟩ := exists_namesOf_join htail p
  have hne : names ≠ [] := by
    rintro rfl
    rcases hnames with hnames | hnames
    · exact namesOf_ne_nil p hnames
    · refine hp (String.toList_inj.1 ?_)
      have hpieces : namePieces p.text.toList = [[]] := by
        simpa [namesOf, List.map_eq_singleton_iff, ← String.toList_inj]
          using hnames
      rw [← Text.unpieces_pieces '/' p.text.toList, ← namePieces, hpieces]
      rfl
  obtain ⟨front, rest, rfl⟩ := List.exists_cons_of_ne_nil hne
  rw [List.cons_append] at hjoin
  rw [components_of_namesOf (text_join_ne hp htail) hjoin,
    List.filterMap_append]
  rcases hnames with hnames | hnames
  · rw [components_of_namesOf hp hnames, List.cons_append]
  · -- a separator at the end adds a silent name
    rw [List.cons_append] at hnames
    rw [components_of_namesOf hp hnames, List.filterMap_append,
      List.filterMap_cons_none (by rfl), List.filterMap_nil, List.append_nil,
      List.cons_append]

/-! ## Cutting -/

/-- What is left of pieces that are all silent. -/
theorem filterMap_of_fromComponent_eq_nil {ps : List (List Char)}
    (h : fromComponent ps.reverse = []) :
    ps.filterMap Component.ofPiece? = [] := by
  have hfilter := filter_fromComponent ps
  rw [h] at hfilter
  rw [← Component.filterMap_ofPiece?_filter, ← hfilter]
  rfl

/-- Before the last piece that is not silent stand all components but one. -/
theorem exists_filterMap_of_fromComponent {ps qs : List (List Char)}
    {piece : List Char} (h : fromComponent ps.reverse = piece :: qs) :
    ∃ c, ps.filterMap Component.ofPiece?
      = qs.reverse.filterMap Component.ofPiece? ++ [c] := by
  have hpiece : isSilent piece = false := by
    have hnot := List.head?_dropWhile_not isSilent ps.reverse
    rw [← fromComponent, h] at hnot
    simpa using hnot
  have hsome : Component.ofPiece? piece ≠ none := by
    rw [Ne, Component.ofPiece?_eq_none_iff, hpiece]
    exact Bool.false_ne_true
  obtain ⟨c, hc⟩ := Option.ne_none_iff_exists'.1 hsome
  refine ⟨c, ?_⟩
  rw [Component.filterMap_ofPiece?_congr (filter_fromComponent ps).symm, h,
    List.reverse_cons, List.filterMap_append, List.filterMap_cons_some hc,
    List.filterMap_nil]

/-- The text of a parent keeps the components of its pieces. -/
theorem filterMap_pieces_of_fromComponent {ps : List (List Char)}
    (h : ∀ piece ∈ ps, '/' ∉ piece) :
    (namePieces (Text.unpieces '/'
        (fromComponent ps.reverse).reverse)).filterMap Component.ofPiece?
      = ps.filterMap Component.ofPiece? := by
  refine Component.filterMap_ofPiece?_congr ?_
  rw [filter_pieces_unpieces (not_mem_of_mem_fromComponent h),
    filter_fromComponent]

/-- The pieces before the last one that is not silent are pieces. -/
theorem not_mem_of_fromComponent {ps qs : List (List Char)}
    {piece : List Char} (h : fromComponent ps.reverse = piece :: qs)
    (hps : ∀ piece ∈ ps, '/' ∉ piece) : ∀ piece ∈ qs.reverse, '/' ∉ piece := by
  intro other hother
  refine not_mem_of_mem_fromComponent hps other (List.mem_reverse.2 ?_)
  rw [h]
  exact List.mem_cons_of_mem _ (List.mem_reverse.1 hother)

theorem parent?_cases_of_absolute {p : Path} {cs : List Char}
    (hcs : p.text.toList = '/' :: cs) :
    (p.parent? = none ∧ p.components = [.root])
      ∨ ∃ dir c, p.parent? = some dir ∧ p.components = dir.components ++ [c]
        ∧ p.components ≠ [.root] := by
  have hcomponents : p.components
      = .root :: (namePieces cs).filterMap Component.ofPiece? := by
    simp only [components, hcs]
  have hsep : ∀ piece ∈ namePieces cs, '/' ∉ piece :=
    fun _ => Text.not_mem_of_mem_pieces
  rw [hcomponents]
  simp only [parent?, hcs]
  cases h : fromComponent (namePieces cs).reverse with
  | nil => exact .inl ⟨rfl, by rw [filterMap_of_fromComponent_eq_nil h]⟩
  | cons piece qs =>
      obtain ⟨c, hc⟩ := exists_filterMap_of_fromComponent h
      refine .inr ⟨_, c, rfl, ?_, by simp [hc]⟩
      have hfront := filterMap_pieces_of_fromComponent
        (not_mem_of_fromComponent h hsep)
      rw [List.reverse_reverse] at hfront
      simp only [components, String.toList_ofList]
      rw [hfront, hc, List.cons_append]

/-- The text of a parent is put together from the pieces before the last one
that is not silent. -/
theorem parent?_of_fromComponent {front piece : List Char}
    {rest qs : List (List Char)} (hcs : ∀ cs, p.text.toList ≠ '/' :: cs)
    (h : namePieces p.text.toList = front :: rest)
    (hrest : fromComponent rest.reverse = piece :: qs) :
    p.parent? = some ⟨String.ofList (Text.unpieces '/'
      (front :: (fromComponent qs).reverse))⟩ := by
  unfold parent?
  split
  · rename_i cs htext
    exact absurd htext (hcs cs)
  · rw [h]
    simp only [hrest]

theorem parent?_cases_of_relative {p : Path} (hp : p.text ≠ "")
    (hcs : ∀ cs, p.text.toList ≠ '/' :: cs) :
    ∃ dir c, p.parent? = some dir ∧ p.components = dir.components ++ [c]
      ∧ p.components ≠ [.root] := by
  obtain ⟨c, cs, htext⟩ := List.exists_cons_of_ne_nil
    fun hnil : p.text.toList = [] => hp (String.toList_inj.1 hnil)
  have hslash : c ≠ '/' := by
    rintro rfl
    exact hcs cs htext
  obtain ⟨front, rest, hpieces⟩ := Text.exists_pieces_cons hslash cs
  rw [← htext] at hpieces
  have hsep : ∀ piece ∈ (c :: front) :: rest, '/' ∉ piece := by
    intro piece hpiece
    rw [← hpieces] at hpiece
    exact Text.not_mem_of_mem_pieces hpiece
  obtain ⟨hfront, hrest⟩ := List.forall_mem_cons.1 hsep
  have hcomponents : p.components = Component.ofFront (String.ofList (c :: front))
      :: rest.filterMap Component.ofPiece? := by
    rw [components_of_namesOf hp (congrArg (List.map String.ofList) hpieces),
      filterMap_ofPiece?]
  have hroot : p.components ≠ [.root] := by
    intro hroot
    obtain ⟨cs', htext', _⟩ := namesOf_of_isAbsolute
      (isAbsolute_of_components hroot)
    exact hcs cs' htext'
  cases h : fromComponent rest.reverse with
  | nil =>
      refine ⟨Path.empty, Component.ofFront (String.ofList (c :: front)),
        ?_, ?_, hroot⟩
      · unfold parent?
        split
        · rename_i cs' htext'
          exact absurd htext' (hcs cs')
        · rw [namePieces, hpieces]
          simp only [h, reduceCtorEq, if_false]
      · rw [hcomponents, filterMap_of_fromComponent_eq_nil h]
        rfl
  | cons piece qs =>
      obtain ⟨last, hlast⟩ := exists_filterMap_of_fromComponent h
      refine ⟨_, last, parent?_of_fromComponent hcs hpieces h, ?_, hroot⟩
      have hkept : ∀ piece ∈ (c :: front) :: (fromComponent qs).reverse,
          '/' ∉ piece := by
        refine List.forall_mem_cons.2 ⟨hfront, fun other hother => ?_⟩
        refine not_mem_of_fromComponent h hrest other (List.mem_reverse.2 ?_)
        exact List.dropWhile_subset _ (List.mem_reverse.1 hother)
      have hqs := filter_fromComponent qs.reverse
      rw [List.reverse_reverse] at hqs
      rw [components_unpieces (List.cons_ne_nil _ _) hkept,
        Component.filterMap_ofPiece?_congr hqs, hcomponents, hlast,
        List.cons_append]

/-- **A parent lacks the last component.** Only the root and the empty path
have no parent. -/
theorem parent?_cases (p : Path) :
    (p.parent? = none ∧ (p.components = [] ∨ p.components = [.root]))
      ∨ ∃ dir c, p.parent? = some dir ∧ p.components = dir.components ++ [c]
        ∧ p.components ≠ [.root] := by
  by_cases habsolute : ∃ cs, p.text.toList = '/' :: cs
  · obtain ⟨cs, hcs⟩ := habsolute
    exact (parent?_cases_of_absolute hcs).imp_left
      fun ⟨hnone, hroot⟩ => ⟨hnone, .inr hroot⟩
  · by_cases hp : p.text = ""
    · obtain rfl : p = ⟨""⟩ := congrArg Path.mk hp
      exact .inl ⟨rfl, .inl rfl⟩
    · exact .inr (parent?_cases_of_relative hp (not_exists.1 habsolute))

/-! ## The last name -/

theorem namesOf_of_isName (hn : IsName n) : namesOf ⟨n⟩ = [n] := by
  rw [namesOf, Path.namePieces, Text.pieces_of_not_mem hn.2.2.2]
  simp

/-- A path that ends in a name that is not silent ends in what it stands for. -/
theorem components_of_namesOf_concat (hn : isSilentName n = false)
    (h : namesOf p = names ++ [n]) :
    p.text ≠ "" ∧ ∃ c, Component.ofName? n = some c
      ∧ ((names = [] ∧ p.components = [c])
        ∨ ∃ front rest, names = front :: rest ∧ p.components
          = Component.ofFront front :: rest.filterMap Component.ofName?
            ++ [c]) := by
  have hp : p.text ≠ "" := by
    intro hempty
    have hnames : namesOf p = [""] := by
      rw [namesOf, hempty]
      rfl
    have hlast := congrArg List.getLast? h
    rw [hnames, List.getLast?_concat] at hlast
    obtain rfl : "" = n := Option.some.inj hlast
    cases hn
  obtain ⟨c, hc, _⟩ := Component.text_of_ofName? hn
  refine ⟨hp, c, hc, ?_⟩
  cases names with
  | nil =>
      have hne : n ≠ "" := by
        rintro rfl
        cases hn
      refine .inl ⟨rfl, ?_⟩
      rw [components_of_namesOf hp h, Component.ofFront, if_neg hne, hc]
      rfl
  | cons front rest =>
      rw [List.cons_append] at h
      refine .inr ⟨front, rest, rfl, ?_⟩
      rw [components_of_namesOf hp h, List.filterMap_append,
        List.filterMap_cons_some hc, List.filterMap_nil, List.cons_append]

theorem fileName?_of_namesOf (hn : IsName n) (h : namesOf p = names ++ [n]) :
    p.fileName? = some n := by
  obtain ⟨_, c, hc, hcomponents⟩ :=
    components_of_namesOf_concat hn.isSilentName h
  rw [Component.ofName?_of_isName hn, Option.some_inj] at hc
  suffices hlast : p.components.getLast? = some (.name n) by
    rw [fileName?, hlast]
  rcases hcomponents with ⟨_, hcomponents⟩ | ⟨front, rest, _, hcomponents⟩
  · rw [hcomponents, ← hc, List.getLast?_singleton]
  · rw [hcomponents, ← hc, List.getLast?_concat]

/-- What a name is joined to ends in that name. -/
theorem fileName?_join_name (hn : IsName n) (dir : Path) :
    (dir.join n).fileName? = some n := by
  obtain ⟨front, _, hjoin⟩ := exists_namesOf_join hn.head?_ne dir
  rw [namesOf_of_isName hn] at hjoin
  exact fileName?_of_namesOf hn hjoin

/-- The parent of a path that ends in a name has its other names, but for
silent ones. -/
theorem parent?_of_namesOf (hn : isSilentName n = false)
    (h : namesOf p = names ++ [n]) :
    ∃ dir, p.parent? = some dir ∧ dir.isAbsolute = p.isAbsolute
      ∧ (namesOf dir).filter (!isSilentName ·)
        = names.filter (!isSilentName ·) := by
  obtain ⟨hp, c, hc, hnames⟩ := components_of_namesOf_concat hn h
  have hlead : p.components ≠ [] ∧ p.components ≠ [.root] := by
    refine ⟨components_ne_nil hp, fun hroot => ?_⟩
    rcases hnames with ⟨_, hcs⟩ | ⟨front, rest, _, hcs⟩
    · exact Component.ne_root_of_ofName? hc
        (List.cons.inj (hcs.symm.trans hroot)).1
    · have hlength := congrArg List.length (hcs.symm.trans hroot)
      simp at hlength
  rcases p.parent?_cases with ⟨_, hcs⟩ | ⟨dir, last, hdir, hcs, _⟩
  · exact absurd hcs (not_or.2 hlead)
  refine ⟨dir, hdir, ?_⟩
  rcases hnames with ⟨rfl, hnames⟩ | ⟨front, rest, rfl, hnames⟩
  · have hempty : dir.isEmpty = true := by
      rw [← components_eq_nil_iff]
      exact (List.append_inj_left' (hcs.symm.trans hnames) rfl)
    obtain rfl := eq_empty_of_isEmpty hempty
    refine ⟨Eq.symm (Bool.eq_false_iff.2 fun habsolute => ?_), rfl⟩
    rw [isAbsolute_of_namesOf hp h] at habsolute
    subst habsolute
    cases hn
  · rw [List.cons_append] at h
    have hcomponents := List.append_inj_left' (hcs.symm.trans hnames) rfl
    have hdirText : dir.text ≠ "" := by
      intro hempty
      rw [components_eq_nil_iff.2 (beq_iff_eq.2 hempty)] at hcomponents
      cases hcomponents
    obtain ⟨front', rest', hnames'⟩ := List.exists_cons_of_ne_nil
      (namesOf_ne_nil dir)
    rw [components_of_namesOf hdirText hnames'] at hcomponents
    obtain ⟨hfront, hrest⟩ := List.cons.inj hcomponents
    obtain rfl := Component.ofFront_injective hfront
    refine ⟨?_, ?_⟩
    · rw [Bool.eq_iff_iff, isAbsolute_of_namesOf hdirText hnames',
        isAbsolute_of_namesOf hp h]
    · rw [hnames', List.filter_cons, List.filter_cons,
        ← Component.map_text_filterMap_ofName?, hrest,
        Component.map_text_filterMap_ofName?]

end Path

end IncludeBlock
