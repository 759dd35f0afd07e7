import IncludeBlock.Disk.Basic

/-!
# Plain paths

A plain path spells out a place: the names that lead to it from the root, set
apart by one separator each. What a path means goes by its names, of which the
empty ones and single dots are silent. The lemmas here say how plain paths and
the paths joined to them are made of names (`namesOf_join`), and what their
components, parents and extensions by a name are.
-/

namespace IncludeBlock

/-! ## Texts and pieces -/

namespace Text

variable {sep : Char} {ps qs : List (List Char)}

theorem unpieces_append (hps : ps ≠ []) (hqs : qs ≠ []) :
    unpieces sep (ps ++ qs) = unpieces sep ps ++ sep :: unpieces sep qs := by
  induction ps with
  | nil => exact absurd rfl hps
  | cons p ps ih =>
      by_cases hnil : ps = []
      · subst hnil
        exact unpieces_cons_of_ne_nil sep p hqs
      · rw [List.cons_append, unpieces_cons_of_ne_nil sep p (by simp [hnil]),
          ih hnil, unpieces_cons_of_ne_nil sep p hnil, List.append_assoc]
        rfl

theorem exists_pieces_cons {c : Char} (hc : c ≠ sep) (cs : List Char) :
    ∃ front rest, pieces sep (c :: cs) = (c :: front) :: rest := by
  rw [pieces, if_neg hc]
  split
  · exact ⟨[], [], rfl⟩
  · exact ⟨_, _, rfl⟩

/-- Leaving pieces out leaves characters out. -/
theorem unpieces_sublist (h : ps.Sublist qs) :
    (unpieces sep ps).Sublist (unpieces sep qs) := by
  induction h with
  | slnil => exact List.Sublist.refl _
  | @cons ps qs q h ih =>
      refine ih.trans ?_
      by_cases hqs : qs = []
      · subst hqs
        exact List.nil_sublist _
      · rw [unpieces_cons_of_ne_nil sep q hqs]
        exact (List.sublist_cons_self _ _).trans (List.sublist_append_right _ _)
  | @cons_cons ps qs p h ih =>
      by_cases hps : ps = []
      · subst hps
        by_cases hqs : qs = []
        · subst hqs
          exact List.Sublist.refl _
        · rw [unpieces_cons_of_ne_nil sep p hqs]
          exact List.sublist_append_left _ _
      · have hqs : qs ≠ [] := by
          rintro rfl
          exact hps (List.sublist_nil.1 h)
        rw [unpieces_cons_of_ne_nil sep p hps,
          unpieces_cons_of_ne_nil sep p hqs]
        exact (ih.cons_cons sep).append_left p

end Text

/-! ## Names -/

/-- A name that an entry of a directory can have: it has no separator, and it
is neither silent nor a step up. -/
def IsName (n : String) : Prop :=
  n ≠ "" ∧ n ≠ "." ∧ n ≠ ".." ∧ '/' ∉ n.toList

instance (n : String) : Decidable (IsName n) :=
  inferInstanceAs (Decidable (_ ∧ _))

/-- Names that the look-up of a path passes over. -/
def isSilentName (n : String) : Bool :=
  n == "" || n == "."

theorem IsName.isSilentName {n : String} (h : IsName n) :
    isSilentName n = false := by
  simp [IncludeBlock.isSilentName, h.1, h.2.1]

/-- A name does not start at the root. -/
theorem IsName.head?_ne {n : String} (h : IsName n) :
    n.toList.head? ≠ some '/' := by
  intro hhead
  obtain ⟨cs, hcs⟩ := List.head?_eq_some_iff.1 hhead
  exact h.2.2.2 (by simp [hcs])

namespace Component

/-- The component that a name of a path stands for, if it stands for one. -/
def ofName? (n : String) : Option Component :=
  ofPiece? n.toList

theorem ofName?_eq (n : String) : ofName? n
    = if isSilentName n then none
      else if n = ".." then some .up else some (.name n) := by
  have hnil : n.toList = "".toList ↔ n = "" := String.toList_inj
  have hdot : n.toList = ".".toList ↔ n = "." := String.toList_inj
  have hup : n.toList = "..".toList ↔ n = ".." := String.toList_inj
  rw [String.toList_empty] at hnil
  change n.toList = ['.'] ↔ _ at hdot
  change n.toList = ['.', '.'] ↔ _ at hup
  simp only [ofName?, ofPiece?, hnil, hdot, hup, String.ofList_toList,
    isSilentName, Bool.or_eq_true, beq_iff_eq]

theorem ofName?_of_isName {n : String} (h : IsName n) :
    ofName? n = some (.name n) := by
  simp [ofName?_eq, h.isSilentName, h.2.2.1]

theorem ofName?_of_isSilentName {n : String} (h : isSilentName n = true) :
    ofName? n = none := by
  simp [ofName?_eq, h]

theorem text_of_ofName? {n : String} (h : isSilentName n = false) :
    ∃ c, ofName? n = some c ∧ c.text = n := by
  by_cases hup : n = ".."
  · subst hup
    exact ⟨.up, rfl, rfl⟩
  · exact ⟨.name n, by simp [ofName?_eq, h, hup], rfl⟩

theorem text_eq_of_ofName? {n : String} {c : Component}
    (h : ofName? n = some c) : c.text = n := by
  cases hn : isSilentName n with
  | true =>
      rw [ofName?_of_isSilentName hn] at h
      cases h
  | false =>
      obtain ⟨c', hc', htext⟩ := text_of_ofName? hn
      rw [hc'] at h
      cases h
      exact htext

/-- The texts of components are the names that are not silent. -/
theorem map_text_filterMap_ofName? (names : List String) :
    (names.filterMap ofName?).map text = names.filter (!isSilentName ·) := by
  induction names with
  | nil => rfl
  | cons n names ih =>
      cases hn : isSilentName n with
      | true =>
          rw [List.filterMap_cons_none (ofName?_of_isSilentName hn),
            List.filter_cons_of_neg (by simp [hn]), ih]
      | false =>
          obtain ⟨c, hc, htext⟩ := text_of_ofName? hn
          rw [List.filterMap_cons_some hc, List.filter_cons_of_pos (by simp [hn]),
            List.map_cons, ih, htext]

theorem isName_of_ofName? {m n : String} (hm : '/' ∉ m.toList)
    (h : ofName? m = some (.name n)) : IsName n := by
  rw [ofName?_eq] at h
  split at h
  · cases h
  · rename_i hsilent
    split at h
    · cases h
    · rename_i hup
      cases h
      simp only [isSilentName, Bool.or_eq_true, beq_iff_eq, not_or] at hsilent
      exact ⟨hsilent.1, hsilent.2, hup, hm⟩

theorem filterMap_ofName?_of_isName {names : List String}
    (h : ∀ n ∈ names, IsName n) :
    names.filterMap ofName? = names.map .name := by
  induction names with
  | nil => rfl
  | cons n names ih =>
      obtain ⟨hn, hrest⟩ := List.forall_mem_cons.1 h
      rw [List.filterMap_cons_some (ofName?_of_isName hn), ih hrest,
        List.map_cons]

end Component

/-! ## Paths and their names -/

namespace Path

open Disk

theorem namesOf_of_isAbsolute {p : Path} (h : p.isAbsolute = true) :
    ∃ cs, p.text.toList = '/' :: cs
      ∧ namesOf p = "" :: (namePieces cs).map String.ofList := by
  rw [isAbsolute, beq_iff_eq] at h
  obtain ⟨cs, hcs⟩ := List.head?_eq_some_iff.1 h
  refine ⟨cs, hcs, ?_⟩
  rw [namesOf, hcs]
  rfl

theorem namesOf_ne_nil (p : Path) : namesOf p ≠ [] := by
  rw [namesOf, Ne, List.map_eq_nil_iff]
  exact Text.pieces_ne_nil '/' _

theorem filterMap_ofPiece? (ps : List (List Char)) :
    ps.filterMap Component.ofPiece?
      = (ps.map String.ofList).filterMap Component.ofName? := by
  rw [List.filterMap_map]
  congr 1
  funext p
  simp [Component.ofName?]

theorem components_of_isAbsolute {p : Path} (h : p.isAbsolute = true) :
    p.components = .root :: (namesOf p).filterMap Component.ofName? := by
  obtain ⟨cs, hcs, hnames⟩ := namesOf_of_isAbsolute h
  rw [components, hcs, hnames, List.filterMap_cons_none (by rfl)]
  exact congrArg _ (filterMap_ofPiece? _)

theorem isAbsolute_of_components {p : Path} {cs : List Component}
    (h : p.components = .root :: cs) : p.isAbsolute = true := by
  have hnone (ps : List (List Char)) :
      Component.root ∉ ps.filterMap Component.ofPiece? := by
    intro hmem
    obtain ⟨piece, _, hpiece⟩ := List.mem_filterMap.1 hmem
    rw [Component.ofPiece?] at hpiece
    split at hpiece
    · cases hpiece
    · split at hpiece <;> cases hpiece
  unfold components at h
  split at h
  · rename_i hcs
    rw [isAbsolute, hcs]
    rfl
  · split at h
    · cases h
    · exact absurd (h ▸ List.mem_cons_self) (hnone _)

theorem components_ne_nil {p : Path} (h : p.text ≠ "") : p.components ≠ [] := by
  obtain ⟨c, cs, htext⟩ := List.exists_cons_of_ne_nil
    fun hnil : p.text.toList = [] => h (String.toList_inj.1 hnil)
  by_cases hc : c = '/'
  · rw [components_of_isAbsolute (by simp [isAbsolute, htext, hc])]
    exact List.cons_ne_nil _ _
  · obtain ⟨front, ps, hpieces⟩ := Text.exists_pieces_cons hc cs
    unfold components
    split
    · exact List.cons_ne_nil _ _
    · split
      · exact List.cons_ne_nil _ _
      · rename_i hdot
        rw [htext, namePieces, hpieces] at hdot ⊢
        -- the first piece has a character, and it is not just a point
        have hne : c :: front ≠ ['.'] := fun heq => hdot ps (by rw [heq])
        have hpiece : Component.ofPiece? (c :: front) ≠ none := by
          rw [Component.ofPiece?, if_neg (by simp [hne])]
          split <;> simp
        obtain ⟨component, hcomponent⟩ := Option.ne_none_iff_exists'.1 hpiece
        simp [List.filterMap_cons_some hcomponent]

theorem not_mem_of_mem_namesOf {p : Path} {n : String} (hn : n ∈ namesOf p) :
    '/' ∉ n.toList := by
  obtain ⟨piece, hpiece, rfl⟩ := List.mem_map.1 hn
  rw [String.toList_ofList]
  exact Text.not_mem_of_mem_pieces hpiece

/-- A path whose components are names goes by them alone. -/
theorem filterMap_ofName?_of_components {p : Path} {names : List String}
    (h : p.components = names.map .name) :
    p.isAbsolute = false
      ∧ (namesOf p).filterMap Component.ofName? = p.components := by
  have hhead : ∀ c cs, p.components = c :: cs → ∃ n, c = .name n := by
    intro c cs hc
    rw [hc] at h
    cases names with
    | nil => cases h
    | cons n names => exact ⟨n, (List.cons.inj h).1⟩
  have habsolute : p.isAbsolute = false := by
    refine Bool.eq_false_iff.2 fun habs => ?_
    obtain ⟨n, hn⟩ := hhead _ _ (components_of_isAbsolute habs)
    cases hn
  refine ⟨habsolute, ?_⟩
  have hnames : namesOf p = (namePieces p.text.toList).map String.ofList := rfl
  rw [hnames, ← filterMap_ofPiece?]
  unfold components
  split
  · rename_i cs hcs
    rw [isAbsolute, hcs] at habsolute
    simp at habsolute
  · split
    · -- a dot in front would be a component of its own
      rename_i ps hps
      have hcomponents : p.components
          = .here :: ps.filterMap Component.ofPiece? := by
        unfold components
        split
        · rename_i cs hcs
          rw [isAbsolute, hcs] at habsolute
          simp at habsolute
        · simp only [hps]
      obtain ⟨n, hn⟩ := hhead _ _ hcomponents
      cases hn
    · rfl

/-- The components of a path, if they are names, are its names that are not
silent. -/
theorem filter_namesOf_of_components {p : Path} {names : List String}
    (h : p.components = names.map .name) :
    (namesOf p).filter (!isSilentName ·) = names
      ∧ ∀ n ∈ names, IsName n := by
  obtain ⟨_, hnames⟩ := filterMap_ofName?_of_components h
  rw [h] at hnames
  constructor
  · rw [← Component.map_text_filterMap_ofName?, hnames, List.map_map]
    exact List.map_id _
  · intro n hn
    have hmem : Component.name n ∈ (namesOf p).filterMap Component.ofName? :=
      hnames ▸ List.mem_map_of_mem hn
    obtain ⟨m, hm, hcomponent⟩ := List.mem_filterMap.1 hmem
    exact Component.isName_of_ofName? (not_mem_of_mem_namesOf hm) hcomponent

end Path

namespace Disk

variable {place other : Location} {n : String}

theorem toList_pathOf (place : Location) :
    (pathOf place).text.toList
      = '/' :: Text.unpieces '/' (place.map String.toList) := by
  cases place with
  | nil => rfl
  | cons n place =>
      rw [pathOf, if_neg (by simp)]
      show (String.join ((n :: place).map ("/" ++ ·))).toList = _
      induction place generalizing n with
      | nil => simp [Text.unpieces, String.join_cons]
      | cons m place ih =>
          rw [List.map_cons, String.join_cons, String.toList_append, ih,
            List.map_cons (l := m :: place),
            Text.unpieces_cons_of_ne_nil '/' n.toList (by simp)]
          simp

theorem isAbsolute_pathOf (place : Location) :
    (pathOf place).isAbsolute = true := by
  rw [Path.isAbsolute, toList_pathOf]
  rfl

/-- The pieces that names make. -/
theorem pieces_unpieces_names (h : ∀ n ∈ place, IsName n) (hne : place ≠ []) :
    Path.namePieces (Text.unpieces '/' (place.map String.toList))
      = place.map String.toList := by
  refine Text.pieces_unpieces (by simp [hne]) fun p hp => ?_
  obtain ⟨n, hn, rfl⟩ := List.mem_map.1 hp
  exact (h n hn).2.2.2

/-- The pieces that names and a text behind them make. -/
theorem pieces_unpieces_append (h : ∀ n ∈ place, IsName n) (cs : List Char) :
    Path.namePieces
        (Text.unpieces '/' (place.map String.toList ++ Path.namePieces cs))
      = place.map String.toList ++ Path.namePieces cs := by
  refine Text.pieces_unpieces ?_ fun p hp => ?_
  · have hne : Path.namePieces cs ≠ [] := Text.pieces_ne_nil '/' cs
    simp [hne]
  · rcases List.mem_append.1 hp with hp | hp
    · obtain ⟨n, hn, rfl⟩ := List.mem_map.1 hp
      exact (h n hn).2.2.2
    · exact Text.not_mem_of_mem_pieces hp

theorem namesOf_pathOf (h : ∀ n ∈ place, IsName n) (hne : place ≠ []) :
    namesOf (pathOf place) = "" :: place := by
  obtain ⟨cs, hcs, hnames⟩ :=
    Path.namesOf_of_isAbsolute (isAbsolute_pathOf place)
  rw [toList_pathOf] at hcs
  obtain rfl := (List.cons.inj hcs).2
  rw [hnames, pieces_unpieces_names h hne, List.map_map]
  simp [Function.comp_def]

/-- A plain path has a last character other than the separator, unless it is
the root. -/
theorem getLast?_pathOf (h : ∀ n ∈ place, IsName n) (hne : place ≠ []) :
    ∃ c, (pathOf place).text.toList.getLast? = some c ∧ c ≠ '/' := by
  obtain ⟨front, n, rfl⟩ : ∃ front n, place = front ++ [n] :=
    ⟨_, _, (List.dropLast_concat_getLast hne).symm⟩
  have hn : IsName n := h n (by simp)
  have hnil : n.toList ≠ [] := fun hnil => hn.1 (String.toList_inj.1 hnil)
  obtain ⟨cs, c, hc⟩ : ∃ cs c, n.toList = cs ++ [c] :=
    ⟨_, _, (List.dropLast_concat_getLast hnil).symm⟩
  have hlast : ∃ front', (pathOf (front ++ [n])).text.toList
      = front' ++ n.toList := by
    rw [toList_pathOf, List.map_append]
    cases hfront : front.map String.toList with
    | nil => exact ⟨['/'], rfl⟩
    | cons p ps =>
        rw [Text.unpieces_append (by simp) (by simp)]
        exact ⟨'/' :: (Text.unpieces '/' (p :: ps) ++ ['/']),
          by simp [Text.unpieces]⟩
  obtain ⟨front', hfront'⟩ := hlast
  refine ⟨c, ?_, ?_⟩
  · rw [hfront', hc]
    simp
  · rintro rfl
    exact hn.2.2.2 (by simp [hc])

theorem byteLength_append (s t : String) :
    Text.byteLength (s ++ t) = Text.byteLength s + Text.byteLength t := by
  rw [Text.byteLength, Text.encode, String.toList_append, List.flatMap_append,
    List.length_append]
  rfl

theorem byteLength_le_of_sublist {s t : String}
    (h : s.toList.Sublist t.toList) :
    Text.byteLength s ≤ Text.byteLength t := by
  rw [Text.byteLength, Text.byteLength, Text.encode, Text.encode]
  generalize s.toList = cs at h
  generalize t.toList = ds at h
  induction h with
  | slnil => exact Nat.le_refl _
  | cons c h ih =>
      rw [List.flatMap_cons, List.length_append]
      exact Nat.le_trans ih (Nat.le_add_left _ _)
  | cons_cons c h ih =>
      rw [List.flatMap_cons, List.flatMap_cons, List.length_append,
        List.length_append]
      exact Nat.add_le_add_left ih _

/-- With a path the system takes every shorter one that has no character of
its own, unless it is empty. -/
theorem isUsable_of_sublist {p q : Path} (hp : p.text ≠ "")
    (h : p.text.toList.Sublist q.text.toList) (hq : isUsable q = true) :
    isUsable p = true := by
  simp only [isUsable, Bool.and_eq_true, Bool.not_eq_true', decide_eq_true_eq,
    Path.isEmpty, beq_eq_false_iff_ne] at hq ⊢
  refine ⟨⟨hp, Nat.lt_of_le_of_lt (byteLength_le_of_sublist h) hq.1.2⟩, ?_⟩
  rw [List.contains_eq_mem, decide_eq_false_iff_not] at hq ⊢
  exact fun hmem => hq.2 (h.subset hmem)

/-- What is joined to a path begins with its text. -/
theorem prefix_join {p : Path} {tail : String}
    (htail : tail.toList.head? ≠ some '/') :
    p.text.toList <+: (p.join tail).text.toList := by
  rw [Path.join, if_neg (by simpa using htail)]
  split
  · show p.text.toList <+: (p.text ++ tail).toList
    rw [String.toList_append]
    exact List.prefix_append _ _
  · show p.text.toList <+: (p.text ++ "/" ++ tail).toList
    rw [String.toList_append, String.toList_append, List.append_assoc]
    exact List.prefix_append _ _

theorem isUsable_of_join {p : Path} {tail : String} (hp : p.text ≠ "")
    (htail : tail.toList.head? ≠ some '/')
    (h : isUsable (p.join tail) = true) : isUsable p = true :=
  isUsable_of_sublist hp (prefix_join htail).sublist h

theorem text_join_ne {p : Path} {tail : String} (hp : p.text ≠ "")
    (htail : tail.toList.head? ≠ some '/') : (p.join tail).text ≠ "" := by
  intro hempty
  have hprefix := prefix_join (p := p) htail
  rw [hempty] at hprefix
  exact hp (String.toList_inj.1 (List.prefix_nil.1 hprefix))

theorem text_ne_of_isUsable {p : Path} (h : isUsable p = true) :
    p.text ≠ "" := by
  intro hempty
  simp [isUsable, Path.isEmpty, hempty] at h

theorem text_foldl_join_ne {p : Path} {names : List String} (hp : p.text ≠ "")
    (hnames : ∀ n ∈ names, IsName n) :
    (names.foldl Path.join p).text ≠ "" := by
  induction names generalizing p with
  | nil => exact hp
  | cons n rest ih =>
      obtain ⟨hn, hrest⟩ := List.forall_mem_cons.1 hnames
      exact ih (text_join_ne hp hn.head?_ne) hrest

/-- With a path the system takes the directories on the way. -/
theorem isUsable_of_foldl_join {p : Path} {names : List String}
    (hp : p.text ≠ "") (hnames : ∀ n ∈ names, IsName n)
    (h : isUsable (names.foldl Path.join p) = true) : isUsable p = true := by
  induction names generalizing p with
  | nil => exact h
  | cons n rest ih =>
      obtain ⟨hn, hrest⟩ := List.forall_mem_cons.1 hnames
      exact isUsable_of_join hp hn.head?_ne
        (ih (text_join_ne hp hn.head?_ne) hrest h)

/-- With a path the system takes the directory before its last name. -/
theorem isUsable_dropLast_of_foldl_join {p : Path} {names : List String}
    (hp : p.text ≠ "") (hnames : ∀ n ∈ names, IsName n)
    (h : isUsable (names.foldl Path.join p) = true) :
    isUsable (names.dropLast.foldl Path.join p) = true := by
  rcases List.eq_nil_or_concat names with rfl | ⟨front, n, rfl⟩
  · exact h
  · rw [List.concat_eq_append] at *
    obtain ⟨hfront, hn⟩ := List.forall_mem_append.1 hnames
    rw [List.foldl_append] at h
    rw [List.dropLast_concat]
    exact isUsable_of_foldl_join (text_foldl_join_ne hp hfront) hn h

/-- What a relative text behind a plain path makes. -/
theorem toList_join (h : ∀ n ∈ place, IsName n) {tail : String}
    (htail : tail.toList.head? ≠ some '/') :
    ((pathOf place).join tail).text.toList = '/' :: Text.unpieces '/'
      (place.map String.toList ++ Path.namePieces tail.toList) := by
  have hpieces : Text.unpieces '/' (Path.namePieces tail.toList)
      = tail.toList := Text.unpieces_pieces '/' _
  rw [Path.join, if_neg (by simpa using htail)]
  by_cases hne : place = []
  · subst hne
    rw [if_pos (by decide)]
    show ("/" ++ tail).toList
      = '/' :: Text.unpieces '/' (Path.namePieces tail.toList)
    rw [String.toList_append, hpieces]
    rfl
  · obtain ⟨c, hc, hsep⟩ := getLast?_pathOf h hne
    rw [if_neg (by simp [hc, hsep])]
    have hnames : Path.namePieces tail.toList ≠ [] :=
      Text.pieces_ne_nil '/' _
    rw [Text.unpieces_append (by simpa using hne) hnames, hpieces]
    show ((pathOf place).text ++ "/" ++ tail).toList = _
    rw [String.toList_append, String.toList_append, toList_pathOf]
    simp

theorem isAbsolute_join (h : ∀ n ∈ place, IsName n) {tail : String}
    (htail : tail.toList.head? ≠ some '/') :
    ((pathOf place).join tail).isAbsolute = true := by
  rw [Path.isAbsolute, toList_join h htail]
  rfl

theorem namesOf_join (h : ∀ n ∈ place, IsName n) {tail : String}
    (htail : tail.toList.head? ≠ some '/') :
    namesOf ((pathOf place).join tail) = "" :: (place ++ namesOf ⟨tail⟩) := by
  obtain ⟨cs, hcs, hnames⟩ :=
    Path.namesOf_of_isAbsolute (isAbsolute_join h htail)
  rw [toList_join h htail] at hcs
  obtain rfl := (List.cons.inj hcs).2
  rw [hnames, pieces_unpieces_append h, List.map_append, List.map_map]
  simp [Function.comp_def, namesOf]

/-- A name behind a plain path leads to the place of that name. -/
theorem join_name (h : ∀ n ∈ place, IsName n) (hn : IsName n) :
    (pathOf place).join n = pathOf (place ++ [n]) := by
  have hhead := hn.head?_ne
  have hpieces : Path.namePieces n.toList = [n.toList] :=
    Text.pieces_of_not_mem hn.2.2.2
  have htext : ((pathOf place).join n).text.toList
      = (pathOf (place ++ [n])).text.toList := by
    rw [toList_join h hhead, toList_pathOf, hpieces, List.map_append]
    rfl
  exact congrArg Path.mk (String.toList_inj.1 htext)

theorem foldl_join_pathOf {names : List String} (h : ∀ n ∈ place, IsName n)
    (hnames : ∀ n ∈ names, IsName n) :
    names.foldl Path.join (pathOf place) = pathOf (place ++ names) := by
  induction names generalizing place with
  | nil => simp
  | cons n rest ih =>
      obtain ⟨hn, hrest⟩ := List.forall_mem_cons.1 hnames
      have hnext : ∀ m ∈ place ++ [n], IsName m :=
        List.forall_mem_append.2 ⟨h, by simpa using hn⟩
      rw [List.foldl_cons, join_name h hn, ih hnext hrest, List.append_assoc]
      rfl

theorem components_pathOf (h : ∀ n ∈ place, IsName n) :
    (pathOf place).components = .root :: place.map .name := by
  rw [Path.components_of_isAbsolute (isAbsolute_pathOf place)]
  by_cases hne : place = []
  · subst hne
    rfl
  · rw [namesOf_pathOf h hne, List.filterMap_cons_none (by rfl),
      Component.filterMap_ofName?_of_isName h]

theorem pathOf_injective (h : ∀ n ∈ place, IsName n)
    (h' : ∀ n ∈ other, IsName n) (heq : pathOf place = pathOf other) :
    place = other := by
  have hcomponents : place.map Component.name = other.map .name := by
    have := congrArg Path.components heq
    rw [components_pathOf h, components_pathOf h'] at this
    exact (List.cons.inj this).2
  exact List.map_inj_right (fun _ _ h => Component.name.inj h) |>.1 hcomponents

/-- Names are components, so nothing is silent at the end of them. -/
theorem fromComponent_reverse (h : ∀ n ∈ place, IsName n) :
    Path.fromComponent (place.map String.toList).reverse
      = (place.map String.toList).reverse := by
  rw [Path.fromComponent, ← List.map_reverse]
  cases hplace : place.reverse with
  | nil => rfl
  | cons m ms =>
      have hm : IsName m :=
        h m (List.mem_reverse.1 (hplace ▸ List.mem_cons_self))
      have hnil : m.toList ≠ [] := fun heq => hm.1 (String.toList_inj.1 heq)
      have hdot : m.toList ≠ ['.'] :=
        fun heq => hm.2.1 (String.toList_inj.1 heq)
      rw [List.map_cons, List.dropWhile_cons_of_neg]
      simp [Path.isSilent, hnil, hdot]

theorem parent?_pathOf_concat (h : ∀ m ∈ place ++ [n], IsName m) :
    (pathOf (place ++ [n])).parent? = some (pathOf place) := by
  have hpieces := pieces_unpieces_names h (by simp)
  have hcut := fromComponent_reverse h
  have hplace : ∀ m ∈ place, IsName m :=
    fun m hm => h m (List.mem_append_left _ hm)
  have hfront := fromComponent_reverse hplace
  rw [List.map_append, List.reverse_append] at hcut
  simp only [Path.parent?, toList_pathOf, hpieces]
  rw [List.map_append, List.reverse_append, hcut]
  simp only [List.map_cons, List.map_nil, List.reverse_singleton,
    List.singleton_append, hfront, List.reverse_reverse]
  rw [← toList_pathOf, String.ofList_toList]

end Disk

/-! ## Plain paths -/

namespace Path

open Disk

/-- The names of a path that are not empty; for a plain path they are the place
that it spells out. -/
def place (p : Path) : Location :=
  (namesOf p).filter (· ≠ "")

/-- A path that spells out a place. On a disk without links these are the
canonical paths, and those that nothing stands at yet. -/
def IsPlain (p : Path) : Prop :=
  (∀ n ∈ p.place, IsName n) ∧ pathOf p.place = p

instance (p : Path) : Decidable p.IsPlain :=
  inferInstanceAs (Decidable (_ ∧ _))

theorem place_pathOf {place : Location} (h : ∀ n ∈ place, IsName n) :
    (pathOf place).place = place := by
  by_cases hne : place = []
  · subst hne
    rfl
  · rw [Path.place, namesOf_pathOf h hne, List.filter_cons_of_neg (by simp)]
    exact List.filter_eq_self.2 fun n hn => by simpa using (h n hn).1

theorem isPlain_pathOf {place : Location} (h : ∀ n ∈ place, IsName n) :
    (pathOf place).IsPlain := by
  rw [IsPlain, place_pathOf h]
  exact ⟨h, rfl⟩

variable {p : Path}

theorem IsPlain.text_ne (h : p.IsPlain) : p.text ≠ "" := by
  intro hempty
  have htext := toList_pathOf p.place
  rw [h.2, hempty] at htext
  cases htext

theorem IsPlain.isAbsolute (h : p.IsPlain) : p.isAbsolute = true :=
  h.2 ▸ isAbsolute_pathOf p.place

theorem IsPlain.components (h : p.IsPlain) :
    p.components = .root :: p.place.map .name := by
  have hcomponents := components_pathOf h.1
  rwa [h.2] at hcomponents

/-- The names of a plain path that are not silent are its place. -/
theorem IsPlain.filter_namesOf (h : p.IsPlain) :
    (namesOf p).filter (!isSilentName ·) = p.place := by
  have hcomponents := components_of_isAbsolute (isAbsolute_pathOf p.place)
  rw [h.2, h.components] at hcomponents
  rw [← Component.map_text_filterMap_ofName?,
    ← (List.cons.inj hcomponents).2, List.map_map]
  exact List.map_id _

/-- What lies below a plain path starts at the root. -/
theorem IsPlain.isAbsolute_of_isWithin (h : p.IsPlain) {q : Path}
    (hq : q.isWithin p = true) : q.isAbsolute = true := by
  rw [isWithin, Bool.and_eq_true, startsWith_iff, h.components] at hq
  obtain ⟨rest, hrest⟩ := hq.2
  exact isAbsolute_of_components hrest.symm

theorem IsPlain.eq_of_place {q : Path} (hp : p.IsPlain) (hq : q.IsPlain)
    (h : p.place = q.place) : p = q := by
  rw [← hp.2, h, hq.2]

/-- The directory of a plain path is plain. -/
theorem IsPlain.parent? (h : p.IsPlain) {dir : Path}
    (hdir : p.parent? = some dir) :
    dir.IsPlain ∧ ∃ n, p.place = dir.place ++ [n] := by
  rw [← h.2] at hdir
  by_cases hnil : p.place = []
  · rw [hnil] at hdir
    cases hdir
  · obtain ⟨front, n, hfront⟩ : ∃ front n, p.place = front ++ [n] :=
      ⟨_, _, (List.dropLast_concat_getLast hnil).symm⟩
    have hnames : ∀ m ∈ front ++ [n], IsName m := hfront ▸ h.1
    have hplace : ∀ m ∈ front, IsName m :=
      fun m hm => hnames m (List.mem_append_left _ hm)
    rw [hfront, parent?_pathOf_concat hnames] at hdir
    cases hdir
    refine ⟨isPlain_pathOf hplace, n, ?_⟩
    rw [place_pathOf hplace, hfront]

end Path

end IncludeBlock
