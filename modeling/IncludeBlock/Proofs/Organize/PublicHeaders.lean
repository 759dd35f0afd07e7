import IncludeBlock.Proofs.Disk.Components
import IncludeBlock.Proofs.Organize.Outcome
import IncludeBlock.Proofs.Resolution.Search

/-!
# Public headers of public headers

The public header of a private one is final if it is public by its own name
(`Forwarding.settles`), and then no later pass puts another file in its place.
The rule cuts the private header at its last point and compares what is left
with whole names; so a name whose capitals are all behind its last point is
taken for a private header in turn. And what is found is canonicalized, so it
may be a link that leads to another private header.
-/

namespace IncludeBlock

open Disk

/-! ## Names in other letters -/

namespace Text

theorem lowerChar_of_not_isCapital {c : Char} (h : isCapital c = false) :
    lowerChar c = c := by
  refine lowerChar_of_not_isUpper (Bool.eq_false_iff.2 fun hupper => ?_)
  rw [isCapital_of_isUpper hupper] at h
  cases h

theorem map_lowerChar_of_small {cs : List Char}
    (h : cs.any isCapital = false) : cs.map lowerChar = cs := by
  refine (List.map_congr_left fun c hc => ?_).trans (List.map_id cs)
  refine lowerChar_of_not_isCapital (Bool.eq_false_iff.2 ?_)
  exact List.any_eq_false.1 h c hc

section

variable {m n : List Char} (h : m.map lowerChar = n.map lowerChar)
include h

theorem mem_of_map_lowerChar_eq {x : Char} (hx : x.isLower = false)
    (hself : lowerChar x = x) (hm : x ∈ m) : x ∈ n := by
  have hmap : lowerChar x ∈ n.map lowerChar := h ▸ List.mem_map_of_mem hm
  obtain ⟨c, hc, heq⟩ := List.mem_map.1 hmap
  rw [hself] at heq
  exact eq_of_lowerChar_eq hx heq ▸ hc

/-- Of two names that differ in the case of letters alone, one has a capital. -/
theorem any_isCapital_of_ne (hn : n.any isCapital = false) (hne : m ≠ n) :
    m.any isCapital = true := by
  cases hm : m.any isCapital with
  | true => rfl
  | false =>
      rw [map_lowerChar_of_small hm, map_lowerChar_of_small hn] at h
      exact absurd h hne

end

end Text

open Text

namespace Path

/-- The case of letters does not matter to where a name is cut. -/
theorem cutName_map_lowerChar (n : List Char) :
    (cutName (n.map lowerChar)).1 = (cutName n).1.map lowerChar := by
  have hpoint : ((· != '.') ∘ lowerChar) = (· != '.') := by
    funext c
    rw [Function.comp_apply, Bool.eq_iff_iff, bne_iff_ne, bne_iff_ne]
    refine not_congr ⟨eq_of_lowerChar_eq (by decide), ?_⟩
    rintro rfl
    decide
  rw [cutName, cutName, ← List.map_reverse, List.dropWhile_map, hpoint]
  cases n.reverse.dropWhile (· != '.') with
  | nil => rfl
  | cons c front =>
      rw [List.map_cons]
      cases front with
      | nil => rfl
      | cons c' front => exact (List.map_reverse).symm

/-- A name without a point behind its first character is not cut. -/
theorem cutName_of_not_mem {n : List Char} (h : '.' ∉ n.tail) :
    (cutName n).1 = n := by
  rw [cutName]
  cases hdrop : n.reverse.dropWhile (· != '.') with
  | nil => rfl
  | cons c front =>
      have hpoint : c = '.' := by
        have hnot := List.head?_dropWhile_not (· != '.') n.reverse
        rw [hdrop] at hnot
        simpa using hnot
      obtain ⟨tail, htail⟩ := List.dropWhile_suffix (· != '.') (l := n.reverse)
      rw [hdrop, hpoint] at htail
      -- anything before the point would leave the point in the tail
      have hfront : front = [] := Classical.byContradiction fun hne => by
        have hn : n = front.reverse ++ '.' :: tail.reverse := by
          have hreverse := congrArg List.reverse htail
          simpa using hreverse.symm
        refine h ?_
        rw [hn, List.tail_append_of_ne_nil (by simpa using hne)]
        simp
      rw [hfront]
      rfl

theorem mem_of_mem_cutName {n : List Char} {c : Char} (h : c ∈ (cutName n).1) :
    c ∈ n := by
  rw [cutName] at h
  split at h
  · exact h
  · rename_i front hdrop
    split at h
    · exact h
    · refine List.mem_reverse.1 (List.dropWhile_subset (· != '.') ?_)
      rw [hdrop]
      exact List.mem_cons_of_mem _ (List.mem_reverse.1 h)

/-- A name among the components of a path is one of its names. -/
theorem mem_namesOf_of_mem_components {p : Path} {n : String}
    (h : .name n ∈ p.components) : n ∈ namesOf p := by
  have hp : p.text ≠ "" := by
    intro hempty
    rw [components_eq_nil_iff.2 (beq_iff_eq.2 hempty)] at h
    cases h
  obtain ⟨front, rest, hnames⟩ := List.exists_cons_of_ne_nil (namesOf_ne_nil p)
  rw [components_of_namesOf hp hnames] at h
  rw [hnames]
  rcases List.mem_cons.1 h with hfront | hrest
  · have hne : front ≠ "" := by
      rintro rfl
      cases hfront
    have htext := (Component.ofFront_of_ne hne).2
    rw [← hfront] at htext
    exact List.mem_cons.2 (.inl htext)
  · obtain ⟨m, hm, heq⟩ := List.mem_filterMap.1 hrest
    obtain rfl : n = m := Component.text_eq_of_ofName? heq
    exact List.mem_cons_of_mem _ hm

theorem not_mem_of_fileName? {p : Path} {n : String}
    (h : p.fileName? = some n) : '/' ∉ n.toList := by
  rw [fileName?] at h
  split at h
  · rename_i m hlast
    cases h
    exact not_mem_of_mem_namesOf
      (mem_namesOf_of_mem_components (List.mem_of_getLast? hlast))
  · cases h

theorem not_mem_of_stem? {p : Path} {stem : String} (h : p.stem? = some stem) :
    '/' ∉ stem.toList := by
  obtain ⟨n, hn, rfl⟩ := Option.map_eq_some_iff.1 h
  rw [String.toList_ofList]
  exact fun hmem => not_mem_of_fileName? hn (mem_of_mem_cutName hmem)

/-- The path of a place ends in the last name of the place. -/
theorem fileName?_pathOf_concat (place : Location) {n : String}
    (hn : IsName n) : (pathOf (place ++ [n])).fileName? = some n := by
  obtain ⟨front, hfront⟩ : ∃ front,
      (pathOf (place ++ [n])).text.toList = front ++ '/' :: n.toList := by
    rw [toList_pathOf, List.map_append]
    by_cases hplace : place = []
    · subst hplace
      exact ⟨[], rfl⟩
    · refine ⟨'/' :: Text.unpieces '/' (place.map String.toList), ?_⟩
      rw [Text.unpieces_append (by simpa using hplace) (by simp)]
      rfl
  have hnames : namesOf (pathOf (place ++ [n]))
      = (namePieces front).map String.ofList ++ [n] := by
    rw [namesOf, hfront, namePieces, Text.pieces_append_cons, List.map_append,
      Text.pieces_of_not_mem hn.2.2.2, namePieces]
    simp
  exact fileName?_of_namesOf hn hnames

end Path

namespace Resolution

/-! ## What forwards to a private header -/

/-- The one sibling of a private header that has its stem for a name, in other
letters. -/
structure Forwarding (d : Disk) (f : Path) where
  dir : Path
  stem : String
  place : Location
  name : String
  node : Node
  parent : f.parent? = some dir
  stem_eq : f.stem? = some stem
  framework : isFrameworkDirectory dir = true
  small : stem.toList.any isCapital = false
  located : d.locate dir = some (place, .directory)
  entry : d.node? (place ++ [name]) = some node
  isFile : d.isFile (dir.join name) = true
  ne_stem : name ≠ stem
  letters : sameLetters name stem = true
  only : publicCandidates d f dir stem = [dir.join name]

variable {d : Disk} {f h : Path}

/-- The public form of a file is not replaced again. -/
def Settles (d : Disk) (f : Path) : Prop :=
  publicForm d (publicForm d f) = publicForm d f

instance (d : Disk) (f : Path) : Decidable (Settles d f) :=
  inferInstanceAs (Decidable (_ = _))

/-- **A private header has a public one just if one sibling forwards to it.** -/
theorem publicHeader?_eq_some_iff : publicHeader? d f = some h
    ↔ ∃ w : Forwarding d f, d.canonical (w.dir.join w.name) = h := by
  constructor
  · intro heq
    simp only [publicHeader?, Option.bind_eq_bind, Option.bind_eq_some_iff]
      at heq
    obtain ⟨dir, hdir, stem, hstem, heq⟩ := heq
    split at heq
    · rename_i htest
      rw [Bool.and_eq_true, Bool.not_eq_true'] at htest
      split at heq
      · rename_i header honly
        cases heq
        have hcandidates := honly
        rw [publicCandidates] at hcandidates
        split at hcandidates
        · rename_i place hlocate
          obtain ⟨⟨n, node⟩, hfilter, rfl⟩ :=
            List.map_eq_singleton_iff.1 hcandidates
          have hmem : (n, node) ∈ [(n, node)] := List.mem_singleton_self _
          rw [← hfilter, List.mem_filter, Disk.mem_entries] at hmem
          obtain ⟨hentry, hname⟩ := hmem
          simp only [Bool.and_eq_true, bne_iff_ne] at hname
          obtain ⟨⟨⟨_, hfile⟩, hne⟩, hletters⟩ := hname
          exact ⟨⟨dir, stem, place, n, node, hdir, hstem, htest.1, htest.2,
            hlocate, hentry, hfile, hne, hletters, honly⟩, rfl⟩
        · cases hcandidates
      · cases heq
    · cases heq
  · rintro ⟨w, rfl⟩
    have htest : (isFrameworkDirectory w.dir
        && !w.stem.toList.any isCapital) = true := by
      rw [w.framework, w.small]
      rfl
    simp only [publicHeader?, w.parent, w.stem_eq, Option.bind_eq_bind,
      Option.bind_some, htest, if_true, w.only]

/-- A file with a capital in its stem is no private header. -/
theorem publicHeader?_of_any_isCapital {stem : String}
    (hstem : f.stem? = some stem)
    (hcapital : stem.toList.any isCapital = true) :
    publicHeader? d f = none := by
  refine Option.eq_none_iff_forall_ne_some.2 fun h heq => ?_
  obtain ⟨w, _⟩ := publicHeader?_eq_some_iff.1 heq
  obtain rfl : stem = w.stem :=
    Option.some.inj (hstem.symm.trans w.stem_eq)
  rw [w.small] at hcapital
  cases hcapital

/-- A second step leads further just if the public header that was found has
one, too, and is not this itself. -/
theorem settles_iff : Settles d f
    ↔ ∀ h k, publicHeader? d f = some h → publicHeader? d h = some k →
      k = h := by
  rw [Settles]
  cases hheader : publicHeader? d f with
  | none => simp [publicForm, hheader]
  | some h =>
      rw [show publicForm d f = h by rw [publicForm, hheader]; rfl, publicForm]
      constructor
      · intro hfix h' k heq hk
        cases heq
        rw [hk] at hfix
        exact hfix
      · intro hnext
        cases hk : publicHeader? d h with
        | none => rfl
        | some k => exact hnext h k rfl hk

namespace Forwarding

variable (w : Forwarding d f)

theorem map_lowerChar :
    w.name.toList.map lowerChar = w.stem.toList.map lowerChar :=
  beq_iff_eq.1 w.letters

theorem any_isCapital : w.name.toList.any isCapital = true :=
  any_isCapital_of_ne w.map_lowerChar w.small
    fun heq => w.ne_stem (String.toList_inj.1 heq)

/-- What forwards has a name that an entry can have, on any disk: it has a
capital, and no separator as the stem has none. -/
theorem isName : IsName w.name := by
  have hne {m : String} (hm : m.toList.any isCapital = false) :
      w.name ≠ m := by
    intro heq
    rw [← heq, w.any_isCapital] at hm
    cases hm
  refine ⟨hne (by decide), hne (by decide), hne (by decide), fun hmem => ?_⟩
  exact Path.not_mem_of_stem? w.stem_eq
    (mem_of_map_lowerChar_eq w.map_lowerChar (by decide) (by decide) hmem)

/-- An entry that is no link is canonically at its place. -/
theorem canonical_of_not_isLink (hlink : w.node.isLink = false) :
    d.canonical (w.dir.join w.name) = pathOf (w.place ++ [w.name]) := by
  obtain ⟨_, _, hlocate⟩ := isFile_iff_locate.1 w.isFile
  exact canonical_of_locate (locate_join_name w.isName w.located w.entry hlink
    (isUsable_of_locate hlocate))

/-- Where the name and the stem differ before their last points, the name has a
capital there: the stem of a private header has none. -/
theorem any_isCapital_cutName
    (hne : (Path.cutName w.name.toList).1 ≠ (Path.cutName w.stem.toList).1) :
    (Path.cutName w.name.toList).1.any isCapital = true := by
  have hletters : (Path.cutName w.name.toList).1.map lowerChar
      = (Path.cutName w.stem.toList).1.map lowerChar := by
    rw [← Path.cutName_map_lowerChar, w.map_lowerChar,
      Path.cutName_map_lowerChar]
  refine any_isCapital_of_ne hletters ?_ hne
  refine List.any_eq_false.2 fun c hc => ?_
  exact List.any_eq_false.1 w.small c (Path.mem_of_mem_cutName hc)

/-- Only a stem with a point behind its first character is cut, and then the
name is cut at the same place. -/
theorem cutName_ne (hpoint : '.' ∉ w.stem.toList.tail) :
    (Path.cutName w.name.toList).1 ≠ (Path.cutName w.stem.toList).1 := by
  have htail : w.name.toList.tail.map lowerChar
      = w.stem.toList.tail.map lowerChar := by
    rw [List.map_tail, List.map_tail, w.map_lowerChar]
  have hpoint' : '.' ∉ w.name.toList.tail := fun hmem =>
    hpoint (mem_of_map_lowerChar_eq htail (by decide) (by decide) hmem)
  rw [Path.cutName_of_not_mem hpoint, Path.cutName_of_not_mem hpoint', Ne,
    String.toList_inj]
  exact w.ne_stem

/-- **What is public by its own name is final.** An entry that is no link keeps
its name when it is canonicalized, and the capital in its stem makes it no
private header. -/
theorem settles (hlink : w.node.isLink = false)
    (hne : (Path.cutName w.name.toList).1 ≠ (Path.cutName w.stem.toList).1) :
    Settles d f := by
  rw [settles_iff]
  intro h k hheader hnext
  obtain rfl : pathOf (w.place ++ [w.name]) = h := by
    rw [← w.canonical_of_not_isLink hlink, ← Option.some_inj, ← hheader]
    exact (publicHeader?_eq_some_iff.2 ⟨w, rfl⟩).symm
  have hstem : (pathOf (w.place ++ [w.name])).stem?
      = some (String.ofList (Path.cutName w.name.toList).1) := by
    rw [Path.stem?, Path.fileName?_pathOf_concat _ w.isName]
    rfl
  rw [publicHeader?_of_any_isCapital hstem
    (by rw [String.toList_ofList]; exact w.any_isCapital_cutName hne)] at hnext
  cases hnext

end Forwarding

end Resolution

/-! ## The next pass -/

namespace Organize

open Resolution

variable {s : Settings} {d : Disk} {r : OrganizeRequest} {actions : Actions}
  {f : Path}

/-- The files that a pass is given: those of the entries that it weighs, and
the required ones. -/
def IsGiven (s : Settings) (d : Disk) (r : OrganizeRequest) (actions : Actions)
    (f : Path) : Prop :=
  (∃ e ∈ r.entries, e.isMoc = false
      ∧ (lookedUp s d r actions e).isResolved = true
      ∧ (lookedUp s d r actions e).file = f)
    ∨ f ∈ r.required ∧ f.isEmpty = false

theorem preferredForm_preferredForm (h : Settles d f) :
    preferredForm d s (preferredForm d s f) = preferredForm d s f := by
  rw [preferredForm, preferredForm]
  split
  · exact h
  · rfl

/-- Whatever entries a pass keeps or adds, they are for preferred forms of what
it is given. -/
theorem exists_given_of_mem_revised {x : Index} {policy : Policy}
    (hf : f ∈ (revised actions (survey s d r actions)
      (weigh x d policy (survey s d r actions)).1).map (·.file)) :
    ∃ g, IsGiven s d r actions g ∧ preferredForm d s g = f := by
  obtain ⟨e, he, rfl⟩ := List.mem_map.1 hf
  rcases List.mem_append.1 he with hkept | hadded
  · have hweighable : e ∈ weighable s d r actions :=
      (found_append_repeats_perm s d r actions).mem_iff.1
        (List.mem_append_left _ (List.mem_filter.1 hkept).1)
    obtain ⟨_, _, e₀, he₀, hmoc, hresolved, rfl⟩ :=
      mem_weighable hweighable
    exact ⟨_, .inl ⟨e₀, he₀, hmoc, hresolved, rfl⟩,
      (file_preferredEntry s d _).symm⟩
  · split at hadded
    · obtain ⟨g, hg, rfl⟩ := List.mem_map.1 hadded
      rw [weigh_eq, ← FileSet.mem_def, FileSet.mem_diff] at hg
      have hneeds := (Cover.mem_or_mem_of_mem_wanted hg.1).resolve_left hg.2
      have hrequired := mem_required_survey.1 (Survey.mem_needs.1 hneeds).1
      obtain ⟨g₀, hg₀, hnonempty, hform⟩ := mem_preferredFiles.1 hrequired.1
      exact ⟨g₀, .inr ⟨hg₀, hnonempty⟩, hform⟩
    · cases hadded

end Organize

namespace Organizer

open Organize Resolution

theorem exists_given_of_mem_ownEntries (o : Organizer) (d : Disk)
    (r : OrganizeRequest) (actions : Actions) {e : Entry}
    (he : e ∈ ownEntries (o.organizeWith d r actions).1.entries) :
    ∃ g, IsGiven o.settings d r actions g
      ∧ preferredForm d o.settings g = e.file := by
  have hmem := (o.ownEntries_entries d r actions).mem_files.1
    (List.mem_map_of_mem he)
  obtain ⟨e', he', heq⟩ := List.mem_map.1 hmem
  have hfile := List.mem_map_of_mem (f := (·.file)) (mem_ownEntries.1 he').1
  rw [heq, files_written] at hfile
  exact exists_given_of_mem_revised hfile

/-- **Public headers settle where they are public by their own names.** A file
settles exactly if its public header has no other one itself; so it does if
what forwards to it is no link and differs from its stem before the last point,
which a stem without a point behind its first character makes sure of. Every
entry that a pass leaves, but for generated code and what has no file, and every
file that it takes for required is the preferred form of one that it is given;
if this settles, no other pass has an entry or a requirement for another file in
its place. -/
theorem settles_of_forwarding (d : Disk) :
    (∀ f, Settles d f
        ↔ ∀ h k, publicHeader? d f = some h → publicHeader? d h = some k →
          k = h)
      ∧ (∀ f (w : Forwarding d f), w.node.isLink = false →
          (Path.cutName w.name.toList).1 ≠ (Path.cutName w.stem.toList).1
            ∨ '.' ∉ w.stem.toList.tail →
          Settles d f)
      ∧ ∀ (o : Organizer) (r : OrganizeRequest) (actions : Actions),
          (∀ e ∈ ownEntries (o.organizeWith d r actions).1.entries,
            ∃ g, IsGiven o.settings d r actions g
              ∧ preferredForm d o.settings g = e.file
              ∧ (Settles d g → ∀ r' actions',
                (preferredEntry o.settings d
                  (lookedUp o.settings d r' actions' e)).file = e.file))
          ∧ ∀ p ∈ preferredFiles d o.settings r,
            ∃ g ∈ r.required, preferredForm d o.settings g = p
              ∧ (Settles d g → preferredForm d o.settings p = p) := by
  refine ⟨fun f => settles_iff, fun f w hlink hname => ?_,
    fun o r actions => ⟨fun e he => ?_, fun p hp => ?_⟩⟩
  · exact w.settles hlink (hname.elim id w.cutName_ne)
  · obtain ⟨g, hgiven, hform⟩ := o.exists_given_of_mem_ownEntries d r actions he
    refine ⟨g, hgiven, hform, fun hsettles r' actions' => ?_⟩
    rw [lookedUp_of_isResolved (mem_ownEntries.1 he).2.2, file_preferredEntry,
      ← hform, preferredForm_preferredForm hsettles]
  · obtain ⟨g, hg, _, rfl⟩ := mem_preferredFiles.1 hp
    exact ⟨g, hg, rfl, preferredForm_preferredForm⟩

/-- A disk with a header in lower case beside its public one, one whose public
header has all its capitals behind the last point, and one beside a link to
another private header. -/
def frameworkDisk : Disk where
  nodes := [(["QtCore"], .directory),
    (["QtCore", "qstring.h"], .file []), (["QtCore", "QString"], .file []),
    (["QtCore", "a.b.h"], .file []), (["QtCore", "a.B"], .file []),
    (["QtCore", "A"], .file []), (["QtGui"], .directory),
    (["QtGui", "x.h"], .file []), (["QtGui", "X"], .link ⟨"../QtXml/y.h"⟩),
    (["QtXml"], .directory), (["QtXml", "y.h"], .file []),
    (["QtXml", "Y"], .file [])]
  workingDirectory := []

/-- A document that includes and needs the first of these headers. -/
def stringRequest : OrganizeRequest where
  document := ⟨"/d.cpp"⟩
  entries := [.resolved ⟨"/QtCore/qstring.h"⟩ "qstring.h" (some 1) false]
  required := [⟨"/QtCore/qstring.h"⟩]

theorem settles_of_forwarding_string :
    let o : Organizer := ⟨Index.new Snapshot.empty.toSource, {}⟩
    let entries := (o.organizeWith frameworkDisk stringRequest .all).1.entries
    Settles frameworkDisk ⟨"/QtCore/qstring.h"⟩
      ∧ entries.map (·.file) = [⟨"/QtCore/QString"⟩]
      ∧ (∀ e ∈ ownEntries entries, ∀ r' actions',
          (preferredEntry {} frameworkDisk
            (lookedUp {} frameworkDisk r' actions' e)).file = e.file)
      ∧ preferredForm frameworkDisk {} ⟨"/QtCore/QString"⟩
        = ⟨"/QtCore/QString"⟩ := by
  intro o entries
  obtain ⟨_, hforwarding, hpass⟩ := settles_of_forwarding frameworkDisk
  have hsettles : Settles frameworkDisk ⟨"/QtCore/qstring.h"⟩ :=
    hforwarding ⟨"/QtCore/qstring.h"⟩
      { dir := ⟨"/QtCore"⟩, stem := "qstring", place := ["QtCore"]
        name := "QString", node := .file []
        parent := by decide
        stem_eq := by decide
        framework := by decide
        small := by decide
        located := by decide
        entry := by decide
        isFile := by decide
        ne_stem := by decide
        letters := by decide
        only := by decide }
      rfl (.inr (by decide))
  obtain ⟨hentries, hrequired⟩ := hpass o stringRequest .all
  refine ⟨hsettles, by decide +kernel, fun e he => ?_, ?_⟩
  · obtain ⟨g, hgiven, _, hkept⟩ := hentries e he
    obtain rfl : ⟨"/QtCore/qstring.h"⟩ = g := by
      rcases hgiven with ⟨e₀, he₀, _, _, hfile⟩ | ⟨hg, _⟩
      · obtain rfl := List.mem_singleton.1 he₀
        rwa [lookedUp_of_isResolved rfl] at hfile
      · exact (List.mem_singleton.1 hg).symm
    exact hkept hsettles
  · obtain ⟨g, hg, _, hform⟩ :=
      hrequired ⟨"/QtCore/QString"⟩ (by decide +kernel)
    obtain rfl := List.mem_singleton.1 hg
    exact hform hsettles

/-- **A public header may be taken for a private one.** Of `a.B` the rule only
sees the stem `a`, and the link `X` counts as the header it leads to. So a pass
over its own result replaces both once more. -/
theorem not_settles_framework :
    let request : OrganizeRequest :=
      { document := ⟨"/d.cpp"⟩
        entries := [.resolved ⟨"/QtCore/a.b.h"⟩ "a.b.h" (some 1) false,
          .resolved ⟨"/QtGui/x.h"⟩ "x.h" (some 2) false] }
    let pass (entries : List Entry) : List Entry :=
      (organizeWith ⟨Index.new Snapshot.empty.toSource, {}⟩ frameworkDisk
        { request with entries } .none).1.entries
    ¬ Settles frameworkDisk ⟨"/QtCore/a.b.h"⟩
      ∧ ¬ Settles frameworkDisk ⟨"/QtGui/x.h"⟩
      ∧ (pass request.entries).map (·.file)
        = [⟨"/QtCore/a.B"⟩, ⟨"/QtXml/y.h"⟩]
      ∧ (pass (pass request.entries)).map (·.file)
        = [⟨"/QtCore/A"⟩, ⟨"/QtXml/Y"⟩] := by
  decide +kernel

end Organizer

end IncludeBlock
