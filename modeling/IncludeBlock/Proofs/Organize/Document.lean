import IncludeBlock.Proofs.Organize.Outcome

/-!
# The document in its own block

A document is not required by its own block, and no entry is made for it. Both
hold of files as they are after they gave way to their public headers. So a
document that is itself a private header requires its public header where it
requires itself (`organizeWith_document_iff`), and a public header that includes
one of its private headers includes itself afterwards
(`includes_document_iff`).
-/

namespace IncludeBlock

namespace Organize

variable {s : Settings} {d : Disk} {r : OrganizeRequest} {actions : Actions}
  {required : List Path} {p : Path}

/-! ## A document that requires itself -/

/-- A survey reads the required files of a request for the last two parts. -/
theorem survey_required (required : List Path) :
    survey s d { r with required } actions
      = { survey s d r actions with
          required := (survey s d { r with required } actions).required
          self := (survey s d { r with required } actions).self } := rfl

theorem mem_preferredFiles_document (hdocument : r.document.isEmpty = false)
    (h : ∀ f, f ∈ required ↔ f = r.document ∨ f ∈ r.required) :
    p ∈ preferredFiles d s { r with required }
      ↔ p = preferredForm d s r.document ∨ p ∈ preferredFiles d s r := by
  simp only [mem_preferredFiles, h]
  constructor
  · rintro ⟨f, rfl | hf, hnonempty, hp⟩
    · exact .inl hp.symm
    · exact .inr ⟨f, hf, hnonempty, hp⟩
  · rintro (rfl | ⟨f, hf, hnonempty, hp⟩)
    · exact ⟨r.document, .inl rfl, hdocument, rfl⟩
    · exact ⟨f, .inr hf, hnonempty, hp⟩

/-- Without a public header of its own a document that requires itself is set
aside, and nothing else changes. -/
theorem survey_document (hdocument : r.document.isEmpty = false)
    (h : ∀ f, f ∈ required ↔ f = r.document ∨ f ∈ r.required)
    (hown : preferredForm d s r.document = r.document) :
    survey s d { r with required } actions
      = { survey s d r actions with
          self := (survey s d r actions).self.insert r.document } := by
  have hrequired : (survey s d { r with required } actions).required
      = (survey s d r actions).required := by
    ext p
    rw [mem_required_survey, mem_required_survey,
      mem_preferredFiles_document hdocument h, hown]
    exact and_congr_left fun hne => or_iff_right hne
  have hself : (survey s d { r with required } actions).self
      = (survey s d r actions).self.insert r.document := by
    ext p
    rw [FileSet.mem_insert, mem_self_survey, mem_self_survey,
      mem_preferredFiles_document hdocument h, hown, or_and_right, and_self]
  rw [survey_required, hrequired, hself]

/-- The document is set aside and not weighed. -/
theorem weigh_self (x : Index) (policy : Policy) (v : Survey) (self : FileSet) :
    weigh x d policy { v with self } = weigh x d policy v := by
  unfold weigh
  rfl

/-! ## A document that includes itself -/

/-- The entries for private headers whose public header is the document. -/
def privateEntries (s : Settings) (d : Disk) (r : OrganizeRequest) :
    List Entry :=
  r.entries.filter fun e => !e.isMoc && (s.preferPublic
    && Resolution.publicHeader? d e.file == some r.document)

theorem file_preferredEntry_eq_iff {e : Entry} (h : e.file ≠ p) :
    (preferredEntry s d e).file = p
      ↔ s.preferPublic = true ∧ Resolution.publicHeader? d e.file = some p := by
  cases hpublic : s.preferPublic with
  | false => simp [preferredEntry, hpublic, h]
  | true =>
      cases hheader : Resolution.publicHeader? d e.file with
      | none => simp [preferredEntry, preferPublic, hpublic, hheader, h]
      | some header => simp [preferredEntry, preferPublic, hpublic, hheader]

/-- What is not weighed is as it came. -/
theorem mem_entries_of_setAside {e : Entry}
    (he : e ∈ (survey s d r actions).unresolved ++ r.entries.filter (·.isMoc)) :
    e ∈ r.entries := by
  rw [unresolved_survey] at he
  rcases List.mem_append.1 he with hunresolved | hmoc
  · exact (List.mem_filter.1 hunresolved).1
  · exact (List.mem_filter.1 hmoc).1

/-- Where every entry has a file, all but generated code is weighable. -/
theorem weighable_of_isResolved (hresolved : ∀ e ∈ r.entries, e.isResolved = true) :
    weighable s d r actions
      = (r.entries.filter (!·.isMoc)).map (preferredEntry s d) := by
  have hsearched : searched s d r actions = r.entries := by
    rw [searched_eq_map]
    refine (List.map_congr_left fun e he => ?_).trans (List.map_id _)
    exact lookedUp_of_isResolved (hresolved e he)
  have hfilter : (r.entries.filter (!·.isMoc)).filter (·.isResolved)
      = r.entries.filter (!·.isMoc) := by
    apply List.filter_eq_self.2
    intro e he
    exact hresolved e (List.mem_filter.1 he).1
  rw [weighable, hsearched, hfilter]

/-- Of what is weighed, the private headers of the document are the document. -/
theorem count_document_weighable (hresolved : ∀ e ∈ r.entries, e.isResolved = true)
    (hother : ∀ e ∈ r.entries, e.file ≠ r.document) :
    ((weighable s d r actions).map (·.file)).count r.document
      = (privateEntries s d r).length := by
  rw [weighable_of_isResolved hresolved, List.map_map, List.count_eq_countP,
    List.countP_map, List.countP_filter, List.countP_eq_length_filter,
    privateEntries]
  congr 1
  apply List.filter_congr
  intro e he
  have hfile := file_preferredEntry_eq_iff (s := s) (d := d) (hother e he)
  rw [Bool.eq_iff_iff]
  simp only [Function.comp_apply, Bool.and_eq_true, Bool.not_eq_true',
    beq_iff_eq, hfile, and_comm]

end Organize

namespace Organizer

open Organize

variable (o : Organizer) (d : Disk) (r : OrganizeRequest) (actions : Actions)
  {required : List Path}

/-- The document is given up where it is required as it is, and only there. -/
theorem document_mem_uncoverable_iff :
    r.document ∈ (o.organizeWith d r actions).1.uncoverable
      ↔ r.document ∈ preferredFiles d o.settings r := by
  have hreduced : r.document ∉ (weigh o.index d o.settings.policy
      (survey o.settings d r actions)).1.uncoverable := by
    intro hmem
    rw [weigh_eq] at hmem
    have hneeds := (Cover.mem_uncoverable_ofSets.1 hmem).1
    exact (mem_required_survey.1 (Survey.mem_needs.1 hneeds).1).2 rfl
  rw [uncoverable_organizeWith, ← FileSet.mem_def, FileSet.mem_union,
    or_iff_left hreduced, mem_self_survey, and_iff_left rfl]

/-- An outcome with the document given up beside the rest. -/
def withDocument (result : OrganizeResult) (document : Path) : OrganizeResult :=
  { result with
    uncoverable := (FileSet.ofList (document :: result.uncoverable)).toList }

theorem withDocument_of_mem
    (h : r.document ∈ (o.organizeWith d r actions).1.uncoverable) :
    withDocument (o.organizeWith d r actions).1 r.document
      = (o.organizeWith d r actions).1 := by
  have hlist := o.uncoverable_organizeWith d r actions
  rw [hlist, ← FileSet.mem_def] at h
  rw [withDocument, hlist, FileSet.ofList_cons_toList, FileSet.insert_of_mem h,
    ← hlist]

theorem organizeWith_document (hdocument : r.document.isEmpty = false)
    (h : ∀ f, f ∈ required ↔ f = r.document ∨ f ∈ r.required)
    (hown : preferredForm d o.settings r.document = r.document) :
    (o.organizeWith d { r with required } actions).1
      = withDocument (o.organizeWith d r actions).1 r.document := by
  unfold organizeWith withDocument
  dsimp only
  rw [survey_document hdocument h hown, FileSet.ofList_cons_toList,
    ← FileSet.insert_union, weigh_self]
  rfl

/-- **A document is not required by itself** unless it has a public header.
Without one, requiring the document changes nothing but that it is given up,
too. With one, the law holds only where the public header of some file that is
required anyway is the document, so that it is given up before, and where
requiring it once more makes no difference. For the public header is required in
its place, like any other file. -/
theorem organizeWith_document_iff (hdocument : r.document.isEmpty = false)
    (h : ∀ f, f ∈ required ↔ f = r.document ∨ f ∈ r.required) :
    let form := preferredForm d o.settings r.document
    let result := (o.organizeWith d r actions).1
    let again := (o.organizeWith d { r with required } actions).1
    (again = withDocument result r.document
        ↔ form = r.document ∨ (r.document ∈ result.uncoverable ∧ again = result))
      ∧ (form ≠ r.document → actions.add = true → form ∉ again.uncoverable →
          ∃ e ∈ again.entries, e.isResolved = true
            ∧ (form = e.file ∨ form ∈ (o.index.expand d e.file).1.closure)) := by
  intro form result again
  have hforms (p : Path) : p ∈ preferredFiles d o.settings { r with required }
      ↔ p = form ∨ p ∈ preferredFiles d o.settings r :=
    mem_preferredFiles_document hdocument h
  constructor
  · constructor
    · intro hlaw
      by_cases hown : form = r.document
      · exact .inl hown
      · have hmem : r.document ∈ again.uncoverable := by
          rw [hlaw, withDocument, ← FileSet.mem_def, FileSet.mem_ofList]
          exact List.mem_cons_self
        have hbefore : r.document ∈ result.uncoverable := by
          rw [document_mem_uncoverable_iff]
          have hdoc := (o.document_mem_uncoverable_iff d { r with required }
            actions).1 hmem
          exact ((hforms r.document).1 hdoc).resolve_left (Ne.symm hown)
        exact .inr ⟨hbefore,
          hlaw.trans (o.withDocument_of_mem d r actions hbefore)⟩
    · rintro (hown | ⟨hbefore, hsame⟩)
      · exact o.organizeWith_document d r actions hdocument h hown
      · rw [hsame]
        exact (o.withDocument_of_mem d r actions hbefore).symm
  · intro _ hadd hn
    obtain ⟨e, he, hresolved, hc⟩ := o.exists_entry_of_needed d
      { r with required } actions hadd ((hforms form).2 (.inl rfl)) hn
    refine ⟨e, ?_, hresolved, Index.covers_iff.1 hc⟩
    show e ∈ (o.organizeWith d { r with required } actions).1.entries
    rw [entries_organizeWith]
    exact List.mem_append_left _ he

/-- `/d` is required of itself between the files that it needs. -/
theorem organizeWith_document_smallRequest :
    let o : Organizer := ⟨Cover.overlapping, {}⟩
    let again := (o.organizeWith ∅
      { smallRequest with required := [⟨"/x"⟩, ⟨"/d"⟩, ⟨"/y"⟩] } .all).1
    again = withDocument (o.organizeWith ∅ smallRequest .all).1 ⟨"/d"⟩
      ∧ again.uncoverable = [⟨"/d"⟩] := by
  refine ⟨?_, by decide +kernel⟩
  refine (organizeWith_document_iff _ ∅ smallRequest .all (by decide)
    fun f => ?_).1.2 (.inl (by decide +kernel))
  simp only [smallRequest, List.mem_cons, List.not_mem_nil, or_false]
  exact or_left_comm

/-- A directory of the framework: `qstring.h`, and `QString`, which forwards to
it. -/
def framework : Disk where
  nodes := [(["QtCore"], .directory), (["QtCore", "QString"], .file []),
    (["QtCore", "qstring.h"], .file [])]
  workingDirectory := []

/-- **A private header may require its public one of itself.** An empty
`qstring.h` gets an include of `QString` by being required of itself. -/
theorem not_organizeWith_document_framework :
    let o : Organizer := ⟨Index.new Snapshot.empty.toSource, {}⟩
    let r : OrganizeRequest := { document := ⟨"/QtCore/qstring.h"⟩ }
    let result := (o.organizeWith framework r .all).1
    let again := (o.organizeWith framework
      { r with required := [r.document] } .all).1
    result.entries = [] ∧ result.uncoverable = []
      ∧ again.entries.map (·.file) = [⟨"/QtCore/QString"⟩]
      ∧ again.uncoverable = [] := by
  decide +kernel

/-! ## Whoever includes the document -/

/-- The document is accepted only if some entry has it. -/
theorem document_mem_files_of_accepted
    (h : r.document ∈ o.acceptedFiles d r actions) :
    r.document ∈ (survey o.settings d r actions).files := by
  rcases Cover.mem_or_mem_of_mem_wanted h with hfiles | hneeds
  · exact hfiles
  · exact absurd rfl (mem_required_survey.1 (Survey.mem_needs.1 hneeds).1).2

/-- No entry is made for the document. -/
theorem document_not_mem_addedFiles :
    r.document ∉ o.addedFiles d r actions := by
  intro hmem
  rw [addedFiles_eq] at hmem
  obtain ⟨haccepted, hfiles⟩ := FileSet.mem_diff.1 hmem
  exact hfiles (o.document_mem_files_of_accepted d r actions haccepted)

theorem count_document_newEntries :
    ((newEntries actions (o.addedFiles d r actions)).map (·.file)).count
      r.document = 0 := by
  apply List.count_eq_zero.2
  rw [files_newEntries]
  split
  · exact o.document_not_mem_addedFiles d r actions
  · exact List.not_mem_nil

section Others

variable (hresolved : ∀ e ∈ r.entries, e.isResolved = true)
  (hother : ∀ e ∈ r.entries, e.file ≠ r.document)

include hresolved hother

/-- What becomes of the private headers of the document: dropped, or an include
of the document by itself. Nothing else does. -/
theorem count_document_dropped_append_entries :
    (((o.organizeWith d r actions).1.dropped
        ++ (o.organizeWith d r actions).1.entries).map (·.file)).count r.document
      = (privateEntries o.settings d r).length := by
  have htraits := (o.traits_weighable d r actions (·.file) (fun _ => rfl)
    fun _ => rfl).count_eq r.document
  have haside : (((survey o.settings d r actions).unresolved
      ++ r.entries.filter (·.isMoc)).map (·.file)).count r.document = 0 := by
    apply List.count_eq_zero.2
    intro hmem
    obtain ⟨e, he, heq⟩ := List.mem_map.1 hmem
    exact hother e (mem_entries_of_setAside he) heq
  rw [htraits, List.map_append, List.map_append, List.count_append,
    List.count_append, o.count_document_newEntries d r actions, haside,
    count_document_weighable hresolved hother]
  rfl

/-- The block of a removing pass includes the document if some entry has it by
now and it is accepted. -/
theorem document_mem_entries_iff (hdocument : r.document.isEmpty = false)
    (hremove : actions.remove = true) :
    (∃ e ∈ (o.organizeWith d r actions).1.entries, e.file = r.document)
      ↔ privateEntries o.settings d r ≠ []
        ∧ r.document ∈ o.acceptedFiles d r actions := by
  have hfiles : (∃ e ∈ (o.organizeWith d r actions).1.entries,
        e.file = r.document)
      ↔ r.document ∈ (o.organizeWith d r actions).1.files := by
    simp [OrganizeResult.mem_files, hdocument]
  have hmoc : ¬ ∃ e ∈ r.entries, e.isMoc = true ∧ e.file = r.document := by
    rintro ⟨e, he, -, heq⟩
    exact hother e he heq
  have hweighed : r.document ∈ (survey o.settings d r actions).files
      ↔ privateEntries o.settings d r ≠ [] := by
    rw [mem_files_weighable, ← List.count_pos_iff,
      count_document_weighable hresolved hother, List.length_pos_iff]
  rw [hfiles, o.mem_files_organizeWith d r actions hremove, ← hweighed]
  constructor
  · rintro ⟨-, ⟨haccepted, -⟩ | hgenerated⟩
    · exact ⟨o.document_mem_files_of_accepted d r actions haccepted, haccepted⟩
    · exact absurd hgenerated hmoc
  · intro h
    exact ⟨hdocument, .inl ⟨h.2, .inl h.1⟩⟩

end Others

/-- **When a document includes itself.** Take a document with a path, whose
entries all have files, and none the document itself. Each entry for a private
header of the document becomes one for the document, and nothing else does: no
entry is made for it. So the new block includes the document exactly if there
are such entries and, where entries may be dropped, the document is an accepted
file. -/
theorem includes_document_iff (hdocument : r.document.isEmpty = false)
    (hresolved : ∀ e ∈ r.entries, e.isResolved = true)
    (hother : ∀ e ∈ r.entries, e.file ≠ r.document) :
    let result := (o.organizeWith d r actions).1
    let turned := privateEntries o.settings d r
    ((result.dropped ++ result.entries).map (·.file)).count r.document
        = turned.length
      ∧ r.document ∉ o.addedFiles d r actions
      ∧ ((∃ e ∈ result.entries, e.file = r.document)
          ↔ turned ≠ [] ∧ (actions.remove = true →
              r.document ∈ o.acceptedFiles d r actions)) := by
  intro result turned
  have hcount := o.count_document_dropped_append_entries d r actions hresolved
    hother
  refine ⟨hcount, o.document_not_mem_addedFiles d r actions, ?_⟩
  cases hremove : actions.remove with
  | false =>
      rw [o.dropped_of_not_remove d r actions hremove, List.nil_append] at hcount
      rw [← List.length_pos_iff, ← hcount, List.count_pos_iff, List.mem_map]
      simp [result]
  | true =>
      rw [o.document_mem_entries_iff d r actions hresolved hother hdocument
        hremove]
      simp [turned]

/-- What `framework` includes: `QString` forwards to `qstring.h`, which includes
`qchar.h`. -/
def frameworkIndex : Index :=
  Index.new (Snapshot.ofRows [(⟨"/QtCore/QString"⟩, 1, [⟨"/QtCore/qstring.h"⟩]),
    (⟨"/QtCore/qstring.h"⟩, 1, [⟨"/QtCore/qchar.h"⟩]),
    (⟨"/QtCore/qchar.h"⟩, 1, [])] {}).1.toSource

/-- The public header `QString`, which needs `qchar.h`. -/
def forwardingRequest : OrganizeRequest where
  document := ⟨"/QtCore/QString"⟩
  entries := [.resolved ⟨"/QtCore/qstring.h"⟩ "qstring.h" (some 1) true]
  required := [⟨"/QtCore/qchar.h"⟩]

theorem includes_document_forwarding :
    let result := (organizeWith ⟨frameworkIndex, {}⟩ framework forwardingRequest
      .all).1
    ((result.dropped ++ result.entries).map (·.file)).count ⟨"/QtCore/QString"⟩
        = 1
      ∧ ∃ e ∈ result.entries, e.file = ⟨"/QtCore/QString"⟩ := by
  intro result
  obtain ⟨hcount, -, hiff⟩ := includes_document_iff ⟨frameworkIndex, {}⟩
    framework forwardingRequest .all (by decide) (by decide) (by decide)
  exact ⟨hcount.trans (by decide +kernel),
    hiff.2 ⟨by decide +kernel, fun _ => by decide +kernel⟩⟩

/-- **A public header may come to include itself.** The only entry of `QString`
gives way to `QString`, and is all that provides `qchar.h`. -/
theorem not_other_forwarding :
    let result := (organizeWith ⟨frameworkIndex, {}⟩ framework forwardingRequest
      .all).1
    forwardingRequest.entries.map (·.file) = [⟨"/QtCore/qstring.h"⟩]
      ∧ result.entries.map (·.file) = [forwardingRequest.document]
      ∧ result.entries.map (·.spelling) = ["QString"] := by
  decide +kernel

end Organizer

end IncludeBlock
