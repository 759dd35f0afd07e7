import IncludeBlock.Proofs.Organize.Document
import Mathlib.Data.List.Perm.Basic

/-!
# What becomes of an entry

Every entry of a request has a counterpart after a pass, dropped or in the new
block. The stages of a pass are filters and maps but for the last one, which
moves entries and gives them groups, so counterparts can be followed through
all of them (`exists_weighed_parts`, `exists_regrouped`). Each stage touches a
few fields of an entry, and only if an action allows it
(`confined_organizeWith`). Where public headers are preferred, an entry loses
its spelling as soon as it gives way to one, and if it is dropped afterwards
that is how it is reported (`dropped_as_written`).
-/

namespace IncludeBlock

namespace Organize

variable {s : Settings} {d : Disk} {r : OrganizeRequest} {actions : Actions}

/-! ## Counterparts -/

/-- What is moved after a map can be moved before it. -/
theorem exists_map_of_perm {α β : Type} {f : α → β} {bs : List β}
    {as : List α} (h : bs.Perm (as.map f)) :
    ∃ cs : List α, bs = cs.map f ∧ cs.Perm as :=
  (congrFun₂ (List.eq_map_comp_perm f) bs as).mpr h

theorem forall₂_map_eq_iff {α β : Type} {f : α → β} {as bs : List α} :
    List.Forall₂ (fun a b => f a = f b) as bs ↔ as.map f = bs.map f := by
  rw [← List.forall₂_map_right_iff, ← List.forall₂_map_left_iff,
    List.forall₂_eq_eq_eq]

/-- Whether an entry of a request is weighed. -/
def isWeighed (s : Settings) (d : Disk) (r : OrganizeRequest)
    (actions : Actions) (e : Entry) : Bool :=
  !e.isMoc && (lookedUp s d r actions e).isResolved

/-- The form in which an entry is weighed. -/
def weighedForm (s : Settings) (d : Disk) (r : OrganizeRequest)
    (actions : Actions) (e : Entry) : Entry :=
  preferredEntry s d (lookedUp s d r actions e)

theorem weighable_eq_map : weighable s d r actions
    = (r.entries.filter (isWeighed s d r actions)).map
        (weighedForm s d r actions) := by
  have htest : (fun e : Entry => e.isResolved && !e.isMoc)
        ∘ lookedUp s d r actions = isWeighed s d r actions := by
    funext e
    rw [Function.comp_apply, isMoc_lookedUp, isWeighed, Bool.and_comm]
  rw [weighable, List.filter_filter, searched_eq_map, List.filter_map, htest,
    List.map_map]
  rfl

/-- What is not weighed has no file or is generated code. -/
theorem partition_entries_perm (s : Settings) (d : Disk) (r : OrganizeRequest)
    (actions : Actions) :
    (r.entries.filter (isWeighed s d r actions)
        ++ ((survey s d r actions).unresolved
          ++ r.entries.filter (·.isMoc))).Perm r.entries := by
  have hweighed : r.entries.filter (isWeighed s d r actions)
      = (r.entries.filter (!·.isMoc)).filter
          fun e => (lookedUp s d r actions e).isResolved := by
    rw [List.filter_filter]
    refine List.filter_congr fun e _ => ?_
    rw [isWeighed, Bool.and_comm]
  have hunresolved : (survey s d r actions).unresolved
      = (r.entries.filter (!·.isMoc)).filter
          fun e => !(lookedUp s d r actions e).isResolved := by
    rw [unresolved_survey, List.filter_filter]
    refine List.filter_congr fun e _ => ?_
    rw [Bool.and_comm]
  have hmoc := List.filter_append_perm (fun e : Entry => !e.isMoc) r.entries
  simp only [Bool.not_not] at hmoc
  rw [hweighed, hunresolved, ← List.append_assoc]
  exact ((List.filter_append_perm _ _).append_right _).trans hmoc

theorem dropped_append_kept_perm (s : Settings) (d : Disk)
    (r : OrganizeRequest) (actions : Actions) (k : Reduction) :
    let v := survey s d r actions
    (v.repeats ++ v.found.filter (isDropped actions k)
      ++ v.found.filter (!isDropped actions k ·)).Perm
      ((r.entries.filter (isWeighed s d r actions)).map
        (weighedForm s d r actions)) := by
  intro v
  rw [← weighable_eq_map, List.append_assoc]
  refine ((List.filter_append_perm _ _).append_left _).trans ?_
  exact List.perm_append_comm.trans (found_append_repeats_perm s d r actions)

/-- Of what is weighed some entries are dropped, with the repeats, and the
others are kept. -/
theorem exists_weighed_parts (s : Settings) (d : Disk) (r : OrganizeRequest)
    (actions : Actions) (k : Reduction) :
    let v := survey s d r actions
    ∃ dropped kept : List Entry,
      (dropped ++ kept).Perm (r.entries.filter (isWeighed s d r actions))
        ∧ v.repeats ++ v.found.filter (isDropped actions k)
          = dropped.map (weighedForm s d r actions)
        ∧ v.found.filter (!isDropped actions k ·)
          = kept.map (weighedForm s d r actions) := by
  intro v
  obtain ⟨sources, hsources, hperm⟩ :=
    exists_map_of_perm (dropped_append_kept_perm s d r actions k)
  obtain ⟨dropped, kept, rfl, hdropped, hkept⟩ :=
    List.map_eq_append_iff.1 hsources.symm
  exact ⟨dropped, kept, hperm, hdropped.symm, hkept.symm⟩

/-! ## Counterparts in a block that is put in order -/

/-- An entry after the entries of a block got their groups: the old entries of
a block whose lines are kept are as they were. -/
def Regrouped (p : OrderingPolicy) (e e' : Entry) : Prop :=
  e'.ungrouped = e.ungrouped
    ∧ (p.order = .keepCurrent → e.isNew = false → e' = e)

/-- An entry without its group if it is new. -/
def oldGroup (e : Entry) : Entry :=
  if e.isNew then e.ungrouped else e

theorem ungrouped_oldGroup (e : Entry) :
    (oldGroup e).ungrouped = e.ungrouped := by
  rw [oldGroup]
  split <;> rfl

theorem isNew_oldGroup (e : Entry) : (oldGroup e).isNew = e.isNew := by
  rw [oldGroup]
  split <;> rfl

/-- Keeping lines touches the groups of new entries only. -/
theorem keepLines_oldGroup_perm (es : List Entry) :
    ((keepLines es).map oldGroup).Perm (es.map oldGroup) := by
  have hold := Sorting.sortBy_perm (fun a b => lineKey a ≤ lineKey b)
    (es.filter (!·.isNew))
  have hparts : (es.filter (!·.isNew) ++ es.filter (·.isNew)).Perm es := by
    simpa using List.filter_append_perm (fun e : Entry => !e.isNew) es
  have hnew (group : Nat) :
      ((es.filter (·.isNew)).map ({ · with group })).map oldGroup
        = (es.filter (·.isNew)).map oldGroup := by
    rw [List.map_map]
    refine List.map_congr_left fun e he => ?_
    have hnew := (List.mem_filter.1 he).2
    simp [oldGroup, Entry.ungrouped, hnew]
  rw [keepLines, List.map_append, hnew, ← List.map_append]
  exact ((hold.append_right _).trans hparts).map _

theorem arrange_oldGroup_perm {p : OrderingPolicy} (hp : p.order = .keepCurrent)
    (es us : List Entry) :
    ((arrange p es us).map oldGroup).Perm ((es ++ us).map oldGroup) := by
  have harrange : arrange p es us = keepLines (es ++ us) := by
    simp [arrange, OrderingPolicy.apply, hp]
  rw [harrange]
  exact keepLines_oldGroup_perm _

theorem eq_of_oldGroup {e e' : Entry} (h : oldGroup e' = oldGroup e) :
    e'.ungrouped = e.ungrouped ∧ (e.isNew = false → e' = e) := by
  constructor
  · rw [← ungrouped_oldGroup e', h, ungrouped_oldGroup]
  · intro hnew
    have hnew' : e'.isNew = false := by
      rw [← isNew_oldGroup e', h, isNew_oldGroup, hnew]
    simpa [oldGroup, hnew, hnew'] using h

/-- What of an entry stays when a block is put in order. -/
def settledPart (p : OrderingPolicy) (e : Entry) : Entry :=
  if p.order = .keepCurrent then oldGroup e else e.ungrouped

theorem arrange_settledPart_perm (p : OrderingPolicy) (es us : List Entry) :
    ((arrange p es us).map (settledPart p)).Perm
      ((es ++ us).map (settledPart p)) := by
  by_cases hp : p.order = .keepCurrent
  · have hpart : settledPart p = oldGroup := funext fun _ => if_pos hp
    rw [hpart]
    exact arrange_oldGroup_perm hp es us
  · have hpart : settledPart p = Entry.ungrouped := funext fun _ => if_neg hp
    rw [hpart]
    exact arrange_sameEntries p es us

theorem regrouped_of_settledPart {p : OrderingPolicy} {e e' : Entry}
    (h : settledPart p e' = settledPart p e) : Regrouped p e e' := by
  by_cases hp : p.order = .keepCurrent
  · simp only [settledPart, if_pos hp] at h
    exact ⟨(eq_of_oldGroup h).1, fun _ => (eq_of_oldGroup h).2⟩
  · simp only [settledPart, if_neg hp] at h
    exact ⟨h, fun horder => absurd horder hp⟩

theorem forall₂_regrouped {p : OrderingPolicy} {es es' : List Entry}
    (h : es'.map (settledPart p) = es.map (settledPart p)) :
    List.Forall₂ (Regrouped p) es es' :=
  (forall₂_map_eq_iff.2 h.symm).imp fun _ _ heq =>
    regrouped_of_settledPart heq.symm

/-- **Putting a block in order moves its entries and gives them groups**, and
where lines are kept only new entries get one. So the parts of the block can be
found again. -/
theorem exists_regrouped (p : OrderingPolicy) (kept added us : List Entry) :
    ∃ kept' added' us',
      (arrange p (kept ++ added) us).Perm (kept' ++ added' ++ us')
        ∧ List.Forall₂ (Regrouped p) kept kept'
        ∧ List.Forall₂ (Regrouped p) added added'
        ∧ List.Forall₂ (Regrouped p) us us' := by
  obtain ⟨all, hall, hperm⟩ := exists_map_of_perm
    (arrange_settledPart_perm p (kept ++ added) us).symm
  rw [List.map_append, List.map_append] at hall
  obtain ⟨front, us', rfl, hfront, hus⟩ := List.map_eq_append_iff.1 hall.symm
  obtain ⟨kept', added', rfl, hkept, hadded⟩ := List.map_eq_append_iff.1 hfront
  exact ⟨kept', added', us', hperm.symm, forall₂_regrouped hkept,
    forall₂_regrouped hadded, forall₂_regrouped hus⟩

/-! ## Dropped entries -/

/-- Whether an entry gives way to the public header of its file. -/
def givesWay (s : Settings) (d : Disk) (r : OrganizeRequest)
    (actions : Actions) (e : Entry) : Bool :=
  s.preferPublic
    && (Resolution.publicHeader? d (lookedUp s d r actions e).file).isSome

/-- The search touches the file of an entry and nothing else. -/
theorem lookedUp_eq (s : Settings) (d : Disk) (r : OrganizeRequest)
    (actions : Actions) (e : Entry) : lookedUp s d r actions e
      = { e with file := (lookedUp s d r actions e).file } := by
  rw [lookedUp]
  split
  · rw [resolveEntry]
    split
    · split <;> rfl
    · rfl
  · rfl

/-- What is weighed is written as the entry was, unless that gave way to a
public header. -/
theorem weighedForm_eq (e : Entry) : weighedForm s d r actions e
    = { e with
        file := (weighedForm s d r actions e).file
        spelling :=
          if givesWay s d r actions e then "" else e.spelling } := by
  have hlooked := lookedUp_eq s d r actions e
  rw [weighedForm, preferredEntry, givesWay]
  cases hpublic : s.preferPublic with
  | false => simpa using hlooked
  | true =>
      rw [if_pos rfl, preferPublic]
      cases Resolution.publicHeader? d (lookedUp s d r actions e).file with
      | none => simpa using hlooked
      | some header =>
          rw [hlooked]
          rfl

/-- Two spellings make two directives. -/
theorem directive_inj {e e' : Entry} (h : e.isLocal = e'.isLocal) :
    e.directive = e'.directive ↔ e.spelling = e'.spelling := by
  rw [Entry.directive, Entry.directive, h]
  split <;> simp

/-- A dropped entry as the document has it: `e₀` is the entry there and `e` the
one that is told. -/
structure Told (gaveWay : Entry → Bool) (e₀ e : Entry) : Prop where
  isMoc : e₀.isMoc = false
  line : e.line = e₀.line
  isLocal : e.isLocal = e₀.isLocal
  spelling : e.spelling = if gaveWay e₀ then "" else e₀.spelling
  directive : e.directive = e₀.directive
    ↔ gaveWay e₀ = false ∨ e₀.spelling = ""

theorem told_weighedForm {e : Entry} (h : e.isMoc = false) :
    Told (givesWay s d r actions) e (weighedForm s d r actions e) where
  isMoc := h
  line := by rw [weighedForm_eq]
  isLocal := by rw [weighedForm_eq]
  spelling := by rw [weighedForm_eq]
  directive := by
    rw [directive_inj (by rw [weighedForm_eq]), weighedForm_eq]
    cases givesWay s d r actions e with
    | false => simp
    | true => simp

end Organize

namespace Organizer

open Organize

variable (o : Organizer) (d : Disk) (r : OrganizeRequest) (actions : Actions)

/-- **How dropped entries are told.** They come from entries of the request, no
two from one, and have their lines and their quotes or brackets. They have their
spellings, too, unless they gave way to a public header before they were
dropped: then the spelling is empty, and the directive is none of the entry's
unless that had no spelling either. -/
theorem dropped_as_written :
    ∃ sources : List Entry, sources.Subperm r.entries
      ∧ List.Forall₂ (Told (givesWay o.settings d r actions)) sources
          (o.organizeWith d r actions).1.dropped := by
  obtain ⟨dropped, kept, hperm, hdropped, -⟩ :=
    exists_weighed_parts o.settings d r actions
      (weigh o.index d o.settings.policy (survey o.settings d r actions)).1
  have hweighed : dropped.Subperm
      (r.entries.filter (isWeighed o.settings d r actions)) :=
    (List.sublist_append_left dropped kept).subperm.trans hperm.subperm
  refine ⟨dropped, hweighed.trans List.filter_sublist.subperm, ?_⟩
  rw [o.dropped_organizeWith d r actions, hdropped, List.forall₂_map_right_iff,
    List.forall₂_same]
  intro e he
  have htest := (List.mem_filter.1 (hweighed.subset he)).2
  simp only [isWeighed, Bool.and_eq_true, Bool.not_eq_true'] at htest
  exact told_weighedForm htest.1

/-- A document that includes a private header of the framework and needs
nothing. -/
def privateRequest : OrganizeRequest where
  document := ⟨"/d.cpp"⟩
  entries := [.resolved ⟨"/QtCore/qstring.h"⟩ "qstring.h" (some 1) false]

/-- **A dropped entry may be told by a directive that stands nowhere**: it gave
way to a public header first. -/
theorem not_as_written_private :
    let result := (organizeWith ⟨frameworkIndex, {}⟩ framework privateRequest
      .all).1
    privateRequest.entries.map (·.directive) = ["#include <qstring.h>"]
      ∧ result.dropped.map (·.line) = [some 1]
      ∧ result.dropped.map (·.directive) = ["#include <>"] := by
  decide +kernel

end Organizer

/-! ## What a pass may change -/

namespace Organize

/-- What an entry keeps in a pass: `e₀` is the entry of the request and `e` its
counterpart. -/
structure Confined (s : Settings) (r : OrganizeRequest) (actions : Actions)
    (e₀ e : Entry) : Prop where
  origin : e.origin = e₀.origin
  file : e₀.isResolved = true
    ∨ actions.resolve = false ∨ s.searchUnresolved = false →
      e.file = e₀.file
  spelling : actions.rename = false → e₀.spelling ≠ "" →
    e.spelling = e₀.spelling
  isLocal : r.projectRoot.isEmpty = true → e.isLocal = e₀.isLocal
  group : actions.sort = false ∨ s.order = .keepCurrent →
    e₀.isMoc = false → e₀.isNew = false → e.group = e₀.group

namespace Confined

variable {s : Settings} {d : Disk} {r : OrganizeRequest} {actions : Actions}
  {e₀ e e' : Entry}

theorem refl (e : Entry) : Confined s r actions e e where
  origin := rfl
  file := fun _ => rfl
  spelling := fun _ _ => rfl
  isLocal := fun _ => rfl
  group := fun _ _ _ => rfl

theorem weighedForm (hpublic : s.preferPublic = false) (e : Entry) :
    Confined s r actions e (weighedForm s d r actions e) := by
  have hform : Organize.weighedForm s d r actions e
      = lookedUp s d r actions e := by
    simp [Organize.weighedForm, preferredEntry, hpublic]
  have hlooked := lookedUp_eq s d r actions e
  rw [hform]
  refine ⟨origin_lookedUp e, ?_, ?_, ?_, fun _ _ _ => group_lookedUp e⟩
  · rintro (hresolved | hresolve | hsearch)
    · rw [lookedUp_of_isResolved hresolved]
    · simp [lookedUp, hresolve]
    · simp [lookedUp, hsearch]
  · intro _ _
    rw [hlooked]
  · intro _
    rw [hlooked]

theorem spellEntry (h : Confined s r actions e₀ e) (roots : List Path) :
    Confined s r actions e₀ (spellEntry r roots actions.rename e) where
  origin := h.origin
  file := h.file
  spelling := by
    intro hrename hne
    have hkept := h.spelling hrename hne
    have hwritten : ¬ (actions.rename || e.spelling == "") = true := by
      simpa [hrename, hkept] using hne
    show (if actions.rename || e.spelling == "" then _ else e.spelling) = _
    rw [if_neg hwritten, hkept]
  isLocal := by
    intro hroot
    show (if r.projectRoot.isEmpty then e.isLocal else _) = _
    rw [if_pos hroot, h.isLocal hroot]
  group := h.group

theorem regrouped {p : OrderingPolicy}
    (hp : p.order = if actions.sort then s.order else .keepCurrent)
    (h : Confined s r actions e₀ e) (he : Regrouped p e e') :
    Confined s r actions e₀ e' where
  origin := (congrArg Entry.origin he.1).trans h.origin
  file := fun hfile => (congrArg Entry.file he.1).trans (h.file hfile)
  spelling := fun hrename hne =>
    (congrArg Entry.spelling he.1).trans (h.spelling hrename hne)
  isLocal := fun hroot =>
    (congrArg Entry.isLocal he.1).trans (h.isLocal hroot)
  group := by
    intro hkeep hmoc hnew
    have horder : p.order = .keepCurrent := by
      rw [hp]
      split
      · rename_i hsort
        exact hkeep.resolve_left (by simp [hsort])
      · rfl
    have hold : e.isNew = false := (congrArg Prod.snd h.origin).trans hnew
    rw [he.2 horder hold]
    exact h.group hkeep hmoc hnew

theorem moc (hmoc : e.isMoc = true) (group : Nat) :
    Confined s r actions e { e with group } where
  origin := rfl
  file := fun _ => rfl
  spelling := fun _ _ => rfl
  isLocal := fun _ => rfl
  group := by
    intro _ h
    rw [hmoc] at h
    cases h

end Confined

/-- The block of a pass in its parts: what is kept, what is added, and what has
no file. -/
theorem exists_parts_block (s : Settings) (d : Disk) (r : OrganizeRequest)
    (actions : Actions) (v : Survey) (k : Reduction) :
    let p : OrderingPolicy :=
      ⟨if actions.sort then s.order else .keepCurrent, r.projectRoot,
        s.systemRoot⟩
    let spell := spellEntry r (r.spellingRoots d) actions.rename
    ∃ kept added unresolved,
      (block s d r actions v k).Perm (kept ++ added ++ unresolved)
        ∧ List.Forall₂ (fun e₀ e => Regrouped p (spell e₀) e)
            (v.found.filter (!isDropped actions k ·)) kept
        ∧ List.Forall₂ (fun e₀ e => Regrouped p (spell e₀) e)
            (newEntries actions k.add) added
        ∧ List.Forall₂ (Regrouped p) v.unresolved unresolved := by
  intro p spell
  obtain ⟨kept, added, unresolved, hperm, hkept, hadded, hrest⟩ :=
    exists_regrouped p ((v.found.filter (!isDropped actions k ·)).map spell)
      ((newEntries actions k.add).map spell) v.unresolved
  rw [List.forall₂_map_left_iff] at hkept hadded
  refine ⟨kept, added, unresolved, ?_, hkept, hadded, hrest⟩
  rw [← List.map_append] at hperm
  exact hperm

section NewEntries

variable {p : OrderingPolicy} {files : FileSet} {roots : List Path}
  {rename : Bool} {added : List Entry}

/-- What new entries turn into is new. -/
theorem origin_of_newEntries
    (h : List.Forall₂ (fun e₀ e => Regrouped p (spellEntry r roots rename e₀) e)
      (newEntries actions files) added) :
    ∀ e ∈ added, e.origin = (none, true) := by
  have horigins : added.map Entry.origin
      = (newEntries actions files).map Entry.origin := by
    refine (forall₂_map_eq_iff.1 (h.imp fun e₀ e h => ?_)).symm
    exact (congrArg Entry.origin h.1).symm
  intro e he
  have hmem := List.mem_map_of_mem (f := Entry.origin) he
  rw [horigins, newEntries] at hmem
  split at hmem
  · rw [List.map_map] at hmem
    obtain ⟨f, -, hf⟩ := List.mem_map.1 hmem
    exact hf.symm
  · cases hmem

theorem eq_nil_of_newEntries (hadd : actions.add = false)
    (h : List.Forall₂ (fun e₀ e => Regrouped p (spellEntry r roots rename e₀) e)
      (newEntries actions files) added) : added = [] := by
  have hnone : newEntries actions files = [] := by simp [newEntries, hadd]
  rw [hnone] at h
  exact List.forall₂_nil_left_iff.1 h

end NewEntries

end Organize

namespace Organizer

open Organize

variable (o : Organizer) (d : Disk) (r : OrganizeRequest) (actions : Actions)

/-- **Each action confines its effect** in a pass that does not prefer public
headers. Every entry of the request has a counterpart, which is dropped or in
the new block, and nothing else is but what was added: without removing nothing
is dropped, and without adding nothing is added. A counterpart differs from its
entry in what the actions allow (`Confined`). -/
theorem confined_organizeWith (x : Index) (settings : Settings) (d : Disk)
    (r : OrganizeRequest) (actions : Actions) :
    let s := { settings with preferPublic := false }
    let result := (organizeWith ⟨x, s⟩ d r actions).1
    ∃ counterparts added : List Entry,
      List.Forall₂ (Confined s r actions) r.entries counterparts
        ∧ (result.dropped ++ result.entries).Perm (counterparts ++ added)
        ∧ (∀ e ∈ added, e.origin = (none, true))
        ∧ (actions.add = false → added = [])
        ∧ (actions.remove = false → result.dropped = []) := by
  intro s result
  let o : Organizer := ⟨x, s⟩
  let v := survey s d r actions
  let k := (weigh x d s.policy v).1
  obtain ⟨dropped, kept, hparts, hdropped, hkept⟩ :=
    exists_weighed_parts s d r actions k
  obtain ⟨kept', added, unresolved, hblock, hold, hnew, hrest⟩ :=
    exists_parts_block s d r actions v k
  rw [show v.found.filter (!isDropped actions k ·) = _ from hkept,
    List.forall₂_map_left_iff] at hold
  have hresult : result.dropped = dropped.map (weighedForm s d r actions) :=
    (o.dropped_organizeWith d r actions).trans hdropped
  let mocs := r.entries.filter (·.isMoc)
  obtain ⟨mocs', hentries, hmocs⟩ : ∃ mocs',
      result.entries = block s d r actions v k ++ mocs'
        ∧ List.Forall₂ (Confined s r actions) mocs mocs' := by
    refine ⟨_, o.entries_organizeWith d r actions, ?_⟩
    rw [List.forall₂_map_right_iff, List.forall₂_same]
    exact fun e he => .moc (List.mem_filter.1 he).2 _
  -- the parts of the request and what becomes of them
  have hall : List.Forall₂ (Confined s r actions)
      ((dropped ++ kept) ++ (v.unresolved ++ mocs))
      ((result.dropped ++ kept') ++ (unresolved ++ mocs')) := by
    refine List.rel_append (List.rel_append ?_ ?_) (List.rel_append ?_ hmocs)
    · rw [hresult, List.forall₂_map_right_iff, List.forall₂_same]
      exact fun e _ => .weighedForm rfl e
    · exact hold.imp fun e _ h =>
        ((Confined.weighedForm rfl e).spellEntry _).regrouped rfl h
    · exact hrest.imp fun e _ h => (Confined.refl e).regrouped rfl h
  have hrequest : ((dropped ++ kept) ++ (v.unresolved ++ mocs)).Perm r.entries :=
    (hparts.append_right _).trans (partition_entries_perm s d r actions)
  obtain ⟨counterparts, hconfined, hperm⟩ :=
    List.perm_comp_forall₂ hrequest.symm hall
  refine ⟨counterparts, added, hconfined, ?_, origin_of_newEntries hnew,
    fun hadd => eq_nil_of_newEntries hadd hnew,
    o.dropped_of_not_remove d r actions⟩
  refine List.perm_iff_count.2 fun e => ?_
  have hblock := hblock.count_eq e
  have hperm := hperm.count_eq e
  rw [hentries]
  simp only [List.count_append] at hblock hperm ⊢
  omega

end Organizer

end IncludeBlock
