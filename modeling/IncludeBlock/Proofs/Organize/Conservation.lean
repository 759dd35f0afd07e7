import IncludeBlock.Proofs.Organize.Provision

/-!
# No line is lost

A pass parts the entries of a document again and again: generated code, entries
without a file, repeats, dropped entries, and new ones come in between. Each
part is a filter of what was there before, so the parts together are what was
there (`found_append_repeats_perm`, `traits_weighable`), and no step touches the
line of an entry. In the end every line is in the new block or among what is
dropped, and once.
-/

namespace IncludeBlock

/-- Where an entry comes from: its line, and whether it was added. -/
def Entry.origin (e : Entry) : Option Nat × Bool :=
  (e.line, e.isNew)

namespace Organize

variable {s : Settings} {d : Disk} {r : OrganizeRequest} {actions : Actions}

/-! ## The search -/

/-- What a pass makes of an entry before it weighs anything. -/
def lookedUp (s : Settings) (d : Disk) (r : OrganizeRequest)
    (actions : Actions) (e : Entry) : Entry :=
  if actions.resolve && s.searchUnresolved then
    resolveEntry d (r.spellingRoots d) e
  else e

theorem searched_eq_map :
    searched s d r actions = r.entries.map (lookedUp s d r actions) := by
  have hid : ∀ b : Bool, ∀ f : Entry → Entry,
      (if b then r.entries.map f else r.entries)
        = r.entries.map fun e => if b then f e else e := by
    intro b f
    cases b <;> simp
  rw [searched]
  exact hid _ _

theorem origin_resolveEntry (roots : List Path) (e : Entry) :
    (resolveEntry d roots e).origin = e.origin := by
  rw [resolveEntry]
  split
  · split <;> rfl
  · rfl

theorem origin_lookedUp (e : Entry) :
    (lookedUp s d r actions e).origin = e.origin := by
  rw [lookedUp]
  split
  · exact origin_resolveEntry _ e
  · rfl

theorem isMoc_lookedUp (e : Entry) :
    (lookedUp s d r actions e).isMoc = e.isMoc := by
  rw [lookedUp]
  split
  · exact isMoc_resolveEntry _ e
  · rfl

/-- An entry without a file has none by the search, or is as it was. -/
theorem resolveEntry_of_not_isResolved (roots : List Path) {e : Entry}
    (h : (resolveEntry d roots e).isResolved = false) :
    resolveEntry d roots e = e := by
  rw [resolveEntry] at h ⊢
  split
  · rename_i hsearch
    rw [if_pos hsearch] at h
    split
    · rename_i file hfile
      simp only [Bool.and_eq_true, Bool.not_eq_true'] at hsearch
      simp only [hfile] at h
      -- both files are the empty path
      have hold : e.file = Path.empty :=
        Path.eq_empty_of_isEmpty (by simpa [Entry.isResolved] using hsearch.1.1)
      have hnew : file = Path.empty :=
        Path.eq_empty_of_isEmpty (by simpa [Entry.isResolved] using h)
      rw [hnew, ← hold]
    · rfl
  · rfl

theorem lookedUp_of_not_isResolved {e : Entry}
    (h : (lookedUp s d r actions e).isResolved = false) :
    lookedUp s d r actions e = e := by
  rw [lookedUp] at h ⊢
  split
  · rename_i hsearch
    rw [if_pos hsearch] at h
    exact resolveEntry_of_not_isResolved _ h
  · rfl

/-! ## The parts of a block -/

theorem unresolved_survey : (survey s d r actions).unresolved
    = r.entries.filter fun e =>
        !e.isMoc && !(lookedUp s d r actions e).isResolved := by
  show ((searched s d r actions).filter (!·.isMoc)).filter (!·.isResolved) = _
  rw [List.filter_filter, searched_eq_map, List.filter_map]
  have htest : ((fun e : Entry => !e.isResolved && !e.isMoc)
        ∘ lookedUp s d r actions)
      = fun e => !e.isMoc && !(lookedUp s d r actions e).isResolved := by
    funext e
    rw [Function.comp_apply, isMoc_lookedUp, Bool.and_comm]
  rw [htest]
  refine (List.map_congr_left fun e he => ?_).trans (List.map_id _)
  have hn := (List.mem_filter.1 he).2
  simp only [Bool.and_eq_true, Bool.not_eq_true'] at hn
  exact lookedUp_of_not_isResolved hn.2

/-- The entry that takes the place of one with a file: the one of its public
header, where that is preferred. -/
def preferredEntry (s : Settings) (d : Disk) (e : Entry) : Entry :=
  if s.preferPublic then preferPublic d e else e

theorem origin_preferredEntry (e : Entry) :
    (preferredEntry s d e).origin = e.origin := by
  rw [preferredEntry]
  split
  · rw [preferPublic]
    split <;> rfl
  · rfl

theorem file_preferredEntry (s : Settings) (d : Disk) (e : Entry) :
    (preferredEntry s d e).file = preferredForm d s e.file := by
  rw [preferredEntry, preferredForm]
  split
  · rw [preferPublic, Resolution.publicForm]
    cases Resolution.publicHeader? d e.file <;> rfl
  · rfl

/-- A preferred entry has a file, and its spelling is that of no generated
code: it is the old one, or still to come. -/
theorem preferredEntry_spec {e : Entry} (hresolved : e.isResolved = true)
    (hmoc : e.isMoc = false) :
    (preferredEntry s d e).isResolved = true
      ∧ (preferredEntry s d e).isMoc = false := by
  rw [preferredEntry]
  split
  · rw [preferPublic]
    split
    · rename_i header hheader
      refine ⟨?_, rfl⟩
      simp [Entry.isResolved, Resolution.isEmpty_of_publicHeader? hheader]
    · exact ⟨hresolved, hmoc⟩
  · exact ⟨hresolved, hmoc⟩

/-- The entries that a pass weighs, with those that say the same. -/
def weighable (s : Settings) (d : Disk) (r : OrganizeRequest)
    (actions : Actions) : List Entry :=
  (((searched s d r actions).filter (!·.isMoc)).filter (·.isResolved)).map
    (preferredEntry s d)

theorem mem_weighable {e : Entry} (he : e ∈ weighable s d r actions) :
    e.isResolved = true ∧ e.isMoc = false
      ∧ ∃ e₀ ∈ r.entries, e₀.isMoc = false
        ∧ (lookedUp s d r actions e₀).isResolved = true
        ∧ e = preferredEntry s d (lookedUp s d r actions e₀) := by
  obtain ⟨e₁, he₁, rfl⟩ := List.mem_map.1 he
  obtain ⟨hplain, hresolved⟩ := List.mem_filter.1 he₁
  obtain ⟨hsearched, hmoc⟩ := List.mem_filter.1 hplain
  rw [searched_eq_map] at hsearched
  obtain ⟨e₀, he₀, rfl⟩ := List.mem_map.1 hsearched
  rw [Bool.not_eq_true'] at hmoc
  obtain ⟨hresolved', hmoc'⟩ :=
    preferredEntry_spec (s := s) (d := d) hresolved hmoc
  exact ⟨hresolved', hmoc', e₀, he₀, isMoc_lookedUp e₀ ▸ hmoc, hresolved, rfl⟩

theorem splitRepeated_perm (es : List Entry) (seen : FileSet) :
    ((splitRepeated seen es).1 ++ (splitRepeated seen es).2).Perm es := by
  induction es generalizing seen with
  | nil => exact List.Perm.refl _
  | cons e es ih =>
      rw [splitRepeated]
      split
      · exact List.perm_middle.trans ((ih seen).cons e)
      · exact (ih (seen.insert e.file)).cons e

/-- What is weighed and what is set aside as a repeat. -/
theorem parts_survey (s : Settings) (d : Disk) (r : OrganizeRequest)
    (actions : Actions) :
    ((survey s d r actions).found, (survey s d r actions).repeats)
      = if actions.remove then splitRepeated ∅ (weighable s d r actions)
        else (weighable s d r actions, []) := by
  have hweighable :
      (if s.preferPublic then
        (((searched s d r actions).filter (!·.isMoc)).filter
          (·.isResolved)).map (preferPublic d)
      else ((searched s d r actions).filter (!·.isMoc)).filter (·.isResolved))
        = weighable s d r actions := by
    rw [weighable]
    cases h : s.preferPublic with
    | false =>
        have hid : preferredEntry s d = id := by
          funext e
          simp [preferredEntry, h]
        simp [hid]
    | true =>
        have hprefer : preferredEntry s d = preferPublic d := by
          funext e
          simp [preferredEntry, h]
        simp [hprefer]
  dsimp only [survey]
  rw [hweighable]

/-- **Finding repeats loses nothing.** -/
theorem found_append_repeats_perm (s : Settings) (d : Disk)
    (r : OrganizeRequest) (actions : Actions) :
    let v := survey s d r actions
    (v.found ++ v.repeats).Perm (weighable s d r actions) := by
  intro v
  show ((v.found, v.repeats).1 ++ (v.found, v.repeats).2).Perm _
  rw [show (v.found, v.repeats) = _ from parts_survey s d r actions]
  split
  · exact splitRepeated_perm _ ∅
  · rw [List.append_nil]

theorem isResolved_of_mem_found {e : Entry}
    (he : e ∈ (survey s d r actions).found) : e.isResolved = true :=
  (mem_weighable ((found_append_repeats_perm s d r actions).mem_iff.1
    (List.mem_append_left _ he))).1

/-- **The parts of a survey are what was there.** A trait of entries that the
choice of public headers does not touch is enough to see it. -/
theorem traits_survey {β : Type} (s : Settings) (d : Disk)
    (r : OrganizeRequest) (actions : Actions) (trait : Entry → β)
    (hprefer : ∀ e, trait (preferredEntry s d e) = trait e) :
    let v := survey s d r actions
    ((weighable s d r actions ++ v.unresolved ++ v.moc).map trait).Perm
      ((searched s d r actions).map trait) := by
  intro v
  let es := searched s d r actions
  have hweighable : (weighable s d r actions).map trait
      = ((es.filter (!·.isMoc)).filter (·.isResolved)).map trait := by
    rw [weighable, List.map_map]
    exact List.map_congr_left fun e _ => hprefer e
  have hplain :
      ((weighable s d r actions ++ v.unresolved).map trait).Perm
        ((es.filter (!·.isMoc)).map trait) := by
    rw [List.map_append, hweighable, ← List.map_append]
    exact (List.filter_append_perm (fun e : Entry => e.isResolved) _).map _
  rw [List.map_append]
  refine (hplain.append_right _).trans ?_
  rw [← List.map_append]
  have hmoc := List.filter_append_perm (fun e : Entry => !e.isMoc) es
  simp only [Bool.not_not] at hmoc
  exact hmoc.map _

/-! ## The new block -/

/-- The entries of a block that are written anew. -/
def written (s : Settings) (d : Disk) (r : OrganizeRequest) (actions : Actions)
    (k : Reduction) : List Entry :=
  (revised actions (survey s d r actions) k).map
    (spellEntry r (r.spellingRoots d) actions.rename)

theorem appendMoc_sameEntries (block moc : List Entry) :
    SameEntries (appendMoc block moc) (block ++ moc) := by
  rw [SameEntries, appendMoc, List.map_append, List.map_append]
  exact (sameEntries_regroup _ _).append_left _

/-- The entries that are made for the files to add, where that is allowed. -/
def newEntries (actions : Actions) (files : FileSet) : List Entry :=
  if actions.add then files.toList.map Entry.synthesized else []

theorem files_newEntries (actions : Actions) (files : FileSet) :
    (newEntries actions files).map (·.file)
      = if actions.add then files.toList else [] := by
  rw [newEntries]
  split
  · rw [List.map_map]
    exact List.map_id _
  · rfl

/-- Dropping and adding loses nothing but makes an entry for each new file. -/
theorem revised_perm (actions : Actions) (v : Survey) (k : Reduction) :
    (v.found.filter (isDropped actions k) ++ revised actions v k).Perm
      (v.found ++ newEntries actions k.add) := by
  rw [revised, ← List.append_assoc]
  exact (List.filter_append_perm (isDropped actions k) _).append_right _

theorem origin_spellEntry (roots : List Path) (rename : Bool) (e : Entry) :
    (spellEntry r roots rename e).origin = e.origin := rfl

end Organize

namespace Organizer

open Organize

variable (o : Organizer) (d : Disk) (r : OrganizeRequest) (actions : Actions)

/-- The files to add by a pass. -/
def addedFiles : FileSet :=
  (weigh o.index d o.settings.policy (survey o.settings d r actions)).1.add

/-- The new block up to order and groups. -/
theorem entries_sameEntries :
    let v := survey o.settings d r actions
    let k := (weigh o.index d o.settings.policy v).1
    SameEntries (o.organizeWith d r actions).1.entries
      (written o.settings d r actions k
        ++ (v.unresolved ++ r.entries.filter (·.isMoc))) := by
  intro v k
  rw [entries_organizeWith, ← List.append_assoc]
  refine (appendMoc_sameEntries _ _).trans ?_
  rw [SameEntries, List.map_append, List.map_append]
  exact (arrange_sameEntries _ _ _).append_right _

theorem isResolved_of_mem_written {e : Entry}
    (he : e ∈ written o.settings d r actions
      (weigh o.index d o.settings.policy
        (survey o.settings d r actions)).1) : e.isResolved = true := by
  obtain ⟨e₀, he₀, rfl⟩ := List.mem_map.1 he
  show e₀.isResolved = true
  rcases List.mem_append.1 he₀ with hold | hnew
  · exact isResolved_of_mem_found (List.mem_filter.1 hold).1
  · split at hnew
    · obtain ⟨f, hf, rfl⟩ := List.mem_map.1 hnew
      rw [weigh_eq, ← FileSet.mem_def, FileSet.mem_diff] at hf
      -- it is accepted and no entry has it, so it is one of the needs
      rcases Cover.mem_or_mem_of_mem_wanted hf.1 with h | h
      · exact absurd h hf.2
      · simp [Entry.isResolved, Entry.synthesized, (Survey.mem_needs.1 h).2]
    · cases hnew

theorem dropped_organizeWith :
    let v := survey o.settings d r actions
    let k := (weigh o.index d o.settings.policy v).1
    (o.organizeWith d r actions).1.dropped
      = v.repeats ++ v.found.filter (isDropped actions k) := by
  unfold organizeWith
  dsimp only

/-- **What a pass weighs is dropped or in the new block**, where nothing else is
but new entries and what was set aside. A trait of entries that neither groups
nor spellings touch is enough to see it. -/
theorem traits_weighable {β : Type} [DecidableEq β]
    (trait : Entry → β) (hgroup : ∀ e, trait e.ungrouped = trait e)
    (hspell : ∀ e, trait (spellEntry r (r.spellingRoots d) actions.rename e)
      = trait e) :
    (((o.organizeWith d r actions).1.dropped
        ++ (o.organizeWith d r actions).1.entries).map trait).Perm
      ((weighable o.settings d r actions
        ++ newEntries actions (o.addedFiles d r actions)
        ++ ((survey o.settings d r actions).unresolved
          ++ r.entries.filter (·.isMoc))).map trait) := by
  have hblock := (o.entries_sameEntries d r actions).map_perm hgroup
  have hparts := (found_append_repeats_perm o.settings d r actions).map trait
  have hrevised := (revised_perm actions (survey o.settings d r actions)
    (weigh o.index d o.settings.policy
      (survey o.settings d r actions)).1).map trait
  have hwritten (es : List Entry) :
      (es.map (spellEntry r (r.spellingRoots d) actions.rename)).map trait
        = es.map trait := by
    rw [List.map_map]
    exact List.map_congr_left fun e _ => hspell e
  rw [List.map_append, written, hwritten] at hblock
  rw [o.dropped_organizeWith d r actions, addedFiles]
  generalize survey o.settings d r actions = v at *
  generalize (weigh o.index d o.settings.policy v).1 = k at *
  refine List.perm_iff_count.2 fun a => ?_
  have hblock := hblock.count_eq a
  have hparts := hparts.count_eq a
  have hrevised := hrevised.count_eq a
  simp only [List.map_append, List.count_append] at hblock hparts hrevised ⊢
  omega

/-- **Every entry is dropped or in the new block**, and no other is but those
that were added. A trait of entries that neither groups nor spellings nor the
choice of public headers touch is enough to see it. -/
theorem traits_dropped_append_entries {β : Type} [DecidableEq β]
    (trait : Entry → β) (hgroup : ∀ e, trait e.ungrouped = trait e)
    (hprefer : ∀ e, trait (preferredEntry o.settings d e) = trait e)
    (hspell : ∀ e, trait (spellEntry r (r.spellingRoots d) actions.rename e)
      = trait e) :
    (((o.organizeWith d r actions).1.dropped
        ++ (o.organizeWith d r actions).1.entries).map trait).Perm
      ((searched o.settings d r actions
        ++ newEntries actions (o.addedFiles d r actions)).map trait) := by
  have hparts := traits_survey o.settings d r actions trait hprefer
  dsimp only at hparts
  rw [moc_survey] at hparts
  refine (o.traits_weighable d r actions trait hgroup hspell).trans ?_
  refine List.perm_iff_count.2 fun a => ?_
  have hparts := hparts.count_eq a
  simp only [List.map_append, List.count_append] at hparts ⊢
  omega

theorem origins_dropped_append_entries :
    (((o.organizeWith d r actions).1.dropped
        ++ (o.organizeWith d r actions).1.entries).map Entry.origin).Perm
      (r.entries.map Entry.origin
        ++ if actions.add then
            (o.addedFiles d r actions).toList.map fun _ => (none, true)
          else []) := by
  refine (o.traits_dropped_append_entries d r actions Entry.origin
    (fun _ => rfl) origin_preferredEntry (origin_spellEntry _ _)).trans
    (List.Perm.of_eq ?_)
  have hsearched : (searched o.settings d r actions).map Entry.origin
      = r.entries.map Entry.origin := by
    rw [searched_eq_map, List.map_map]
    exact List.map_congr_left fun e _ => origin_lookedUp e
  rw [List.map_append, hsearched, newEntries]
  split
  · rw [List.map_map]
    rfl
  · rfl

/-- **A pass loses no entry and doubles none.** The entries of the new block
and the dropped ones come from those of the document, one from each, and from
the files to add where that is allowed. Without removing nothing is dropped.
The entries that have no file after the search are told as they were, and they
and those of generated code are in the new block, where all others have a file.
What is dropped is neither. -/
theorem origins_organizeWith (o : Organizer) (d : Disk) (r : OrganizeRequest)
    (actions : Actions) :
    let result := (o.organizeWith d r actions).1
    let lookedUp := lookedUp o.settings d r actions
    let preferred := preferredEntry o.settings d
    ((result.dropped ++ result.entries).map Entry.origin).Perm
        (r.entries.map Entry.origin
          ++ if actions.add then
              (o.addedFiles d r actions).toList.map fun _ => (none, true)
            else [])
      ∧ (actions.remove = false → result.dropped = [])
      ∧ result.unresolved
          = r.entries.filter (fun e => !e.isMoc && !(lookedUp e).isResolved)
      ∧ (∃ rest, SameEntries result.entries
            (rest ++ (result.unresolved ++ r.entries.filter (·.isMoc)))
          ∧ ∀ e ∈ rest, e.isResolved = true)
      ∧ ∀ e ∈ result.dropped, e.isMoc = false ∧ e.isResolved = true
          ∧ ∃ e₀ ∈ r.entries, e₀.isMoc = false
            ∧ (lookedUp e₀).isResolved = true
            ∧ e = preferred (lookedUp e₀) := by
  intro result lookedUp preferred
  let v := survey o.settings d r actions
  let k := (weigh o.index d o.settings.policy v).1
  have hdropped : result.dropped
      = v.repeats ++ v.found.filter (isDropped actions k) :=
    o.dropped_organizeWith d r actions
  have hentries := o.entries_sameEntries d r actions
  refine ⟨?_, ?_, unresolved_survey, ?_, ?_⟩
  · exact o.origins_dropped_append_entries d r actions
  · intro hremove
    have hrepeats : v.repeats = [] := by
      show (survey o.settings d r actions).repeats = []
      simp [survey, hremove]
    rw [hdropped, hrepeats]
    simp [isDropped, hremove]
  · exact ⟨_, hentries, fun e he => o.isResolved_of_mem_written d r actions he⟩
  · intro e he
    have hweighable : e ∈ weighable o.settings d r actions := by
      refine (found_append_repeats_perm o.settings d r actions).mem_iff.1 ?_
      rw [hdropped] at he
      rcases List.mem_append.1 he with h | h
      · exact List.mem_append_right _ h
      · exact List.mem_append_left _ (List.mem_filter.1 h).1
    obtain ⟨hresolved, hmoc, horigin⟩ := mem_weighable hweighable
    exact ⟨hmoc, hresolved, horigin⟩

end Organizer

end IncludeBlock
