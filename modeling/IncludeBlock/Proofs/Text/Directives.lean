import IncludeBlock.Proofs.Organize.Directives
import Mathlib.Data.List.TakeWhile

/-!
# Directives that are read back

A line holds a directive exactly if it can be cut into the parts of one
(`ofLine?_eq_some_iff`). The spelling that is read has no blanks at its ends, no
line break and nothing that closes a spelling, so a directive that was read is
read again from a line that is written for it. Blank lines are no directives:
a block is read back whatever its groups are (`parse_renderBlock`).
-/

namespace IncludeBlock

namespace Text

theorem mem_of_mem_trimChars {c : Char} {cs : List Char}
    (h : c ∈ trimChars cs) : c ∈ cs := by
  have hback : c ∈ (cs.dropWhile isBlank).reverse :=
    List.dropWhile_subset _ (List.mem_reverse.1 h)
  exact List.dropWhile_subset _ (List.mem_reverse.1 hback)

end Text

namespace Directive

variable {line cs body rest : List Char} {c : Char} {s : String}
  {d : Directive}

/-! ## The parts of a line -/

/-- The character that opens a spelling. -/
def opening (d : Directive) : Char :=
  if d.isQuoted then '"' else '<'

/-- The parts of a line that holds a directive. -/
structure Parts (line : List Char) (d : Directive) where
  indent : List Char
  afterHash : List Char
  afterWord : List Char
  /-- The spelling as it is written, with blanks at its ends. -/
  body : List Char
  closing : Char
  rest : List Char
  line_eq : line = indent ++ '#' :: (afterHash ++ ("include".toList
    ++ (afterWord ++ d.opening :: (body ++ closing :: rest))))
  gaps : ∀ c ∈ indent ++ afterHash ++ afterWord, isGap c = true
  body_ne : body ≠ []
  not_isClosing : ∀ c ∈ body, isClosing c = false
  isClosing : isClosing closing = true
  spelling_eq : d.spelling = String.ofList (Text.trimChars body)

theorem afterWord?_eq_some_iff {word : List Char} :
    afterWord? word cs = some rest ↔ cs = word ++ rest := by
  rw [afterWord?]
  constructor
  · intro h
    split at h
    · rename_i hprefix
      cases h
      exact (List.prefix_iff_eq_append.1
        (List.isPrefixOf_iff_prefix.1 hprefix)).symm
    · cases h
  · rintro rfl
    rw [if_pos (List.isPrefixOf_iff_prefix.2 (List.prefix_append _ _)),
      List.drop_left]

/-- A spelling is what stands before the first character that closes it. -/
theorem spelling?_eq_some_iff : spelling? cs = some s
    ↔ ∃ body closing rest, cs = body ++ closing :: rest ∧ body ≠ []
      ∧ (∀ c ∈ body, isClosing c = false) ∧ isClosing closing = true
      ∧ s = String.ofList (Text.trimChars body) := by
  constructor
  · intro h
    simp only [spelling?, Option.ite_none_left_eq_some, not_or,
      Option.some.injEq] at h
    obtain ⟨⟨hbody, hrest⟩, rfl⟩ := h
    obtain ⟨closing, rest, hclosing⟩ := List.exists_cons_of_ne_nil hrest
    refine ⟨_, closing, rest, ?_, hbody, ?_, ?_, rfl⟩
    · rw [← hclosing, List.takeWhile_append_dropWhile]
    · intro c hc
      simpa using List.mem_takeWhile_imp hc
    · have hhead := List.head?_dropWhile_not (!isClosing ·) cs
      rw [hclosing] at hhead
      simpa using hhead
  · rintro ⟨body, closing, rest, rfl, hbody, hplain, hclosing, rfl⟩
    have hall : ∀ c ∈ body, (!isClosing c) = true := by
      simpa using hplain
    rw [spelling?, List.takeWhile_append_of_pos hall,
      List.dropWhile_append_of_pos hall]
    simp [hbody, hclosing]

/-- What stands behind the gap in front of a text. -/
theorem dropWhile_isGap_eq_iff (hc : isGap c = false) :
    cs.dropWhile isGap = c :: rest
      ↔ ∃ gap, cs = gap ++ c :: rest ∧ ∀ g ∈ gap, isGap g = true := by
  constructor
  · intro h
    refine ⟨cs.takeWhile isGap, ?_, fun g hg => List.mem_takeWhile_imp hg⟩
    rw [← h, List.takeWhile_append_dropWhile]
  · rintro ⟨gap, rfl, hgap⟩
    rw [List.dropWhile_append_of_pos hgap,
      List.dropWhile_cons_of_neg (by simp [hc])]

theorem isGap_opening (d : Directive) : isGap d.opening = false := by
  rw [opening]
  split <;> rfl

/-- What stands behind the word of a directive. -/
theorem quoted_or_bracketed_iff :
    (match cs.dropWhile isGap with
      | '"' :: cs => (spelling? cs).map (⟨·, true⟩)
      | '<' :: cs => (spelling? cs).map (⟨·, false⟩)
      | _ => none) = some d
    ↔ ∃ rest, cs.dropWhile isGap = d.opening :: rest
      ∧ spelling? rest = some d.spelling := by
  obtain ⟨s, isQuoted⟩ := d
  split
  · rename_i rest h
    cases isQuoted <;> simp [opening, h]
  · rename_i rest h
    cases isQuoted <;> simp [opening, h]
  · rename_i hquote hbracket
    refine ⟨nofun, ?_⟩
    rintro ⟨rest, h, -⟩
    cases isQuoted with
    | true => exact absurd h (hquote rest)
    | false => exact absurd h (hbracket rest)

/-- **A line holds a directive exactly if it has the parts of one.** -/
theorem ofLine?_eq_some_iff :
    ofLine? line = some d ↔ Nonempty (Parts line d) := by
  have hword : "include".toList = 'i' :: "nclude".toList := rfl
  simp only [ofLine?, Option.bind_eq_bind, Option.bind_eq_some_iff,
    afterWord?_eq_some_iff, List.singleton_append]
  constructor
  · rintro ⟨behindHash, hhash, behindWord, hinclude, hmatch⟩
    obtain ⟨behindQuote, hquote, hs⟩ := quoted_or_bracketed_iff.1 hmatch
    obtain ⟨indent, rfl, hindent⟩ := (dropWhile_isGap_eq_iff rfl).1 hhash
    rw [hword, List.cons_append] at hinclude
    obtain ⟨afterHash, rfl, hafterHash⟩ :=
      (dropWhile_isGap_eq_iff rfl).1 hinclude
    obtain ⟨afterWord, rfl, hafterWord⟩ :=
      (dropWhile_isGap_eq_iff (isGap_opening d)).1 hquote
    obtain ⟨body, closing, rest, rfl, hbody, hplain, hclosing, hspelling⟩ :=
      spelling?_eq_some_iff.1 hs
    refine ⟨⟨indent, afterHash, afterWord, body, closing, rest, ?_, ?_, hbody,
      hplain, hclosing, hspelling⟩⟩
    · rw [hword, List.cons_append]
    · simp only [List.mem_append]
      rintro c ((hc | hc) | hc)
      · exact hindent c hc
      · exact hafterHash c hc
      · exact hafterWord c hc
  · rintro ⟨indent, afterHash, afterWord, body, closing, rest, rfl, hgaps,
      hbody, hplain, hclosing, hspelling⟩
    simp only [List.forall_mem_append] at hgaps
    rw [hword, List.cons_append]
    refine ⟨_, (dropWhile_isGap_eq_iff rfl).2 ⟨indent, rfl, hgaps.1.1⟩, _,
      (dropWhile_isGap_eq_iff rfl).2 ⟨afterHash, rfl, hgaps.1.2⟩, ?_⟩
    refine quoted_or_bracketed_iff.2 ⟨_,
      (dropWhile_isGap_eq_iff (isGap_opening d)).2 ⟨afterWord, rfl, hgaps.2⟩,
      ?_⟩
    exact spelling?_eq_some_iff.2
      ⟨body, closing, rest, rfl, hbody, hplain, hclosing, hspelling⟩

/-! ## Spellings that can be read -/

/-- A spelling that a directive is read with. -/
structure IsSpelling (s : String) : Prop where
  isClosing : ∀ c ∈ s.toList, isClosing c = false
  line : '\n' ∉ s.toList
  trimmed : Text.trimChars s.toList = s.toList

/-- **What is read is trimmed, and nothing in it ends a spelling or a line.** -/
theorem isSpelling_of_mem_parse {text : List Char} (h : d ∈ parse text) :
    IsSpelling d.spelling := by
  obtain ⟨line, hline, hd⟩ := List.mem_filterMap.1 h
  obtain ⟨parts⟩ := ofLine?_eq_some_iff.1 hd
  have hbody : ∀ c ∈ Text.trimChars parts.body, c ∈ parts.body :=
    fun c hc => Text.mem_of_mem_trimChars hc
  rw [parts.spelling_eq]
  refine ⟨?_, ?_, ?_⟩
  · rw [String.toList_ofList]
    exact fun c hc => parts.not_isClosing c (hbody c hc)
  · rw [String.toList_ofList]
    intro hbreak
    refine Text.not_mem_of_mem_pieces hline ?_
    rw [parts.line_eq]
    simp [hbody _ hbreak]
  · rw [String.toList_ofList, Text.trimChars_trimChars]

end Directive

/-! ## Blocks -/

namespace Directive

variable {line rest : List Char} {e : Entry} {es : List Entry}

/-- The closing character that fits the opening one. -/
def closingFor (d : Directive) : Char :=
  if d.isQuoted then '"' else '>'

theorem toList_directive (e : Entry) : e.directive.toList
    = '#' :: ("include".toList ++ ' ' :: e.asDirective.opening
      :: (e.spelling.toList ++ [e.asDirective.closingFor])) := by
  rw [Entry.directive]
  cases h : e.isLocal <;>
    simp [Entry.asDirective, opening, closingFor, h]

/-- A directive that was read is read again from the line of its entry. -/
theorem ofLine?_directive (h : IsSpelling e.spelling) (hne : e.spelling ≠ "") :
    ofLine? e.directive.toList = some e.asDirective :=
  ofLine?_eq_some_iff.2 ⟨{
    indent := []
    afterHash := []
    afterWord := [' ']
    body := e.spelling.toList
    closing := e.asDirective.closingFor
    rest := []
    line_eq := toList_directive e
    gaps := by simp [isGap]
    body_ne := by simpa using hne
    not_isClosing := h.isClosing
    isClosing := by
      rw [closingFor]
      split <;> rfl
    spelling_eq := by rw [h.trimmed, String.ofList_toList]; rfl }⟩

theorem not_mem_directive (h : IsSpelling e.spelling) :
    '\n' ∉ e.directive.toList := by
  have hopening : e.asDirective.opening ≠ '\n' := by
    rw [opening]
    split <;> decide
  have hclosing : e.asDirective.closingFor ≠ '\n' := by
    rw [closingFor]
    split <;> decide
  rw [toList_directive]
  simp [h.line, hopening.symm, hclosing.symm]

theorem parse_append (h : '\n' ∉ line) :
    parse (line ++ '\n' :: rest) = (ofLine? line).toList ++ parse rest := by
  rw [parse, Text.pieces_append h, List.filterMap_cons]
  cases ofLine? line <;> rfl

/-- **A block is read back as its entries**, whatever group the line before it
belongs to. -/
theorem parse_renderAfter (h : ∀ e ∈ es, IsSpelling e.spelling)
    (hne : ∀ e ∈ es, e.spelling ≠ "") (last : Option Nat) :
    parse (Entry.renderAfter last es).toList = es.map Entry.asDirective := by
  induction es generalizing last with
  | nil => rfl
  | cons e es ih =>
      obtain ⟨he, hes⟩ := List.forall_mem_cons.1 h
      obtain ⟨hene, hesne⟩ := List.forall_mem_cons.1 hne
      have hbreak : "\n".toList = ['\n'] := rfl
      have hline : parse (e.directive.toList ++ '\n'
            :: (Entry.renderAfter (some e.group) es).toList)
          = (e :: es).map Entry.asDirective := by
        rw [parse_append (not_mem_directive he), ofLine?_directive he hene,
          ih hes hesne]
        rfl
      rw [Entry.renderAfter, String.toList_append, String.toList_append,
        String.toList_append, hbreak, List.append_assoc, List.append_assoc,
        List.singleton_append]
      split
      · -- a blank line is no directive
        have hblank (rest : List Char) : parse ('\n' :: rest) = parse rest :=
          parse_append List.not_mem_nil
        rw [hbreak, List.singleton_append, hblank]
        exact hline
      · exact hline

/-- **A block of directives that were read is read back**: entries with the
spellings and the quotes or brackets of directives of some text, in any order
and number and in any groups, are rendered to a block that holds these
directives and no others. -/
theorem parse_renderBlock (text : List Char) (es : List Entry)
    (h : ∀ e ∈ es, e.asDirective ∈ parse text ∧ e.spelling ≠ "") :
    parse (Entry.renderBlock es).toList = es.map Entry.asDirective :=
  parse_renderAfter (fun e he => isSpelling_of_mem_parse (h e he).1)
    (fun e he => (h e he).2) none

/-- A text with two directives, one of them with blanks inside the brackets. -/
def twoDirectives : List Char :=
  "#include \"a/b.h\"\n// no directive\n\t# include < vector >\n".toList

/-- Entries for them in another order and in groups of their own, one twice. -/
def regroupedEntries : List Entry :=
  [{ spelling := "vector", group := 3 },
    { spelling := "a/b.h", isLocal := true, group := 1 },
    { spelling := "vector", file := ⟨"/usr/include/vector"⟩, group := 1 }]

theorem parse_renderBlock_regrouped :
    (∀ e ∈ regroupedEntries,
        e.asDirective ∈ parse twoDirectives ∧ e.spelling ≠ "")
      ∧ parse (Entry.renderBlock regroupedEntries).toList
        = [⟨"vector", false⟩, ⟨"a/b.h", true⟩, ⟨"vector", false⟩] := by
  have h : ∀ e ∈ regroupedEntries,
      e.asDirective ∈ parse twoDirectives ∧ e.spelling ≠ "" := by
    decide +kernel
  exact ⟨h, parse_renderBlock twoDirectives regroupedEntries h⟩

end Directive

end IncludeBlock
