import IncludeBlock.Json.Printer
import IncludeBlock.Json.Reader
import IncludeBlock.Proofs.Text.Utf8

/-!
# Reading what was written

A value is *legible* if the reader gets it back from its text without blanks,
whatever closes or goes on behind it. Null, whole numbers and strings are
legible, and so are arrays and objects of legible values.
-/

namespace IncludeBlock.Json

open IncludeBlock.Text (Unit8)

/-- The units of a text. -/
def written (s : String) : List Unit8 := s.toList.map some

/-! ## Strings -/

theorem hexNumber?_hexChar : ∀ n < 32,
    hexNumber? (some '0') (some '0') (some (hexChar (n / 16)))
      (some (hexChar (n % 16))) = some n := by
  decide

theorem literal_short {c d : Char} (h : escaped? (some d) = some c)
    (us : List Unit8) :
    literal (some '\\' :: some d :: us)
      = (literal us).map fun a => (.char c :: a.1, a.2) := by
  have hd : d ≠ 'u' := by
    rintro rfl
    simp [escaped?] at h
  rw [literal]
  · cases literal us <;> simp [h]
  · simp [hd]

theorem literal_control {n : Nat} (h : n < 32) (us : List Unit8) :
    literal (some '\\' :: some 'u' :: some '0' :: some '0'
        :: some (hexChar (n / 16)) :: some (hexChar (n % 16)) :: us)
      = (literal us).map fun a => (.char (Char.ofNat n) :: a.1, a.2) := by
  have hplain : ¬ (0xd800 ≤ n ∧ n < 0xe000) := by omega
  rw [literal, hexNumber?_hexChar n h]
  cases literal us <;> simp [Piece.ofNumber, hplain]

theorem literal_plain {c : Char} (hquote : c ≠ '"') (hback : c ≠ '\\')
    (hcontrol : ¬ c < ' ') (us : List Unit8) :
    literal (some c :: us)
      = (literal us).map fun a => (.char c :: a.1, a.2) := by
  rw [literal]
  · rw [if_neg (by simp [hback, hcontrol])]
    cases literal us <;> simp
  all_goals simp [hquote, hback]

/-- An escaped character is read as that character. -/
theorem literal_escape (c : Char) (us : List Unit8) :
    literal ((escape c).map some ++ us)
      = (literal us).map fun a => (.char c :: a.1, a.2) := by
  unfold escape
  split
  · subst_vars; exact literal_short rfl us
  split
  · subst_vars; exact literal_short rfl us
  split
  · subst_vars; exact literal_short rfl us
  split
  · subst_vars; exact literal_short rfl us
  split
  · subst_vars; exact literal_short rfl us
  split
  · subst_vars; exact literal_short rfl us
  split
  · subst_vars; exact literal_short rfl us
  split
  · rename_i hcontrol
    have hn : c.toNat < 32 := hcontrol
    have h := literal_control hn us
    rw [Char.ofNat_toNat] at h
    exact h
  · rename_i hquote hback _ _ _ _ _ hcontrol
    exact literal_plain hquote hback hcontrol us

theorem textOf_chars (cs : List Char) : textOf (cs.map .char) = some cs := by
  induction cs with
  | nil => rfl
  | cons c cs ih => rw [List.map_cons, textOf, ih]; rfl

theorem literal_quoted (cs : List Char) (rest : List Unit8) :
    literal ((cs.flatMap escape).map some ++ some '"' :: rest)
      = some (cs.map .char, rest) := by
  induction cs with
  | nil => simp [literal]
  | cons c cs ih =>
      rw [List.flatMap_cons, List.map_append, List.append_assoc,
        literal_escape, ih]
      rfl

theorem written_quote (s : String) :
    written (quote s)
      = some '"' :: ((s.toList.flatMap escape).map some ++ [some '"']) := by
  simp [written, quote]

theorem string?_quoted (s : String) (rest : List Unit8) :
    string? ((s.toList.flatMap escape).map some ++ some '"' :: rest)
      = some (some s, rest) := by
  simp [string?, literal_quoted, textOf_chars]

/-! ## Numbers -/

/-- What may stand behind a value: nothing, or what goes on with or closes an
array or an object. -/
inductive Closes : List Unit8 → Prop where
  | nil : Closes []
  | comma (us : List Unit8) : Closes (some ',' :: us)
  | bracket (us : List Unit8) : Closes (some ']' :: us)
  | brace (us : List Unit8) : Closes (some '\x7d' :: us)

theorem digits_append {ds : List Char} {rest : List Unit8}
    (hds : ∀ c ∈ ds, c.isDigit = true) (h : Closes rest) :
    digits (ds.map some ++ rest) = (ds, rest) := by
  have hall : ∀ u ∈ ds.map some, isDigit u = true := by
    intro u hu
    obtain ⟨c, hc, rfl⟩ := List.mem_map.1 hu
    exact hds c hc
  have hrest : rest.takeWhile isDigit = [] ∧ rest.dropWhile isDigit = rest := by
    cases h <;> exact ⟨rfl, rfl⟩
  rw [digits, List.takeWhile_append_of_pos hall,
    List.dropWhile_append_of_pos hall, hrest.1, hrest.2, List.append_nil]
  simp

/-- Only the number zero is written with a zero in front. -/
theorem head?_toDigits {n : Nat} (h : 0 < n) :
    (Nat.toDigits 10 n).head? ≠ some '0' := by
  induction n using Nat.strongRecOn with
  | _ n ih =>
      rcases Nat.lt_or_ge n 10 with hn | hn
      · have hall : ∀ n < 10, 0 < n → some n.digitChar ≠ some '0' := by decide
        rw [Nat.toDigits_of_lt_base hn]
        exact hall n hn h
      · have hfront := ih (n / 10) (by omega) (by omega)
        rw [Nat.toDigits_of_base_le (by decide) hn]
        cases hds : Nat.toDigits 10 (n / 10) with
        | nil => exact absurd hds Nat.toDigits_ne_nil
        | cons d ds =>
            rw [hds] at hfront
            exact hfront

theorem wholePart?_toDigits (n : Nat) {rest : List Unit8} (h : Closes rest) :
    wholePart? ((Nat.toDigits 10 n).map some ++ rest)
      = some (Nat.toDigits 10 n, rest) := by
  rcases Nat.eq_zero_or_pos n with rfl | hn
  · rfl
  have hall : ∀ c ∈ Nat.toDigits 10 n, c.isDigit = true := fun c hc =>
    Nat.isDigit_of_mem_toDigits (by decide) (by decide) hc
  have hdigits := digits_append hall h
  have hzero := head?_toDigits hn
  cases hds : Nat.toDigits 10 n with
  | nil => exact absurd hds Nat.toDigits_ne_nil
  | cons d ds =>
      rw [hds] at hdigits hzero
      rw [List.map_cons, List.cons_append] at hdigits ⊢
      unfold wholePart?
      split
      · rename_i heq
        simp only [List.cons.injEq, Option.some.injEq] at heq
        simp [heq.1] at hzero
      · rw [hdigits]

theorem ofDigits_toDigits (n : Nat) : ofDigits (Nat.toDigits 10 n) = n := by
  have h : ofDigits (Nat.toDigits 10 n)
      = Nat.ofDigitChars 10 (Nat.toDigits 10 n) 0 := by
    simp only [ofDigits, Nat.ofDigitChars, Nat.mul_comm]
    rfl
  rw [h, Nat.ofDigitChars_toDigits (by decide) (by decide)]

theorem number?_written (n : Nat) {rest : List Unit8} (h : Closes rest) :
    number? (written (toString n) ++ rest) = some (.natural n, rest) := by
  have hwhole := wholePart?_toDigits n h
  have hfraction : fraction? rest = some ([], rest) := by cases h <;> rfl
  have hexponent : exponent? rest = some ([], rest) := by cases h <;> rfl
  have hdigit : ∀ c ∈ Nat.toDigits 10 n, c.isDigit = true := fun c hc =>
    Nat.isDigit_of_mem_toDigits (by decide) (by decide) hc
  have hsum := ofDigits_toDigits n
  rw [written, Nat.toString_eq_repr, Nat.toList_repr]
  cases hds : Nat.toDigits 10 n with
  | nil => exact absurd hds Nat.toDigits_ne_nil
  | cons d ds =>
      rw [hds] at hwhole hdigit hsum
      -- no digit is the sign
      have hsign : d ≠ '-' := by
        rintro rfl
        exact absurd (hdigit '-' List.mem_cons_self) (by decide)
      rw [List.map_cons, List.cons_append] at hwhole ⊢
      simp [number?, hsign, hwhole, hfraction, hexponent, hsum]

/-! ## Values -/

/-- A value that is read back from its text. -/
structure Legible (v : Json) : Prop where
  /-- Neither a blank nor the end of an array is in front. -/
  front : ∃ c cs, v.compact.toList = c :: cs ∧ isSpace (some c) = false
    ∧ c ≠ ']'
  read : ∀ {fuel : Nat} {rest : List Unit8}, Closes rest →
    (written v.compact).length ≤ fuel →
    value? fuel (written v.compact ++ rest) = some (v, rest)

theorem skip_of_front {c : Char} (h : isSpace (some c) = false)
    (us : List Unit8) : skip (some c :: us) = some c :: us := by
  rw [skip, List.dropWhile_cons, h]
  rfl

theorem legible_null : Legible .null where
  front := ⟨'n', _, rfl, rfl, by decide⟩
  read {fuel rest} _ hfuel := by
    cases fuel with
    | zero => simp [written, compact] at hfuel
    | succ fuel =>
        rw [value?]
        rfl

theorem exists_toDigits (n : Nat) :
    ∃ d ds, Nat.toDigits 10 n = d :: ds ∧ d.isDigit = true := by
  cases hds : Nat.toDigits 10 n with
  | nil => exact absurd hds Nat.toDigits_ne_nil
  | cons d ds =>
      exact ⟨d, ds, rfl, Nat.isDigit_of_mem_toDigits (by decide) (by decide)
        (hds ▸ List.mem_cons_self)⟩

theorem ne_of_isDigit {c d : Char} (hc : c.isDigit = true)
    (hd : d.isDigit = false) : c ≠ d := by
  rintro rfl
  simp [hc] at hd

theorem isSpace_of_isDigit {c : Char} (h : c.isDigit = true) :
    isSpace (some c) = false := by
  have hblank := ne_of_isDigit h (d := ' ') rfl
  have htab := ne_of_isDigit h (d := '\t') rfl
  have hline := ne_of_isDigit h (d := '\n') rfl
  have hreturn := ne_of_isDigit h (d := '\r') rfl
  simp [isSpace, hblank, htab, hline, hreturn]

/-- What starts with a digit is read as a number. -/
theorem value?_digit {c : Char} (h : c.isDigit = true) (fuel : Nat)
    (us : List Unit8) : value? (fuel + 1) (some c :: us) = number? (some c :: us) := by
  rw [value?, skip_of_front (isSpace_of_isDigit h)]
  have hne {d : Char} (hd : d.isDigit = false) : c ≠ d := ne_of_isDigit h hd
  split <;> simp_all

theorem legible_natural (n : Nat) : Legible (.natural n) where
  front := by
    have htext : (compact (.natural n)).toList = Nat.toDigits 10 n := by
      rw [compact, Nat.toString_eq_repr, Nat.toList_repr]
    obtain ⟨d, ds, hds, hd⟩ := exists_toDigits n
    exact ⟨d, ds, htext.trans hds, isSpace_of_isDigit hd,
      ne_of_isDigit hd rfl⟩
  read {fuel rest} hrest hfuel := by
    have hnumber := number?_written n hrest
    obtain ⟨d, ds, hds, hd⟩ := exists_toDigits n
    have htext : written (compact (.natural n)) = some d :: ds.map some := by
      rw [compact, Nat.toString_eq_repr, written, Nat.toList_repr, hds]
      rfl
    have htext' : written (toString n) = some d :: ds.map some := htext
    rw [htext] at hfuel ⊢
    rw [htext'] at hnumber
    cases fuel with
    | zero => simp at hfuel
    | succ fuel => rw [List.cons_append, value?_digit hd]; exact hnumber

theorem legible_string (s : String) : Legible (.ofString s) where
  front := ⟨'"', (s.toList.flatMap escape) ++ ['"'], by
    simp [ofString, compact, quote], rfl, by decide⟩
  read {fuel rest} _ hfuel := by
    have htext : written (compact (.ofString s)) = written (quote s) := rfl
    rw [htext, written_quote] at hfuel ⊢
    cases fuel with
    | zero => simp at hfuel
    | succ fuel =>
        rw [value?, List.cons_append, skip_of_front rfl, List.append_assoc]
        have h := string?_quoted s rest
        simp [h, ofString]

/-! ## Arrays -/

theorem written_separated (s t : String) (ss : List String) :
    written (separated "," (s :: t :: ss))
      = written s ++ some ',' :: written (separated "," (t :: ss)) := by
  simp [separated, written]

/-- The text between the brackets of an array. -/
def itemsText (items : List Json) : List Unit8 :=
  written (separated "," (compactItems items))

theorem itemsText_singleton (v : Json) :
    itemsText [v] = written v.compact := rfl

theorem itemsText_cons (v w : Json) (ws : List Json) :
    itemsText (v :: w :: ws)
      = written v.compact ++ some ',' :: itemsText (w :: ws) :=
  written_separated _ _ _

theorem written_array (items : List Json) :
    written (compact (.array items))
      = some '[' :: (itemsText items ++ [some ']']) := by
  simp [compact, written, itemsText]

theorem items?_itemsText {items : List Json} (hne : items ≠ [])
    (h : ∀ v ∈ items, Legible v) {fuel : Nat} (rest : List Unit8)
    (hfuel : (itemsText items).length < fuel) :
    items? fuel (itemsText items ++ some ']' :: rest) = some (items, rest) := by
  induction items generalizing fuel with
  | nil => exact absurd rfl hne
  | cons v vs ih =>
      obtain ⟨hv, hvs⟩ := List.forall_mem_cons.1 h
      cases fuel with
      | zero => simp at hfuel
      | succ fuel =>
          cases vs with
          | nil =>
              rw [itemsText_singleton] at hfuel ⊢
              rw [items?, hv.read (.bracket rest) (Nat.le_of_lt_succ hfuel)]
              rfl
          | cons w ws =>
              rw [itemsText_cons, List.length_append, List.length_cons] at hfuel
              rw [itemsText_cons, List.append_assoc, List.cons_append, items?,
                hv.read (.comma _) (by omega)]
              show (items? fuel _).bind _ = _
              rw [ih (List.cons_ne_nil w ws) hvs (by omega)]
              rfl

/-- What a list of items starts with is not the end of the list. -/
theorem exists_front_of_legible {v : Json} (h : Legible v) (vs : List Json) :
    ∃ c us, itemsText (v :: vs) = some c :: us ∧ isSpace (some c) = false
      ∧ c ≠ ']' := by
  obtain ⟨c, cs, htext, hspace, hc⟩ := h.front
  have hwritten : written v.compact = some c :: cs.map some := by
    rw [written, htext]
    rfl
  cases vs with
  | nil => exact ⟨c, cs.map some, hwritten, hspace, hc⟩
  | cons w ws =>
      refine ⟨c, cs.map some ++ some ',' :: itemsText (w :: ws), ?_, hspace, hc⟩
      rw [itemsText_cons, hwritten, List.cons_append]

theorem value?_array {c : Char} (hspace : isSpace (some c) = false)
    (hc : c ≠ ']') (fuel : Nat) (us : List Unit8) :
    value? (fuel + 1) (some '[' :: some c :: us)
      = (items? fuel (some c :: us)).map fun a => (.array a.1, a.2) := by
  rw [value?, skip_of_front rfl]
  simp only [skip_of_front hspace]
  split
  · rename_i heq
    simp [hc] at heq
  · cases items? fuel (some c :: us) <;> rfl

theorem legible_array {items : List Json} (h : ∀ v ∈ items, Legible v) :
    Legible (.array items) where
  front := ⟨'[', _, by simp [compact]; rfl, rfl, by decide⟩
  read {fuel rest} _ hfuel := by
    rw [written_array] at hfuel ⊢
    cases fuel with
    | zero => simp at hfuel
    | succ fuel =>
        rw [List.cons_append, List.append_assoc, List.singleton_append]
        cases items with
        | nil => rfl
        | cons v vs =>
            obtain ⟨c, us, hfront, hspace, hc⟩ :=
              exists_front_of_legible (h v List.mem_cons_self) vs
            simp only [List.length_cons, List.length_append] at hfuel
            have hitems := items?_itemsText (List.cons_ne_nil v vs) h rest
              (show _ < fuel by omega)
            rw [hfront, List.cons_append] at hitems ⊢
            rw [value?_array hspace hc, hitems]
            rfl

/-! ## Objects -/

/-- The members of a record as an object has them. -/
def membersOf (members : List (String × Json)) :
    List (Option String × Json) :=
  members.map fun a => (some a.1, a.2)

/-- The text of one member behind its first quote. -/
def memberText (a : String × Json) : List Unit8 :=
  (a.1.toList.flatMap escape).map some
    ++ some '"' :: some ':' :: written a.2.compact

/-- The text between the braces of a record. -/
def membersText (members : List (String × Json)) : List Unit8 :=
  written (separated "," (compactMembers (membersOf members)))

theorem written_member (a : String × Json) :
    written (quote a.1 ++ ":" ++ a.2.compact) = some '"' :: memberText a := by
  simp [written, quote, memberText]

theorem membersText_singleton (a : String × Json) :
    membersText [a] = some '"' :: memberText a :=
  written_member a

theorem membersText_cons (a b : String × Json) (bs : List (String × Json)) :
    membersText (a :: b :: bs)
      = some '"' :: (memberText a ++ some ',' :: membersText (b :: bs)) :=
  (written_separated _ _ _).trans
    (congrArg (· ++ some ',' :: membersText (b :: bs)) (written_member a))

theorem written_record (members : List (String × Json)) :
    written (compact (.record members))
      = some '\x7b' :: (membersText members ++ [some '\x7d']) := by
  simp [compact, written, record, membersText, membersOf]

section

variable {a : String × Json} {fuel : Nat}

/-- The value of a member is read, and its name. -/
theorem members?_member (h : Legible a.2) {rest : List Unit8}
    (hrest : Closes rest) (hfuel : (memberText a).length ≤ fuel) :
    string? (memberText a ++ rest)
        = some (some a.1, some ':' :: (written a.2.compact ++ rest))
      ∧ value? fuel (written a.2.compact ++ rest) = some (a.2, rest) := by
  rw [memberText, List.length_append, List.length_cons, List.length_cons] at hfuel
  refine ⟨?_, h.read hrest (by omega)⟩
  rw [memberText, List.append_assoc]
  exact string?_quoted _ _

theorem members?_last (h : Legible a.2) (us : List Unit8)
    (hfuel : (memberText a).length ≤ fuel) :
    members? (fuel + 1) (some '"' :: (memberText a ++ some '\x7d' :: us))
      = some ([(some a.1, a.2)], us) := by
  obtain ⟨hkey, hvalue⟩ := members?_member h (.brace us) hfuel
  rw [members?, skip_of_front rfl]
  show (string? _).bind _ = _
  rw [hkey]
  show (value? fuel _).bind _ = _
  rw [hvalue]
  rfl

theorem members?_cons (h : Legible a.2) (us : List Unit8)
    (hfuel : (memberText a).length ≤ fuel) :
    members? (fuel + 1) (some '"' :: (memberText a ++ some ',' :: us))
      = (members? fuel us).map fun b => ((some a.1, a.2) :: b.1, b.2) := by
  obtain ⟨hkey, hvalue⟩ := members?_member h (.comma us) hfuel
  rw [members?, skip_of_front rfl]
  show (string? _).bind _ = _
  rw [hkey]
  show (value? fuel _).bind _ = _
  rw [hvalue]
  show (members? fuel us).bind _ = _
  cases members? fuel us <;> rfl

end

theorem members?_membersText {members : List (String × Json)}
    (hne : members ≠ []) (h : ∀ a ∈ members, Legible a.2) {fuel : Nat}
    (rest : List Unit8) (hfuel : (membersText members).length < fuel) :
    members? fuel (membersText members ++ some '\x7d' :: rest)
      = some (membersOf members, rest) := by
  induction members generalizing fuel with
  | nil => exact absurd rfl hne
  | cons a as ih =>
      obtain ⟨ha, has⟩ := List.forall_mem_cons.1 h
      cases fuel with
      | zero => simp at hfuel
      | succ fuel =>
          cases as with
          | nil =>
              rw [membersText_singleton, List.length_cons] at hfuel
              rw [membersText_singleton, List.cons_append]
              exact members?_last ha rest (by omega)
          | cons b bs =>
              rw [membersText_cons, List.length_cons, List.length_append,
                List.length_cons] at hfuel
              rw [membersText_cons, List.cons_append, List.append_assoc,
                List.cons_append, members?_cons ha _ (by omega),
                ih (List.cons_ne_nil b bs) has (by omega)]
              rfl

theorem value?_record (fuel : Nat) (us : List Unit8) :
    value? (fuel + 1) (some '\x7b' :: some '"' :: us)
      = (members? fuel (some '"' :: us)).map fun a => (.object a.1, a.2) := by
  rw [value?, skip_of_front rfl]
  simp only [skip_of_front (c := '"') rfl]
  cases members? fuel (some '"' :: us) <;> rfl

theorem legible_record {members : List (String × Json)}
    (h : ∀ a ∈ members, Legible a.2) : Legible (.record members) where
  front := ⟨'\x7b', _, by simp [record, compact]; rfl, rfl, by decide⟩
  read {fuel rest} _ hfuel := by
    rw [written_record] at hfuel ⊢
    cases fuel with
    | zero => simp at hfuel
    | succ fuel =>
        rw [List.cons_append, List.append_assoc, List.singleton_append]
        cases members with
        | nil => rfl
        | cons a as =>
            obtain ⟨us, hfront⟩ :
                ∃ us, membersText (a :: as) = some '"' :: us := by
              cases as with
              | nil => exact ⟨_, membersText_singleton a⟩
              | cons b bs => exact ⟨_, membersText_cons a b bs⟩
            simp only [List.length_cons, List.length_append] at hfuel
            have hmembers := members?_membersText (List.cons_ne_nil a as) h
              rest (show _ < fuel by omega)
            rw [hfront, List.cons_append] at hmembers ⊢
            rw [value?_record, hmembers]
            rfl

/-! ## Whole texts -/

/-- **What is legible is read back** from the bytes of its text. -/
theorem parse?_compact {v : Json} (h : Legible v) :
    parse? (Text.encode v.compact) = some v := by
  have hunits : Text.units (Text.encode v.compact) = written v.compact :=
    Text.units_encode v.compact
  have hread := h.read .nil
    (show _ ≤ 2 * (written v.compact).length + 2 by omega)
  rw [List.append_nil] at hread
  rw [parse?, hunits, ofUnits?, hread]
  rfl

end IncludeBlock.Json
