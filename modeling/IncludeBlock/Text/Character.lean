/-!
# Character classes and trimming

Blank characters are those of the Unicode property White_Space; folding of
case is done for ASCII letters alone, so that no two names that differ in a
letter outside ASCII are taken for one.
-/

namespace IncludeBlock.Text

/-- The characters with the Unicode property White_Space. -/
def isBlank (c : Char) : Bool :=
  let n := c.toNat
  (0x09 ≤ n && n ≤ 0x0d) || n == 0x20 || n == 0x85 || n == 0xa0 ||
    n == 0x1680 || (0x2000 ≤ n && n ≤ 0x200a) || n == 0x2028 ||
    n == 0x2029 || n == 0x202f || n == 0x205f || n == 0x3000

/-- A text without the blanks at its two ends. -/
def trimChars (cs : List Char) : List Char :=
  ((cs.dropWhile isBlank).reverse.dropWhile isBlank).reverse

/-- Behind leading blanks no blank comes first. -/
theorem isBlank_head?_dropWhile (cs : List Char) :
    ∀ c ∈ (cs.dropWhile isBlank).head?, isBlank c = false := by
  intro c hc
  have h := List.head?_dropWhile_not isBlank cs
  rw [Option.mem_def.1 hc] at h
  exact h

/-- A text without a blank in front loses nothing there. -/
theorem dropWhile_isBlank {cs : List Char}
    (h : ∀ c ∈ cs.head?, isBlank c = false) : cs.dropWhile isBlank = cs := by
  cases cs with
  | nil => rfl
  | cons c cs => simp [List.dropWhile, h c (by simp)]

/-- What is trimmed has no blanks left at its ends. -/
theorem trimChars_trimChars (cs : List Char) :
    trimChars (trimChars cs) = trimChars cs := by
  -- Cutting the end leaves the front, where no blank stands any more.
  have front : (trimChars cs).dropWhile isBlank = trimChars cs := by
    apply dropWhile_isBlank
    intro c hc
    have hp : trimChars cs <+: cs.dropWhile isBlank := by
      have hs := List.dropWhile_suffix isBlank (l := (cs.dropWhile isBlank).reverse)
      simpa [trimChars] using List.reverse_prefix.2 hs
    obtain ⟨t, ht⟩ := hp
    refine isBlank_head?_dropWhile cs c ?_
    rw [← ht]
    cases h : trimChars cs with
    | nil => rw [h] at hc; cases hc
    | cons d ds => rw [h] at hc; exact hc
  rw [trimChars, front]
  simp only [trimChars, List.reverse_reverse]
  rw [dropWhile_isBlank (isBlank_head?_dropWhile _)]

/-- A string without the blanks at its two ends. -/
def trim (s : String) : String :=
  String.ofList (trimChars s.toList)

/-- The small form of an ASCII capital; every other character is its own. -/
def lowerChar (c : Char) : Char :=
  if 'A' ≤ c && c ≤ 'Z' then Char.ofNat (c.toNat + 32) else c

/-- A string with its ASCII capitals made small. -/
def lower (s : String) : String :=
  String.ofList (s.toList.map lowerChar)

/-- The ASCII capitals are twenty-six in a row. -/
theorem exists_ofNat_of_isUpper {c : Char} (h : c.isUpper = true) :
    ∃ n : Fin 26, c = Char.ofNat (65 + n) := by
  have hrange : 65 ≤ c.toNat ∧ c.toNat ≤ 90 := by
    have hr : 'A'.val ≤ c.val ∧ c.val ≤ 'Z'.val := of_decide_eq_true h
    exact ⟨UInt32.le_iff_toNat_le.mp hr.1, UInt32.le_iff_toNat_le.mp hr.2⟩
  refine ⟨⟨c.toNat - 65, by omega⟩, ?_⟩
  rw [show 65 + (c.toNat - 65) = c.toNat by omega, Char.ofNat_toNat]

theorem isLower_lowerChar_ofNat : ∀ n : Fin 26,
    (lowerChar (Char.ofNat (65 + n))).isLower = true := by decide

theorem lowerChar_of_not_isUpper {c : Char} (h : c.isUpper = false) :
    lowerChar c = c := by
  rw [lowerChar, if_neg]
  intro hrange
  simp only [Bool.and_eq_true, decide_eq_true_eq] at hrange
  rw [show c.isUpper = true from decide_eq_true hrange] at h
  cases h

/-- The small form of a capital is a small letter. -/
theorem isLower_lowerChar {c : Char} (h : c.isUpper = true) :
    (lowerChar c).isLower = true := by
  obtain ⟨n, rfl⟩ := exists_ofNat_of_isUpper h
  exact isLower_lowerChar_ofNat n

/-- A character that is no small letter is the small form of itself alone. -/
theorem eq_of_lowerChar_eq {c x : Char} (hx : x.isLower = false)
    (h : lowerChar c = x) : c = x := by
  cases hc : c.isUpper with
  | true =>
      have hlower := isLower_lowerChar hc
      rw [h, hx] at hlower
      cases hlower
  | false => rw [← h, lowerChar_of_not_isUpper hc]

/-- Equality of names up to the case of ASCII letters. -/
def sameLetters (s t : String) : Bool :=
  s.toList.map lowerChar == t.toList.map lowerChar

/-- The pieces of a text between the occurrences of a separator; there is
always one more piece than there are separators. -/
def pieces (sep : Char) : List Char → List (List Char)
  | [] => [[]]
  | c :: cs =>
      if c = sep then [] :: pieces sep cs
      else
        match pieces sep cs with
        | [] => [[c]]
        | p :: ps => (c :: p) :: ps

/-- The text that has the given pieces, set apart by a separator. -/
def unpieces (sep : Char) : List (List Char) → List Char
  | [] => []
  | [p] => p
  | p :: q :: ps => p ++ sep :: unpieces sep (q :: ps)

theorem pieces_ne_nil (sep : Char) (cs : List Char) : pieces sep cs ≠ [] := by
  cases cs with
  | nil => simp [pieces]
  | cons c cs =>
      simp only [pieces]
      split
      · simp
      · split <;> simp

theorem unpieces_cons_of_ne_nil (sep : Char) (p : List Char)
    {ps : List (List Char)} (h : ps ≠ []) :
    unpieces sep (p :: ps) = p ++ sep :: unpieces sep ps := by
  cases ps with
  | nil => exact absurd rfl h
  | cons q qs => rfl

/-- Putting the separators back gives the text again. -/
theorem unpieces_pieces (sep : Char) (cs : List Char) :
    unpieces sep (pieces sep cs) = cs := by
  induction cs with
  | nil => rfl
  | cons c cs ih =>
      by_cases h : c = sep
      · rw [pieces, if_pos h, unpieces_cons_of_ne_nil _ _ (pieces_ne_nil sep cs),
          ih, h]
        rfl
      · rw [pieces, if_neg h]
        cases hp : pieces sep cs with
        | nil => exact absurd hp (pieces_ne_nil sep cs)
        | cons p ps =>
            rw [hp] at ih
            cases ps with
            | nil => exact congrArg (c :: ·) ih
            | cons q qs => exact congrArg (c :: ·) ih

/-- No piece holds the separator. -/
theorem not_mem_of_mem_pieces {sep : Char} {cs p : List Char}
    (h : p ∈ pieces sep cs) : sep ∉ p := by
  induction cs generalizing p with
  | nil => simp [pieces] at h; simp [h]
  | cons c cs ih =>
      by_cases hc : c = sep
      · rw [pieces, if_pos hc] at h
        rcases List.mem_cons.1 h with rfl | h
        · simp
        · exact ih h
      · rw [pieces, if_neg hc] at h
        cases hp : pieces sep cs with
        | nil => exact absurd hp (pieces_ne_nil sep cs)
        | cons q qs =>
            rw [hp] at h
            rcases List.mem_cons.1 h with rfl | h
            · have hq : sep ∉ q := ih (by simp [hp])
              simp [Ne.symm hc, hq]
            · exact ih (by simp [hp, h])

/-- A text without the separator is its only piece. -/
theorem pieces_of_not_mem {sep : Char} {cs : List Char} (h : sep ∉ cs) :
    pieces sep cs = [cs] := by
  induction cs with
  | nil => rfl
  | cons c cs ih =>
      have hc : c ≠ sep := fun e => h (by simp [e])
      rw [pieces, if_neg hc, ih (fun hm => h (List.mem_cons_of_mem _ hm))]

/-- Up to the first separator a text is its first piece. -/
theorem pieces_append {sep : Char} {p : List Char} (h : sep ∉ p)
    (cs : List Char) : pieces sep (p ++ sep :: cs) = p :: pieces sep cs := by
  induction p with
  | nil => simp [pieces]
  | cons c p ih =>
      have hc : c ≠ sep := fun e => h (by simp [e])
      rw [List.cons_append, pieces, if_neg hc,
        ih (fun hm => h (List.mem_cons_of_mem _ hm))]

/-- Pieces that hold no separator are found again. -/
theorem pieces_unpieces {sep : Char} {ps : List (List Char)} (hne : ps ≠ [])
    (h : ∀ p ∈ ps, sep ∉ p) : pieces sep (unpieces sep ps) = ps := by
  induction ps with
  | nil => exact absurd rfl hne
  | cons p ps ih =>
      by_cases hps : ps = []
      · subst hps
        exact pieces_of_not_mem (h p (by simp))
      · rw [unpieces_cons_of_ne_nil _ _ hps, pieces_append (h p (by simp)),
          ih hps (fun q hq => h q (List.mem_cons_of_mem _ hq))]

end IncludeBlock.Text
