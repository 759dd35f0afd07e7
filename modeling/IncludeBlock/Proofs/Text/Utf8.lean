import IncludeBlock.Text.Utf8

/-!
# Bytes of a text

A text is what the reader makes of its own bytes: every character is cut off as
one unit, whatever stands behind it.
-/

namespace IncludeBlock.Text

/-! ## One character -/

theorem toNat_ofNat {n : Nat} (h : n < 256) : (UInt8.ofNat n).toNat = n :=
  UInt8.toNat_ofNat_of_lt' h

section

variable {lo hi acc a b c n : Nat} {bs : List UInt8}

/-- A continuation byte is taken if it is in range. -/
theorem continuation_succ {more : Nat} (ha : a < 64) (hlo : lo ≤ a + 128)
    (hhi : a + 128 ≤ hi) :
    continuation (more + 1) lo hi acc (UInt8.ofNat (a + 128) :: bs)
      = continuation more 0x80 0xbf (acc * 64 + a) bs := by
  rw [continuation, toNat_ofNat (by omega), if_pos ⟨hlo, hhi⟩,
    show a + 128 - 0x80 = a by omega]

theorem continuation_one (ha : a < 64) (hlo : lo ≤ a + 128)
    (hhi : a + 128 ≤ hi) (hn : acc * 64 + a = n) :
    continuation 1 lo hi acc (UInt8.ofNat (a + 128) :: bs)
      = (some (Char.ofNat n), bs) := by
  rw [continuation_succ ha hlo hhi, continuation, hn]

theorem continuation_two (ha : a < 64) (hlo : lo ≤ a + 128)
    (hhi : a + 128 ≤ hi) (hb : b < 64) (hn : (acc * 64 + a) * 64 + b = n) :
    continuation 2 lo hi acc
        (UInt8.ofNat (a + 128) :: UInt8.ofNat (b + 128) :: bs)
      = (some (Char.ofNat n), bs) := by
  rw [continuation_succ ha hlo hhi,
    continuation_one hb (by omega) (by omega) hn]

theorem continuation_three (ha : a < 64) (hlo : lo ≤ a + 128)
    (hhi : a + 128 ≤ hi) (hb : b < 64) (hc : c < 64)
    (hn : ((acc * 64 + a) * 64 + b) * 64 + c = n) :
    continuation 3 lo hi acc (UInt8.ofNat (a + 128) :: UInt8.ofNat (b + 128)
        :: UInt8.ofNat (c + 128) :: bs)
      = (some (Char.ofNat n), bs) := by
  rw [continuation_succ ha hlo hhi,
    continuation_two hb (by omega) (by omega) hc hn]

end

section

variable {n : Nat} (rest : List UInt8)

theorem firstUnit_one (h : n < 0x80) :
    firstUnit (UInt8.ofNat n) rest = (some (Char.ofNat n), rest) := by
  simp only [firstUnit, toNat_ofNat (show n < 256 by omega)]
  rw [if_pos h]

theorem firstUnit_two (hlo : 0x80 ≤ n) (hhi : n < 0x800) :
    firstUnit (UInt8.ofNat (n / 64 % 32 + 192))
        (UInt8.ofNat (n % 64 + 128) :: rest)
      = (some (Char.ofNat n), rest) := by
  simp only [firstUnit, toNat_ofNat (show n / 64 % 32 + 192 < 256 by omega)]
  rw [if_neg (by omega), if_neg (by omega), if_pos (by omega)]
  exact continuation_one (by omega) (by omega) (by omega) (by omega)

/-- Such a character has no shorter form and is no surrogate, so its second
byte is where the first one wants it. -/
theorem firstUnit_three (hlo : 0x800 ≤ n) (hhi : n < 0x10000)
    (hvalid : n < 0xd800 ∨ 0xdfff < n) :
    firstUnit (UInt8.ofNat (n / 4096 % 16 + 224))
        (UInt8.ofNat (n / 64 % 64 + 128) :: UInt8.ofNat (n % 64 + 128) :: rest)
      = (some (Char.ofNat n), rest) := by
  simp only [firstUnit, toNat_ofNat (show n / 4096 % 16 + 224 < 256 by omega)]
  rw [if_neg (by omega), if_neg (by omega), if_neg (by omega)]
  split
  · exact continuation_two (by omega) (by omega) (by omega) (by omega) (by omega)
  split
  · exact continuation_two (by omega) (by omega) (by omega) (by omega) (by omega)
  · rw [if_pos (by omega)]
    exact continuation_two (by omega) (by omega) (by omega) (by omega) (by omega)

theorem firstUnit_four (hlo : 0x10000 ≤ n) (hhi : n < 0x110000) :
    firstUnit (UInt8.ofNat (n / 262144 % 8 + 240))
        (UInt8.ofNat (n / 4096 % 64 + 128) :: UInt8.ofNat (n / 64 % 64 + 128)
          :: UInt8.ofNat (n % 64 + 128) :: rest)
      = (some (Char.ofNat n), rest) := by
  simp only [firstUnit, toNat_ofNat (show n / 262144 % 8 + 240 < 256 by omega)]
  rw [if_neg (by omega), if_neg (by omega), if_neg (by omega),
    if_neg (by omega), if_neg (by omega), if_neg (by omega)]
  split
  · exact continuation_three (by omega) (by omega) (by omega) (by omega)
      (by omega) (by omega)
  split
  · exact continuation_three (by omega) (by omega) (by omega) (by omega)
      (by omega) (by omega)
  · rw [if_pos (by omega)]
    exact continuation_three (by omega) (by omega) (by omega) (by omega)
      (by omega) (by omega)

end

/-- The bytes of a character are one unit, and nothing behind them is taken. -/
theorem firstUnit_utf8EncodeChar (c : Char) (rest : List UInt8) :
    ∃ b bs, String.utf8EncodeChar c = b :: bs
      ∧ firstUnit b (bs ++ rest) = (some c, rest) := by
  have hvalid : c.toNat < 0xd800 ∨ 0xdfff < c.toNat ∧ c.toNat < 0x110000 :=
    c.valid
  have hc : Char.ofNat c.toNat = c := Char.ofNat_toNat c
  rcases Nat.lt_or_ge c.toNat 0x80 with h₁ | h₁
  · refine ⟨_, [], if_pos (Nat.le_of_lt_succ h₁), ?_⟩
    exact (firstUnit_one rest h₁).trans (by rw [hc])
  rcases Nat.lt_or_ge c.toNat 0x800 with h₂ | h₂
  · refine ⟨_, [_], (if_neg (Nat.not_le.2 h₁)).trans
      (if_pos (Nat.le_of_lt_succ h₂)), ?_⟩
    exact (firstUnit_two rest h₁ h₂).trans (by rw [hc])
  rcases Nat.lt_or_ge c.toNat 0x10000 with h₃ | h₃
  · refine ⟨_, [_, _], (if_neg (Nat.not_le.2 h₁)).trans
      ((if_neg (Nat.not_le.2 h₂)).trans
        (if_pos (Nat.le_of_lt_succ h₃))), ?_⟩
    exact (firstUnit_three rest h₂ h₃ (hvalid.imp_right And.left)).trans
      (by rw [hc])
  · refine ⟨_, [_, _, _], (if_neg (Nat.not_le.2 h₁)).trans
      ((if_neg (Nat.not_le.2 h₂)).trans (if_neg (Nat.not_le.2 h₃))), ?_⟩
    exact (firstUnit_four rest h₃ (by omega)).trans (by rw [hc])

/-! ## All characters -/

theorem unitsWithin_encode (cs : List Char) {fuel : Nat}
    (h : (cs.flatMap String.utf8EncodeChar).length ≤ fuel) :
    unitsWithin fuel (cs.flatMap String.utf8EncodeChar) = cs.map some := by
  induction cs generalizing fuel with
  | nil => cases fuel <;> rfl
  | cons c cs ih =>
      obtain ⟨b, bs, hbytes, hfirst⟩ := firstUnit_utf8EncodeChar c
        (cs.flatMap String.utf8EncodeChar)
      rw [List.flatMap_cons, hbytes, List.cons_append] at h ⊢
      cases fuel with
      | zero => simp at h
      | succ fuel =>
          rw [unitsWithin, hfirst, List.map_cons, ih]
          simp only [List.length_cons, List.length_append] at h
          omega

/-- **The units of a text are its characters.** -/
theorem units_encode (s : String) : units (encode s) = s.toList.map some :=
  unitsWithin_encode s.toList (Nat.le_refl _)

theorem mapM_id_map_some (cs : List Char) :
    (cs.map some).mapM (m := Option) id = some cs := by
  induction cs with
  | nil => rfl
  | cons c cs ih => rw [List.map_cons, List.mapM_cons, ih]; rfl

/-- **A text is read back from its bytes.** -/
theorem decode_encode (s : String) : decode (encode s) = some s := by
  rw [decode, units_encode, mapM_id_map_some, Option.map_some,
    String.ofList_toList]

end IncludeBlock.Text
