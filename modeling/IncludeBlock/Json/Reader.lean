import IncludeBlock.Json.Basic

/-!
# Reading JSON

A text is one value with blanks around it. Values may be nested to any depth.
The reader works on the units of a byte sequence, so that bytes which are no
character can stand inside a string and nowhere else.
-/

namespace IncludeBlock.Json

open IncludeBlock.Text (Unit8)

/-- Blank space between the parts of a value. -/
def isSpace (u : Unit8) : Bool :=
  u == some ' ' || u == some '\t' || u == some '\n' || u == some '\r'

/-- The text behind leading blanks. -/
def skip (us : List Unit8) : List Unit8 :=
  us.dropWhile isSpace

/-! ## Strings -/

/-- A part of a string literal. -/
inductive Piece where
  | char (c : Char)
  /-- A surrogate, by its number. -/
  | surrogate (n : Nat)
  /-- Bytes that are no character. -/
  | broken

def hexDigit? (u : Unit8) : Option Nat :=
  match u with
  | some c =>
      let n := c.toNat
      if '0' ≤ c ∧ c ≤ '9' then some (n - 48)
      else if 'a' ≤ c ∧ c ≤ 'f' then some (n - 87)
      else if 'A' ≤ c ∧ c ≤ 'F' then some (n - 55)
      else none
  | none => none

def hexNumber? (a b c d : Unit8) : Option Nat := do
  return (((← hexDigit? a) * 16 + (← hexDigit? b)) * 16 + (← hexDigit? c)) * 16
    + (← hexDigit? d)

/-- The part that an escaped code unit stands for. -/
def Piece.ofNumber (n : Nat) : Piece :=
  if 0xd800 ≤ n ∧ n < 0xe000 then .surrogate n else .char (Char.ofNat n)

/-- The character behind a backslash, for the escapes of one letter. -/
def escaped? (u : Unit8) : Option Char :=
  match u with
  | some '"' => some '"'
  | some '\\' => some '\\'
  | some '/' => some '/'
  | some 'b' => some '\x08'
  | some 'f' => some '\x0c'
  | some 'n' => some '\n'
  | some 'r' => some '\r'
  | some 't' => some '\t'
  | _ => none

/-- The parts of a string literal behind its opening quote, and what follows
the closing one. -/
def literal : List Unit8 → Option (List Piece × List Unit8)
  | [] => none
  | some '"' :: us => some ([], us)
  | some '\\' :: some 'u' :: a :: b :: c :: d :: us => do
      let n ← hexNumber? a b c d
      let (ps, rest) ← literal us
      return (Piece.ofNumber n :: ps, rest)
  | some '\\' :: u :: us => do
      let c ← escaped? u
      let (ps, rest) ← literal us
      return (.char c :: ps, rest)
  | some c :: us =>
      if c < ' ' ∨ c = '\\' then none
      else do
        let (ps, rest) ← literal us
        return (.char c :: ps, rest)
  | none :: us => do
      let (ps, rest) ← literal us
      return (.broken :: ps, rest)

/-- The text of a literal; two surrogates make one character, a lone one has
none. -/
def textOf : List Piece → Option (List Char)
  | [] => some []
  | .char c :: ps => (textOf ps).map (c :: ·)
  | .surrogate m :: .surrogate n :: ps =>
      if m < 0xdc00 ∧ 0xdc00 ≤ n then
        (textOf ps).map
          (Char.ofNat (0x10000 + (m - 0xd800) * 0x400 + (n - 0xdc00)) :: ·)
      else none
  | _ => none

/-- A string literal behind its opening quote, with what follows it. -/
def string? (us : List Unit8) : Option (Option String × List Unit8) := do
  let (ps, rest) ← literal us
  return ((textOf ps).map String.ofList, rest)

/-! ## Numbers -/

/-- Whether a unit is a decimal digit. -/
def isDigit (u : Unit8) : Bool :=
  u.any Char.isDigit

/-- The digits at the start, and the rest. -/
def digits (us : List Unit8) : List Char × List Unit8 :=
  ((us.takeWhile isDigit).filterMap id, us.dropWhile isDigit)

/-- The whole part of a number: no digit may follow a leading zero. -/
def wholePart? (us : List Unit8) : Option (List Char × List Unit8) :=
  match us with
  | some '0' :: rest => some (['0'], rest)
  | _ =>
      match digits us with
      | ([], _) => none
      | (ds, rest) => some (ds, rest)

/-- The fraction of a number, if it has one. -/
def fraction? (us : List Unit8) : Option (List Char × List Unit8) :=
  match us with
  | some '.' :: rest =>
      match digits rest with
      | ([], _) => none
      | (ds, rest) => some ('.' :: ds, rest)
  | _ => some ([], us)

/-- The exponent of a number, if it has one. -/
def exponent? (us : List Unit8) : Option (List Char × List Unit8) :=
  match us with
  | some e :: rest =>
      if e = 'e' ∨ e = 'E' then
        let (sign, rest) := match rest with
          | some '+' :: rest => (['+'], rest)
          | some '-' :: rest => (['-'], rest)
          | _ => ([], rest)
        match digits rest with
        | ([], _) => none
        | (ds, rest) => some (e :: sign ++ ds, rest)
      else some ([], us)
  | _ => some ([], us)

def ofDigits (ds : List Char) : Nat :=
  ds.foldl (fun n c => n * 10 + (c.toNat - 48)) 0

/-- A number and what follows it. -/
def number? (us : List Unit8) : Option (Json × List Unit8) := do
  let (sign, us) := match us with
    | some '-' :: us => (['-'], us)
    | _ => ([], us)
  -- Even a zero is no whole number if a sign is in front of it.
  let (whole, us) ← wholePart? us
  let (fraction, us) ← fraction? us
  let (exponent, us) ← exponent? us
  if sign = [] ∧ fraction = [] ∧ exponent = [] then
    return (.natural (ofDigits whole), us)
  else
    return (.numeral (String.ofList (sign ++ whole ++ fraction ++ exponent)), us)

/-! ## Values -/

/-- What follows a word at the start of a text. -/
def word? (w : String) (us : List Unit8) : Option (List Unit8) :=
  let cs := w.toList.map some
  if cs.isPrefixOf us then some (us.drop cs.length) else none

mutual

/-- A value and what follows it. -/
def value? : Nat → List Unit8 → Option (Json × List Unit8)
  | 0, _ => none
  | fuel + 1, us =>
      match skip us with
      | some 'n' :: rest => (word? "ull" rest).map (.null, ·)
      | some 't' :: rest => (word? "rue" rest).map (.bool true, ·)
      | some 'f' :: rest => (word? "alse" rest).map (.bool false, ·)
      | some '"' :: rest => do
          let (s, rest) ← string? rest
          return (.string s, rest)
      | some '[' :: rest =>
          match skip rest with
          | some ']' :: rest => some (.array [], rest)
          | _ => do
              let (items, rest) ← items? fuel rest
              return (.array items, rest)
      | some '\x7b' :: rest =>
          match skip rest with
          | some '\x7d' :: rest => some (.object [], rest)
          | _ => do
              let (members, rest) ← members? fuel rest
              return (.object members, rest)
      | us => number? us

/-- The items of an array up to its closing bracket, at least one. -/
def items? : Nat → List Unit8 → Option (List Json × List Unit8)
  | 0, _ => none
  | fuel + 1, us => do
      let (item, rest) ← value? fuel us
      match skip rest with
      | some ',' :: rest => do
          let (items, rest) ← items? fuel rest
          return (item :: items, rest)
      | some ']' :: rest => return ([item], rest)
      | _ => none

/-- The members of an object up to its closing brace, at least one. -/
def members? : Nat → List Unit8 →
    Option (List (Option String × Json) × List Unit8)
  | 0, _ => none
  | fuel + 1, us =>
      match skip us with
      | some '"' :: rest => do
          let (key, rest) ← string? rest
          match skip rest with
          | some ':' :: rest => do
              let (item, rest) ← value? fuel rest
              match skip rest with
              | some ',' :: rest => do
                  let (members, rest) ← members? fuel rest
                  return ((key, item) :: members, rest)
              | some '\x7d' :: rest => return ([(key, item)], rest)
              | _ => none
          | _ => none
      | _ => none

end

/-- The value that a text of units writes. A step of the reader that takes no
unit is followed by one that does, which bounds the number of steps. -/
def ofUnits? (us : List Unit8) : Option Json := do
  let (v, rest) ← value? (2 * us.length + 2) us
  if skip rest = [] then some v else none

/-- The value that bytes write. -/
def parse? (bytes : List UInt8) : Option Json :=
  ofUnits? (Text.units bytes)

end IncludeBlock.Json
