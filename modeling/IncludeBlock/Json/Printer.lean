import IncludeBlock.Json.Basic

/-!
# Writing JSON

Values are written without blanks, or laid out with two spaces for each level.
Inside strings the quote, the backslash and control characters are escaped,
and everything else stands for itself.
-/

namespace IncludeBlock.Json

def hexChar (n : Nat) : Char :=
  if n < 10 then Char.ofNat (48 + n) else Char.ofNat (87 + n)

/-- A character as it stands in a string literal. -/
def escape (c : Char) : List Char :=
  if c = '"' then ['\\', '"']
  else if c = '\\' then ['\\', '\\']
  else if c = '\x08' then ['\\', 'b']
  else if c = '\t' then ['\\', 't']
  else if c = '\n' then ['\\', 'n']
  else if c = '\x0c' then ['\\', 'f']
  else if c = '\r' then ['\\', 'r']
  else if c < ' ' then
    ['\\', 'u', '0', '0', hexChar (c.toNat / 16), hexChar (c.toNat % 16)]
  else [c]

def quote (s : String) : String :=
  String.ofList ('"' :: s.toList.flatMap escape ++ ['"'])

def separated (sep : String) : List String → String
  | [] => ""
  | [s] => s
  | s :: t :: rest => s ++ sep ++ separated sep (t :: rest)

mutual

/-- A value without blanks. A string that stands for no text is written as the
empty one. -/
def compact : Json → String
  | .null => "null"
  | .bool b => if b then "true" else "false"
  | .natural n => toString n
  | .numeral literal => literal
  | .string s => quote (s.getD "")
  | .array items => "[" ++ separated "," (compactItems items) ++ "]"
  | .object members =>
      "\x7b" ++ separated "," (compactMembers members) ++ "\x7d"

/-- The items of an array without blanks. -/
def compactItems : List Json → List String
  | [] => []
  | v :: vs => compact v :: compactItems vs

/-- The members of an object without blanks. -/
def compactMembers : List (Option String × Json) → List String
  | [] => []
  | (key, v) :: rest =>
      (quote (key.getD "") ++ ":" ++ compact v) :: compactMembers rest

end

/-- The start of a line at a level. -/
def newline (level : Nat) : String :=
  String.ofList ('\n' :: List.replicate (2 * level) ' ')

mutual

/-- A value laid out in lines, at a level. -/
def prettyAt (level : Nat) : Json → String
  | .null => "null"
  | .bool b => if b then "true" else "false"
  | .natural n => toString n
  | .numeral literal => literal
  | .string s => quote (s.getD "")
  | .array [] => "[]"
  | .array items =>
      "[" ++ newline (level + 1)
        ++ separated ("," ++ newline (level + 1)) (prettyItems (level + 1) items)
        ++ newline level ++ "]"
  | .object [] => "\x7b\x7d"
  | .object members =>
      "\x7b" ++ newline (level + 1)
        ++ separated ("," ++ newline (level + 1))
            (prettyMembers (level + 1) members)
        ++ newline level ++ "\x7d"

/-- The items of an array, laid out at a level. -/
def prettyItems (level : Nat) : List Json → List String
  | [] => []
  | v :: vs => prettyAt level v :: prettyItems level vs

/-- The members of an object, laid out at a level. -/
def prettyMembers (level : Nat) : List (Option String × Json) → List String
  | [] => []
  | (key, v) :: rest =>
      (quote (key.getD "") ++ ": " ++ prettyAt level v)
        :: prettyMembers level rest

end

/-- A value laid out in lines, without a line end behind it. -/
def pretty (v : Json) : String := prettyAt 0 v

end IncludeBlock.Json
