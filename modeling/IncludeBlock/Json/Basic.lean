import IncludeBlock.Text.Utf8

/-!
# JSON values

Objects keep their members in order and repeated, and a string may be one that
stands for no text (a lone surrogate, bytes that are no UTF-8): where such a
value is passed over, nothing is asked of it.
-/

namespace IncludeBlock

/-- A JSON value. -/
inductive Json where
  | null
  | bool (b : Bool)
  /-- A number written with digits alone. -/
  | natural (n : Nat)
  /-- Any other number, as it is written. -/
  | numeral (literal : String)
  /-- A string, `none` if its literal stands for no text. -/
  | string (text : Option String)
  | array (items : List Json)
  | object (members : List (Option String × Json))
deriving Inhabited

namespace Json

def ofString (s : String) : Json := .string (some s)

/-- The array of what the elements of a list are written as. -/
def ofList {α : Type} (f : α → Json) (as : List α) : Json :=
  .array (as.map f)

def record (members : List (String × Json)) : Json :=
  .object (members.map fun a => (some a.1, a.2))

end Json

end IncludeBlock
