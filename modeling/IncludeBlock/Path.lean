import IncludeBlock.Text.Character

/-!
# Paths

A path is a text in which `/` separates names. Everything but the text itself
goes by its components: repeated separators, a separator at the end and a `.`
that is not in front have no meaning, while a `/` or a `.` in front and every
`..` are components of their own. Cutting a path keeps the text of what
remains.
-/

namespace IncludeBlock

/-- A path, compared by its text. The empty path stands for no file. -/
structure Path where
  text : String
deriving DecidableEq, Repr, Inhabited

/-- What a path is made of. -/
inductive Component where
  | root
  | here
  | up
  | name (n : String)
deriving DecidableEq, Repr

namespace Component

/-- The component a piece of a path stands for, if it stands for one. -/
def ofPiece? (p : List Char) : Option Component :=
  if p = [] ∨ p = ['.'] then none
  else if p = ['.', '.'] then some up
  else some (name (String.ofList p))

def text : Component → String
  | root => "/"
  | here => "."
  | up => ".."
  | name n => n

end Component

namespace Path

/-! ## Order -/

instance : LT Path := ⟨fun p q => p.text < q.text⟩

instance (p q : Path) : Decidable (p < q) :=
  inferInstanceAs (Decidable (p.text < q.text))

theorem lt_irrefl (p : Path) : ¬ p < p :=
  String.lt_irrefl p.text

theorem lt_trans {p q r : Path} (h₁ : p < q) (h₂ : q < r) : p < r :=
  String.lt_trans h₁ h₂

theorem lt_asymm {p q : Path} (h : p < q) : ¬ q < p :=
  String.lt_asymm h

theorem eq_of_not_lt {p q : Path} (h₁ : ¬ p < q) (h₂ : ¬ q < p) : p = q := by
  cases p; cases q
  exact congrArg _ (String.le_antisymm h₂ h₁)

def empty : Path := ⟨""⟩

def isEmpty (p : Path) : Bool :=
  p.text == ""

theorem eq_empty_of_isEmpty {p : Path} (h : p.isEmpty = true) : p = empty := by
  cases p
  exact congrArg Path.mk (beq_iff_eq.1 h)

/-! ## Components -/

/-- The pieces of a path between its separators. -/
def namePieces (cs : List Char) : List (List Char) :=
  Text.pieces '/' cs

def components (p : Path) : List Component :=
  match p.text.toList with
  | '/' :: cs => .root :: (namePieces cs).filterMap Component.ofPiece?
  | cs =>
      match namePieces cs with
      | ['.'] :: ps => .here :: ps.filterMap Component.ofPiece?
      | ps => ps.filterMap Component.ofPiece?

/-- Whether a path starts at the root. -/
def isAbsolute (p : Path) : Bool :=
  p.text.toList.head? == some '/'

/-- Whether the components of `q` are the first components of `p`. -/
def startsWith (p q : Path) : Bool :=
  q.components.isPrefixOf p.components

theorem startsWith_iff {p q : Path} :
    p.startsWith q = true ↔ q.components <+: p.components :=
  List.isPrefixOf_iff_prefix

/-- Whether a path lies below a root that is not empty. -/
def isWithin (p root : Path) : Bool :=
  !root.isEmpty && p.startsWith root

/-- Whether the components of `q` are the last components of `p`. -/
def endsWith (p q : Path) : Bool :=
  q.components.isSuffixOf p.components

/-- Whether two paths have the same components. -/
def sameAs (p q : Path) : Bool :=
  p.components == q.components

/-! ## Cutting -/

/-- A piece that is no component when it is not in front. -/
def isSilent (p : List Char) : Bool :=
  p == [] || p == ['.']

/-- Reversed pieces from the last one that is a component. -/
def fromComponent (ps : List (List Char)) : List (List Char) :=
  ps.dropWhile isSilent

/-- The path without its last component, if there is one to take away: the
root and the empty path have no parent. What remains keeps its text. -/
def parent? (p : Path) : Option Path :=
  match p.text.toList with
  | '/' :: cs =>
      match fromComponent (namePieces cs).reverse with
      | [] => none
      | _ :: ps =>
          some ⟨String.ofList
            ('/' :: Text.unpieces '/' (fromComponent ps).reverse)⟩
  | cs =>
      match namePieces cs with
      | [] => none
      | front :: rest =>
          match fromComponent rest.reverse with
          | [] => if front = [] then none else some Path.empty
          | _ :: ps =>
              some ⟨String.ofList
                (Text.unpieces '/' (front :: (fromComponent ps).reverse))⟩

/-- The directory a path lies in, the empty path for a bare name. -/
def directory (p : Path) : Path :=
  p.parent?.getD Path.empty

/-- The last component, if it is a name. -/
def fileName? (p : Path) : Option String :=
  match p.components.getLast? with
  | some (.name n) => some n
  | _ => none

/-- A name cut at its last point: the part before it and the part behind. A
name with no point, or with its only point in front, has no part behind. -/
def cutName (n : List Char) : List Char × Option (List Char) :=
  let tail := n.reverse.takeWhile (· != '.')
  match n.reverse.dropWhile (· != '.') with
  | [] => (n, none)
  | _ :: front =>
      if front = [] then (n, none)
      else (front.reverse, some tail.reverse)

def stem? (p : Path) : Option String :=
  p.fileName?.map fun n => String.ofList (cutName n.toList).1

/-- What follows the last point of the file name. -/
def extension? (p : Path) : Option String :=
  p.fileName?.bind fun n => (cutName n.toList).2.map String.ofList

/-! ## Joining -/

/-- The path `tail` seen from `base`; an absolute tail stands for itself. -/
def join (base : Path) (tail : String) : Path :=
  if tail.toList.head? == some '/' then ⟨tail⟩
  else if base.text.toList.getLast?.all (· == '/') then ⟨base.text ++ tail⟩
  else ⟨base.text ++ "/" ++ tail⟩

end Path

end IncludeBlock
