import IncludeBlock.Text.Character

/-!
# Include directives

A directive stands on a line of its own: blanks, `#`, blanks, `include`,
blanks and a spelling between quotes or brackets. The first quote or closing
bracket ends the spelling, whichever of the two opened it.
-/

namespace IncludeBlock

/-- An include as it is written. -/
structure Directive where
  spelling : String
  isQuoted : Bool
deriving DecidableEq, Repr

namespace Directive

/-- The blanks that may stand between the parts of a directive. -/
def isGap (c : Char) : Bool := c == ' ' || c == '\t'

def isClosing (c : Char) : Bool := c == '>' || c == '"'

/-- What follows a word at the start of a text. -/
def afterWord? (word cs : List Char) : Option (List Char) :=
  if word.isPrefixOf cs then some (cs.drop word.length) else none

/-- The spelling that a text starts with, up to a closing character. It has at
least one character, blanks included; those at its ends are left out. -/
def spelling? (cs : List Char) : Option String :=
  let written := cs.takeWhile (!isClosing ·)
  if written = [] ∨ cs.dropWhile (!isClosing ·) = [] then none
  else some (String.ofList (Text.trimChars written))

def ofLine? (line : List Char) : Option Directive := do
  let cs ← afterWord? ['#'] (line.dropWhile isGap)
  let cs ← afterWord? "include".toList (cs.dropWhile isGap)
  match cs.dropWhile isGap with
  | '"' :: cs => (spelling? cs).map (⟨·, true⟩)
  | '<' :: cs => (spelling? cs).map (⟨·, false⟩)
  | _ => none

/-- The directives of a text, in their order. -/
def parse (text : List Char) : List Directive :=
  (Text.pieces '\n' text).filterMap ofLine?

end Directive

end IncludeBlock
