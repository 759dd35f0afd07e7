import IncludeBlock.Failure
import IncludeBlock.Text.Character

/-!
# Coverage policies

What a reduction aims at.
-/

namespace IncludeBlock

/-- The aim of a reduction. -/
inductive Policy where
  /-- As few includes as reach every required file. -/
  | minimalEntries
  /-- One include for every required file. -/
  | minimalDepth
deriving DecidableEq, Repr, Inhabited

namespace Policy

def display : Policy → String
  | minimalEntries => "minimal-entries"
  | minimalDepth => "minimal-depth"

/-- The name of a policy in a settings file. -/
def settingName : Policy → String
  | minimalEntries => "MinimalEntries"
  | minimalDepth => "MinimalDepth"

/-- The policy of a name in a settings file. -/
def ofSettingName? (s : String) : Option Policy :=
  [minimalEntries, minimalDepth].find? (·.settingName == s)

/-- The names by which a user may ask for a policy. -/
def names : List (String × Policy) :=
  [("minimalentries", minimalEntries), ("minimal-entries", minimalEntries),
    ("entries", minimalEntries), ("minimaldepth", minimalDepth),
    ("minimal-depth", minimalDepth), ("depth", minimalDepth)]

/-- The policy that a user asks for; blanks around the name and the case of
its letters do not count. -/
def parse (s : String) : Except Failure Policy :=
  match names.lookup (Text.lower (Text.trim s)) with
  | some policy => .ok policy
  | none => .error (.unknownPolicy s)

end Policy

end IncludeBlock
