/-!
# Failures

The causes for which an operation gives no result, and what is said of them.
-/

namespace IncludeBlock

/-- Why an operation failed. -/
inductive Failure where
  /-- A file or directory could not be opened or made. -/
  | io
  /-- A text is no JSON or not of the right shape. -/
  | json
  /-- Bytes are no binary snapshot. -/
  | binary
  /-- A directory to scan leads nowhere. -/
  | walk
  | unknownAction (name : String)
  | unknownPolicy (text : String)
  | unknownOrder (text : String)
deriving DecidableEq, Repr

def Failure.message : Failure → String
  | io => "IO error"
  | json => "JSON error"
  | binary => "bincode error"
  | walk => "error walking directory"
  | unknownAction name =>
      "parsing error: unknown organize action `" ++ name ++ "`"
  | unknownPolicy text => "unknown coverage policy `" ++ text ++ "`"
  | unknownOrder text => "unknown include order `" ++ text ++ "`"

end IncludeBlock
