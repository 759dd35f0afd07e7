import IncludeBlock.Text.Utf8

/-!
# Command-line options

An option has a long name behind two dashes and may have a letter behind one.
Letters may stand together; the first one that takes a value takes the rest of
its word or else the next word. Options may stand anywhere up to a word `--`.
-/

namespace IncludeBlock

/-- An option that a program knows. -/
structure OptionSpec where
  long : String
  letter : Option Char
  takesValue : Bool
  mayRepeat : Bool
deriving DecidableEq, Repr

/-- Why words are no options. Names are as they are written. -/
inductive OptionError where
  | unrecognized (name : String)
  | missingValue (name : String)
  | unexpectedValue (name : String)
  | repeated (name : String)
deriving DecidableEq, Repr

def OptionError.message : OptionError → String
  | unrecognized name => "Unrecognized option: '" ++ name ++ "'"
  | missingValue name => "Argument to option '" ++ name ++ "' missing"
  | unexpectedValue name =>
      "Option '" ++ name ++ "' does not take an argument"
  | repeated name => "Option '" ++ name ++ "' given more than once"

/-- The options of a command line, by their long names, and its other words. -/
structure Arguments where
  given : List (String × Option String)
  free : List String
deriving DecidableEq, Repr

namespace Arguments

def isGiven (a : Arguments) (long : String) : Bool :=
  a.given.any (·.1 == long)

def values (a : Arguments) (long : String) : List String :=
  a.given.filterMap fun g => if g.1 = long then g.2 else none

def value? (a : Arguments) (long : String) : Option String :=
  (a.values long).head?

/-! ## Reading -/

/-- What a word is. -/
inductive Word where
  | free
  /-- The end of the options. -/
  | stop
  /-- Options without anything to follow. -/
  | complete (given : List (String × Option String))
  /-- Options, the last of which takes the next word as its value. -/
  | pending (given : List (String × Option String)) (long name : String)

/-- The option of a written name: a letter if the name is one byte long. -/
def find? (specs : List OptionSpec) (name : String) : Option OptionSpec :=
  if Text.byteLength name = 1 then
    specs.find? fun s => s.letter.any fun c => String.singleton c == name
  else specs.find? (·.long == name)

/-- The word of a long name, which may carry a value. -/
def longWord (specs : List OptionSpec) (name : String)
    (value : Option String) : Except OptionError Word :=
  match find? specs name with
  | none => .error (.unrecognized name)
  | some s =>
      match s.takesValue, value with
      | false, none => .ok (.complete [(s.long, none)])
      | false, some _ => .error (.unexpectedValue name)
      | true, some v => .ok (.complete [(s.long, some v)])
      | true, none => .ok (.pending [] s.long name)

/-- The word of letters behind one dash. -/
def letterWord (specs : List OptionSpec)
    (given : List (String × Option String)) :
    List Char → Except OptionError Word
  | [] => .ok (.complete given)
  | c :: cs =>
      match specs.find? (·.letter == some c) with
      | none => .error (.unrecognized (String.singleton c))
      | some s =>
          if s.takesValue then
            -- What follows in the word is the value, however it looks.
            if cs = [] then .ok (.pending given s.long (String.singleton c))
            else .ok (.complete (given ++ [(s.long, some (String.ofList cs))]))
          else letterWord specs (given ++ [(s.long, none)]) cs

/-- Reads one word. -/
def readWord (specs : List OptionSpec) (word : String) :
    Except OptionError Word :=
  match word.toList with
  | ['-', '-'] => .ok .stop
  | '-' :: '-' :: cs =>
      let name := String.ofList (cs.takeWhile (· != '='))
      match cs.dropWhile (· != '=') with
      | [] => longWord specs name none
      | _ :: value => longWord specs name (some (String.ofList value))
  | '-' :: c :: cs => letterWord specs [] (c :: cs)
  | _ => .ok .free

/-- Reads words behind those read before. -/
def readFrom (specs : List OptionSpec) :
    List String → Arguments → Except OptionError Arguments
  | [], a => .ok a
  | word :: words, a =>
      match readWord specs word with
      | .error e => .error e
      | .ok .free => readFrom specs words { a with free := a.free ++ [word] }
      | .ok .stop => .ok { a with free := a.free ++ words }
      | .ok (.complete given) =>
          readFrom specs words { a with given := a.given ++ given }
      | .ok (.pending given long name) =>
          match words with
          | [] => .error (.missingValue name)
          | value :: words =>
              readFrom specs words
                { a with given := a.given ++ given ++ [(long, some value)] }

/-- Reads a command line. An option is given once unless it may repeat. -/
def read (specs : List OptionSpec) (words : List String) :
    Except OptionError Arguments := do
  let a ← readFrom specs words ⟨[], []⟩
  match specs.find? fun s =>
      !s.mayRepeat && (a.given.filter (·.1 == s.long)).length > 1 with
  | some s => throw (.repeated s.long)
  | none => return a

end Arguments

end IncludeBlock
