import IncludeBlock.Json.Basic
import IncludeBlock.Path

/-!
# Values as records

A record is an object whose members are its fields in any order, or an array
of its fields in their order. Members of other names are passed over; a field
that is given twice is refused. Fields that are missing get their default, and
an array may stop early but not go on too long.
-/

namespace IncludeBlock.Json

/-- Reading a value as something. -/
abbrev Decoder (α : Type) := Json → Option α

/-- The value of a field among the members of an object, which may not be
there, and which may not be there twice. -/
def field? (name : String) (members : List (Option String × Json)) :
    Option (Option Json) :=
  match members.filter (fun a => a.1 == some name) with
  | [] => some none
  | [a] => some (some a.2)
  | _ => none

/-- The values of the named fields of a record, in the order of the names. -/
def fields? (names : List String) : Json → Option (List (Option Json))
  | .object members =>
      if members.all (·.1.isSome) then
        names.mapM fun name => field? name members
      else none
  | .array items =>
      if items.length ≤ names.length then
        some (items.map some ++ List.replicate (names.length - items.length) none)
      else none
  | _ => none

/-- The value of a field, or its default if it is missing. -/
def orDefault {α : Type} (default : α) (decode : Decoder α) :
    Option Json → Option α
  | none => some default
  | some v => decode v

/-- The value of a field that has to be there. -/
def required {α : Type} (decode : Decoder α) : Option Json → Option α
  | none => none
  | some v => decode v

def asBool : Decoder Bool
  | .bool b => some b
  | _ => none

def asNatBelow (bound : Nat) : Decoder Nat
  | .natural n => if n < bound then some n else none
  | _ => none

def asWord : Decoder Nat := asNatBelow (Nat.pow 2 64)

def asString : Decoder String
  | .string s => s
  | _ => none

def asPath : Decoder Path := fun v => (asString v).map Path.mk

/-- A value that may also be null. -/
def asOption {α : Type} (decode : Decoder α) : Decoder (Option α)
  | .null => some none
  | v => (decode v).map some

/-- A list of values of one kind. -/
def asList {α : Type} (decode : Decoder α) : Decoder (List α)
  | .array items => items.mapM decode
  | _ => none

/-- A choice by its name: a string, or an object that gives null to the name
as its only member. -/
def asChoice {α : Type} (choice? : String → Option α) : Decoder α
  | .string s => s.bind choice?
  | .object [(some name, .null)] => choice? name
  | _ => none

end IncludeBlock.Json
