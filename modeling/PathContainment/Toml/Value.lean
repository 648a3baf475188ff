/-!
# Values of a TOML document

A document is a table of values. A table remembers how it came about, since that decides what may still be added to
it: a table that a header only passed through can get a header of its own, a table that dotted keys made can get
more dotted keys, and a table written as a value is complete.
-/

namespace PathContainment.Toml

/-- How a table came about. -/
inductive Standing where
  /-- By a header of its own. -/
  | header
  /-- By a longer header that passes through it. -/
  | implied
  /-- By a dotted key. -/
  | dotted
  /-- By being written between braces. -/
  | written
  deriving DecidableEq, Repr

inductive Value where
  | string (s : String)
  | boolean (b : Bool)
  | integer (n : Int)
  | float (digits : String)
  /-- A date, a time, or both. -/
  | moment (digits : String)
  | array (items : List Value)
  | table (standing : Standing) (entries : List (String × Value))
  /-- The tables of a header in double brackets, the latest one first. -/
  | tables (latest : List (String × Value)) (earlier : List (List (String × Value)))

/-- The entries of a table in the order in which they were made. -/
abbrev Entries := List (String × Value)

namespace Entries

def get? (entries : Entries) (key : String) : Option Value := entries.lookup key

/-- The entries with another value for a key, which is added if it is new. -/
def put : Entries → String → Value → Entries
  | [], key, value => [(key, value)]
  | (k, old) :: rest, key, value => if k = key then (k, value) :: rest else (k, old) :: put rest key value

/-- The entries with a new key, which must not be there. -/
def add (entries : Entries) (key : String) (value : Value) : Option Entries :=
  if (get? entries key).isSome then none else some (entries ++ [(key, value)])

/-- Changes the table that a header leads to. Tables on the way are made where there are none, and of several tables
of one name the latest one is entered. -/
def changeAt (change : Entries → Option Entries) : List String → Entries → Option Entries
  | [], entries => change entries
  | key :: path, entries =>
    match get? entries key with
    | none => (changeAt change path []).map fun sub => put entries key (.table .implied sub)
    | some (.table standing sub) =>
      if standing = .written then none
      else (changeAt change path sub).map fun sub => put entries key (.table standing sub)
    | some (.tables latest earlier) =>
      (changeAt change path latest).map fun latest => put entries key (.tables latest earlier)
    | some _ => none

/-- Adds a value under a dotted key, in a table that dotted keys made if `inDotted` is set. A dotted key enters no
table with a header of its own, and ends in a table that dotted keys made. -/
def addDotted (inDotted : Bool) (key : String) (value : Value) : List String → Entries → Option Entries
  | [], entries => if inDotted then add entries key value else none
  | k :: path, entries =>
    match get? entries k with
    | none => (addDotted true key value path []).map fun sub => put entries k (.table .dotted sub)
    | some (.table standing sub) =>
      if standing = .implied ∨ standing = .dotted then
        (addDotted (standing = .dotted) key value path sub).map fun sub => put entries k (.table standing sub)
      else none
    | some (.tables latest earlier) =>
      (addDotted false key value path latest).map fun latest => put entries k (.tables latest earlier)
    | some _ => none

/-- Adds a value under a key of one or more parts. -/
def addUnder (path : List String) (key : String) (value : Value) (entries : Entries) : Option Entries :=
  if path = [] then add entries key value else addDotted false key value path entries

/-- The table for a header, which must not have had one before. -/
def openHeader (key : String) (entries : Entries) : Option Entries :=
  match get? entries key with
  | none => some (put entries key (.table .header []))
  | some (.table .implied sub) => some (put entries key (.table .header sub))
  | some _ => none

/-- One more table for a header in double brackets. -/
def openNext (key : String) (entries : Entries) : Option Entries :=
  match get? entries key with
  | none => some (put entries key (.tables [] []))
  | some (.tables latest earlier) => some (put entries key (.tables [] (latest :: earlier)))
  | some _ => none

end Entries

end PathContainment.Toml
