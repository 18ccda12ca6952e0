/-!
# TOML documents

A document is a table of values. While it is read, a table remembers how it came
to be, because that decides what may still be added to it: a header may open a
table that so far only stood on the way to another, but none that has been opened
or that dotted keys have made; a dotted key may add to tables that dotted keys
have made, and to no others; an inline table is complete.
-/

namespace SiteMacros

/-- How a table came to be. -/
inductive TableOrigin where
  /-- On the way to the table of a header. -/
  | implied
  /-- By its own header. -/
  | header
  /-- On the way along a dotted key. -/
  | dotted
  /-- Between braces. -/
  | inline
  deriving DecidableEq, Repr

/-- A value. Of floats and dates only the text is kept. -/
inductive Toml where
  | string (text : String)
  | integer (value : Int)
  | float (text : String)
  | boolean (value : Bool)
  | dateTime (text : String)
  | array (items : List Toml)
  | table (origin : TableOrigin) (entries : List (String × Toml))
  /-- The tables of double-bracket headers, each by its entries, the latest
  last. -/
  | tables (elements : List (List (String × Toml)))
  deriving Repr

namespace Toml

/-- Entries of a table. -/
abbrev Entries := List (String × Toml)

/-- The value under a key. -/
def lookup (key : String) (es : Entries) : Option Toml :=
  List.lookup key es

/-- Entries with `v` under `key`, in the place of what was there. -/
def put (key : String) (v : Toml) : Entries → Entries
  | [] => [(key, v)]
  | (k, w) :: es => if k = key then (k, v) :: es else (k, w) :: put key v es

/-- Go down a header's path and change the entries at its end. Tables on the way
that are not there are implied. Of an array of tables the last is gone into. -/
def atHeader (f : Entries → Option Entries) : List String → Entries → Option Entries
  | [], es => f es
  | k :: ks, es =>
      match lookup k es with
      | none => (atHeader f ks []).map fun inner => put k (.table .implied inner) es
      | some (.table .inline _) => none
      | some (.table origin inner) =>
          (atHeader f ks inner).map fun inner => put k (.table origin inner) es
      | some (.tables elements) =>
          match elements.reverse with
          | [] => none
          | last :: before =>
              (atHeader f ks last).map fun last =>
                put k (.tables (before.reverse ++ [last])) es
      | some _ => none

/-- Open the table `key`. -/
def openTable (key : String) (es : Entries) : Option Entries :=
  match lookup key es with
  | none => some (put key (.table .header []) es)
  | some (.table .implied inner) => some (put key (.table .header inner) es)
  | some _ => none

/-- Open one more table of the array `key`. -/
def openElement (key : String) (es : Entries) : Option Entries :=
  match lookup key es with
  | none => some (put key (.tables [[]]) es)
  | some (.tables elements) => some (put key (.tables (elements ++ [[]])) es)
  | some _ => none

/-- Put a value under a dotted key. `nested` says whether a part of the key has
been gone into already; the table that gets the value then has to be one that
dotted keys have made. -/
def assign (v : Toml) (origin : TableOrigin) (nested : Bool) : List String → Entries → Option Entries
  | [], _ => none
  | [k], es =>
      if nested && origin ≠ .dotted then none
      else
        match lookup k es with
        | none => some (put k v es)
        | some _ => none
  | k :: ks, es =>
      match lookup k es with
      | none => (assign v .dotted true ks []).map fun inner => put k (.table .dotted inner) es
      | some (.table .dotted inner) =>
          (assign v .dotted true ks inner).map fun inner => put k (.table .dotted inner) es
      | some (.table .implied inner) =>
          (assign v .implied true ks inner).map fun inner => put k (.table .implied inner) es
      | some (.tables elements) =>
          match elements.reverse with
          | [] => none
          | last :: before =>
              (assign v .header true ks last).map fun last =>
                put k (.tables (before.reverse ++ [last])) es
      | some _ => none

end Toml

end SiteMacros
