import SiteMacros.Toml.Scalar

/-!
# Reading documents

A document is read line by line: a header opens a table, and what follows is
assigned in it. Arrays and inline tables may run over several lines. What is
nested is read with a bound on the depth, and the text's own length is enough of
one, since each level takes a character.
-/

namespace SiteMacros.Toml

/-- The text after blanks, line breaks and comments. -/
def gap (inComment : Bool) : List Char → Option (List Char)
  | [] => some []
  | '\r' :: '\n' :: cs => gap false cs
  | c :: cs =>
      if c = '\n' then gap false cs
      else if inComment then if isPlain c then gap true cs else none
      else if isBlank c then gap false cs
      else if c = '#' then gap true cs
      else some (c :: cs)

/-- The text after the end of a line, which only a comment may precede. -/
def endOfLine (inComment : Bool) : List Char → Option (List Char)
  | [] => some []
  | '\r' :: '\n' :: cs => some cs
  | c :: cs =>
      if c = '\n' then some cs
      else if inComment then if isPlain c then endOfLine true cs else none
      else if isBlank c then endOfLine false cs
      else if c = '#' then endOfLine true cs
      else none

/-- May `c` stand in a key without quotes? -/
def isKeyChar (c : Char) : Bool :=
  c.isAlphanum || c == '_' || c == '-'

/-- One part of a key. -/
def keyPart : List Char → Option (String × List Char)
  | '"' :: cs => (basic 0 cs).map fun (text, rest) => (String.ofList text, rest)
  | '\'' :: cs => (literal cs).map fun (text, rest) => (String.ofList text, rest)
  | cs =>
      let part := cs.takeWhile isKeyChar
      if part.isEmpty then none else some (String.ofList part, cs.dropWhile isKeyChar)

/-- A key: parts with dots between them. `bound` is the greatest number of
parts. -/
def key : (bound : Nat) → List Char → Option (List String × List Char)
  | 0, _ => none
  | bound + 1, cs => do
      let (part, rest) ← keyPart (cs.dropWhile isBlank)
      match rest.dropWhile isBlank with
      | '.' :: rest => do
          let (parts, rest) ← key bound rest
          return (part :: parts, rest)
      | rest => return ([part], rest)

mutual

/-- A value. -/
def value : (depth : Nat) → List Char → Option (Toml × List Char)
  | 0, _ => none
  | depth + 1, cs =>
      match cs with
      | '"' :: '"' :: '"' :: cs => (block '"' cs).map fun (t, rest) => (.string (String.ofList t), rest)
      | '\'' :: '\'' :: '\'' :: cs =>
          (block '\'' cs).map fun (t, rest) => (.string (String.ofList t), rest)
      | '"' :: cs => (basic 0 cs).map fun (t, rest) => (.string (String.ofList t), rest)
      | '\'' :: cs => (literal cs).map fun (t, rest) => (.string (String.ofList t), rest)
      | '[' :: cs => (items depth cs).map fun (vs, rest) => (.array vs, rest)
      | '\x7b' :: cs => (fields depth [] cs).map fun (es, rest) => (.table .inline es, rest)
      | cs => word cs

/-- The items of an array, after its bracket or a comma. -/
def items : (depth : Nat) → List Char → Option (List Toml × List Char)
  | 0, _ => none
  | depth + 1, cs => do
      match ← gap false cs with
      | ']' :: rest => return ([], rest)
      | cs => do
          let (v, rest) ← value depth cs
          match ← gap false rest with
          | ']' :: rest => return ([v], rest)
          | ',' :: rest => do
              let (vs, rest) ← items depth rest
              return (v :: vs, rest)
          | _ => none

/-- The entries of an inline table, after its brace or a comma, added to those
before. -/
def fields : (depth : Nat) → Entries → List Char → Option (Entries × List Char)
  | 0, _, _ => none
  | depth + 1, es, cs => do
      match ← gap false cs with
      | '\x7d' :: rest => return (es, rest)
      | cs => do
          let (k, rest) ← key depth cs
          match rest with
          | '=' :: rest => do
              let (v, rest) ← value depth (rest.dropWhile isBlank)
              let es ← assign v .inline false k es
              match ← gap false rest with
              | '\x7d' :: rest => return (es, rest)
              | ',' :: rest => fields depth es rest
              | _ => none
          | _ => none

end

/-- A document as far as it has been read. -/
structure Draft where
  entries : Entries := []
  /-- The path of the table that is open. -/
  here : List String := []

/-- The draft with a table opened by a header. -/
def Draft.enter (d : Draft) (path : List String) (openIt : String → Entries → Option Entries) :
    Option Draft :=
  match path.reverse with
  | [] => none
  | last :: before =>
      (atHeader (openIt last) before.reverse d.entries).map fun es => ⟨es, path⟩

/-- The lines of a document, at most `count` of them. -/
def documentLines : (count : Nat) → Draft → List Char → Option Entries
  | 0, _, _ => none
  | count + 1, d, cs => do
      let bound := cs.length + 1
      match ← gap false cs with
      | [] => return d.entries
      | '[' :: '[' :: cs => do
          let (path, rest) ← key bound cs
          match rest with
          | ']' :: ']' :: rest => documentLines count (← d.enter path openElement) (← endOfLine false rest)
          | _ => none
      | '[' :: cs => do
          let (path, rest) ← key bound cs
          match rest with
          | ']' :: rest => documentLines count (← d.enter path openTable) (← endOfLine false rest)
          | _ => none
      | cs => do
          let (path, rest) ← key bound cs
          match rest with
          | '=' :: rest => do
              let (v, rest) ← value bound (rest.dropWhile isBlank)
              let entries ← atHeader (assign v .header false path) d.here d.entries
              documentLines count { d with entries } (← endOfLine false rest)
          | _ => none

/-- The table that a document spells, if it is one. A byte order mark at the
start does not count. -/
def ofText? (s : String) : Option Entries :=
  let cs := match s.toList with
    | '\ufeff' :: cs => cs
    | cs => cs
  documentLines (cs.length + 1) {} cs

end SiteMacros.Toml
