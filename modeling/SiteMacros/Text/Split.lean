/-!
# Cutting text

Paths, URLs and patterns are all text with separators in it. What this library
needs from such text is small: the pieces between separators, and a few
questions about how a text begins and ends. Everything is said of lists of
characters, where it is plain recursion; the functions on strings only pack and
unpack.

`join_pieces` is the law the rest leans on: cutting at a separator loses
nothing, because putting the separator back gives the text.
-/

namespace SiteMacros.Text

/-- The pieces of a text between occurrences of `sep`. There is always at least
one, and none of them contains `sep`. -/
def pieces (sep : Char) : List Char → List (List Char)
  | [] => [[]]
  | c :: cs =>
      if c = sep then [] :: pieces sep cs
      else
        match pieces sep cs with
        | [] => [[c]]
        | p :: ps => (c :: p) :: ps

/-- Pieces put together again, with `sep` between neighbours. -/
def joinPieces (sep : Char) : List (List Char) → List Char
  | [] => []
  | [p] => p
  | p :: q :: ps => p ++ sep :: joinPieces sep (q :: ps)

theorem pieces_ne_nil (sep : Char) (cs : List Char) : pieces sep cs ≠ [] := by
  cases cs with
  | nil => simp [pieces]
  | cons c cs =>
      rw [pieces]
      split
      · simp
      · split <;> simp

/-- Cutting and joining is the identity. -/
theorem join_pieces (sep : Char) (cs : List Char) :
    joinPieces sep (pieces sep cs) = cs := by
  induction cs with
  | nil => rfl
  | cons c cs ih =>
      rw [pieces]
      split
      · rename_i h
        cases hp : pieces sep cs with
        | nil => exact absurd hp (pieces_ne_nil sep cs)
        | cons p ps => rw [hp] at ih; simp [joinPieces, ih, h]
      · cases hp : pieces sep cs with
        | nil => exact absurd hp (pieces_ne_nil sep cs)
        | cons p ps =>
            rw [hp] at ih
            cases ps with
            | nil => simpa [joinPieces] using ih
            | cons q qs => simpa [joinPieces] using ih

/-- The pieces of `s` between occurrences of `sep`. -/
def split (sep : Char) (s : String) : List String :=
  (pieces sep s.toList).map String.ofList

/-- What follows `head` in `cs`, if `cs` starts with it. -/
def after? : (head cs : List Char) → Option (List Char)
  | [], cs => some cs
  | _ :: _, [] => none
  | h :: hs, c :: cs => if h = c then after? hs cs else none

theorem after?_append (head rest : List Char) : after? head (head ++ rest) = some rest := by
  induction head with
  | nil => rfl
  | cons c head ih => rw [List.cons_append, after?, if_pos rfl, ih]

theorem eq_append_of_after? {head cs rest : List Char} (h : after? head cs = some rest) :
    cs = head ++ rest := by
  induction head generalizing cs with
  | nil =>
      cases h
      rfl
  | cons c head ih =>
      cases cs with
      | nil => cases h
      | cons d cs =>
          rw [after?] at h
          split at h
          · next hcd => rw [hcd, List.cons_append, ← ih h]
          · cases h

/-- What follows `head` in `s`, if `s` starts with it. -/
def dropStart? (head s : String) : Option String :=
  (after? head.toList s.toList).map String.ofList

/-- What precedes `tail` in `s`, if `s` ends with it. -/
def dropEnd? (tail s : String) : Option String :=
  (after? tail.toList.reverse s.toList.reverse).map fun cs => String.ofList cs.reverse

/-- Does `s` start with `head`? -/
def startsWith (head s : String) : Bool :=
  head.toList.isPrefixOf s.toList

/-- Does `s` end with `tail`? -/
def endsWith (tail s : String) : Bool :=
  tail.toList.reverse.isPrefixOf s.toList.reverse

/-- Does `part` occur in `cs`? -/
def occurs (part : List Char) : List Char → Bool
  | [] => part.isEmpty
  | c :: cs => part.isPrefixOf (c :: cs) || occurs part cs

/-- Does `part` occur in `s`? The empty text occurs everywhere. -/
def contains (part s : String) : Bool :=
  occurs part.toList s.toList

/-- A list without the members of `p` at its end. -/
def dropEndWhile {α : Type} (p : α → Bool) (xs : List α) : List α :=
  (xs.reverse.dropWhile p).reverse

/-- A text without the occurrences of `c` at its end. -/
def trimEnd (c : Char) (s : String) : String :=
  String.ofList (dropEndWhile (· == c) s.toList)

/-- A text without the occurrences of `c` at either end. -/
def trim (c : Char) (s : String) : String :=
  String.ofList (dropEndWhile (· == c) (s.toList.dropWhile (· == c)))

/-- A text said `n` times. -/
def replicate (n : Nat) (s : String) : String :=
  String.join (List.replicate n s)

end SiteMacros.Text
