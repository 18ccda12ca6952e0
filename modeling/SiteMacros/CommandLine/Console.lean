/-!
# Lines for a terminal

What a command tells its user, line by line, with colours. How long a command has
taken is known only once it is over, so an output has a place for it.
-/

namespace SiteMacros

/-- A part of a command's output. -/
inductive Output where
  | text (s : String)
  /-- The time that the command took. -/
  | elapsed
  deriving DecidableEq, Repr

namespace Console

/-- A style of text, by its number. -/
def style (n : Nat) : String :=
  "\x1b[" ++ toString n ++ "m"

def styled (n : Nat) (s : String) : String :=
  style n ++ s ++ style 0

def bold : String → String := styled 1

def faint : String → String := styled 2

def line (s : String) : String :=
  s ++ "\n"

/-- The head of a command's output. -/
def banner (title subtitle : String) : String :=
  line "" ++ line ("  " ++ bold ("pagemacro " ++ title) ++ " " ++ faint subtitle) ++ line ""

/-- A step of so many. -/
def step (n total : Nat) (s : String) : String :=
  line ("  " ++ faint ("[" ++ toString n ++ "/" ++ toString total ++ "]") ++ " " ++ s)

/-- Something is begun. -/
def arrow (s : String) : String :=
  line ("  " ++ styled 36 ">" ++ " " ++ s)

/-- A detail of what stands above it. -/
def detail (s : String) : String :=
  line ("      " ++ s)

/-- The beginning of a line on something that is done. -/
def okHead (s : String) : String :=
  "  " ++ styled 32 "ok" ++ " " ++ s

/-- Something is done. -/
def ok (s : String) : String :=
  line (okHead s)

/-- Something has gone wrong. -/
def error (s : String) : String :=
  line ("  " ++ styled 31 "error" ++ " " ++ s)

end Console

end SiteMacros
