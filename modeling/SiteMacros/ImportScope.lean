import SiteMacros.Text.Quoted
import SiteMacros.Text.Split

/-!
# Import scope

Emitted code refers to imports of the module it is put into. The scope hands out
their local names: the module's own import if it has one of the same binding, a
new one under a name that the module does not use otherwise, and the same one
again when it is asked for a second time. What is new is declared once, in the
order of first request.
-/

namespace SiteMacros

/-- What an import takes from a module. -/
inductive Binding where
  | default
  | named (name : String)
  deriving DecidableEq, Repr

/-- A binding together with the module it is taken from. -/
structure ImportKey where
  source : String
  binding : Binding
  deriving DecidableEq, Repr

/-- An import that the module did not have. -/
structure AddedImport where
  key : ImportKey
  localName : String
  deriving DecidableEq, Repr

/-- The names of a module while expressions are emitted into it. -/
structure ImportScope where
  /-- Every identifier in use. -/
  taken : List String
  /-- The local names of the imports there are. -/
  bound : List (ImportKey × String)
  /-- The imports added so far, in order. -/
  added : List AddedImport := []
  deriving Repr, Inhabited

/-- A named import of a module that the emitted code needs when it runs. -/
structure RuntimeImport where
  name : String
  source : String
  deriving DecidableEq, Repr

namespace ImportScope

/-- A hint made into a part of an identifier. -/
def sanitize (hint : String) : String :=
  String.ofList (hint.toList.map fun c => if c.isAlphanum || c == '_' then c else '_')

/-- The `n`-th name to try for a new import. -/
def candidate (hint : String) (n : Nat) : String :=
  let base := "__pm_" ++ sanitize hint
  if n = 0 then base else base ++ "_" ++ toString n

/-- The first candidate from the `n`-th on that is not in `taken`, if one of the
next `tries` is free; the one after them otherwise. -/
def freshFrom (taken : List String) (hint : String) : (tries n : Nat) → String
  | 0, n => candidate hint n
  | tries + 1, n =>
      if taken.contains (candidate hint n) then freshFrom taken hint tries (n + 1)
      else candidate hint n

/-- A name that is not in `taken`: one candidate more than there are names taken
is always enough. -/
def fresh (taken : List String) (hint : String) : String :=
  freshFrom taken hint taken.length 0

/-- The local name for an import, and the scope in which it is declared. -/
def request (scope : ImportScope) (key : ImportKey) (hint : String) : String × ImportScope :=
  match scope.bound.lookup key with
  | some localName => (localName, scope)
  | none =>
      let localName := fresh scope.taken hint
      (localName, {
        taken := localName :: scope.taken
        bound := (key, localName) :: scope.bound
        added := scope.added ++ [⟨key, localName⟩] })

def requestDefault (source hint : String) : StateM ImportScope String :=
  fun scope => scope.request ⟨source, .default⟩ hint

def requestNamed (source name : String) : StateM ImportScope String :=
  fun scope => scope.request ⟨source, .named name⟩ name

/-- The declaration of an added import, on a line of its own. -/
def declaration (i : AddedImport) : String :=
  let source := Text.quoted i.key.source
  match i.key.binding with
  | .default => "import " ++ i.localName ++ " from " ++ source ++ ";\n"
  | .named name =>
      if name = i.localName then "import \x7b " ++ name ++ " \x7d from " ++ source ++ ";\n"
      else "import \x7b " ++ name ++ " as " ++ i.localName ++ " \x7d from " ++ source ++ ";\n"

def declarations (scope : ImportScope) : String :=
  String.join (scope.added.map declaration)

end ImportScope

end SiteMacros
