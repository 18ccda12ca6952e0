import SiteMacros.Path

/-!
# Commands

A command is read off the arguments of a call: its name, then options and places
in any order. An option that takes a value has it behind an equals sign, directly
behind its letter, or as the next argument, which must not look like an option
itself; each option may be given once. Letters of options may be run together.
After `--` everything is a place.

Whatever does not read as a command this way is a usage error, and which one is of
no matter; a request for help ends the reading.
-/

namespace SiteMacros

/-- What to do. Where no root is given the project around the current directory is
meant. -/
inductive Command where
  | build (root? : Option Path)
  | expand (file : Path) (root? : Option Path)
  | routes (dir : Path) (base : String) (menus : Bool) (root? : Option Path)
  | watch (root? : Option Path)
  | clean (root? : Option Path)
  deriving DecidableEq, Repr

/-- Why there is no command to carry out. -/
inductive CommandRefusal where
  | help
  | usage
  deriving DecidableEq, Repr

namespace Command

/-- What an option takes. -/
inductive OptionKind where
  | flag
  | text
  /-- A text that is not empty. -/
  | path
  | help
  deriving DecidableEq, Repr

/-- An option with its name and its letter. -/
structure OptionRule where
  name : String
  letter : Char
  kind : OptionKind
  deriving DecidableEq, Repr

/-- What has been given so far. -/
structure Given where
  options : List (String × String) := []
  places : List Path := []
  deriving Repr

namespace Given

/-- An option with its value. -/
def option (g : Given) (rule : OptionRule) (value : String) : Except CommandRefusal Given :=
  if (g.options.lookup rule.name).isSome || (rule.kind = .path && value.isEmpty) then
    .error .usage
  else .ok { g with options := (rule.name, value) :: g.options }

/-- One of the places, of which there may be `places`. -/
def place (g : Given) (places : Nat) (value : String) : Except CommandRefusal Given :=
  if value.isEmpty || places ≤ g.places.length then .error .usage
  else .ok { g with places := g.places ++ [⟨value⟩] }

/-- The value of a path option. -/
def path? (g : Given) (name : String) : Option Path :=
  (g.options.lookup name).map (⟨·⟩)

end Given

/-- Does an argument look like an option? A lone dash does not. -/
def looksLikeOption (a : String) : Bool :=
  a != "-" && Text.startsWith "-" a

/-- Read the letters of options. An option at the end whose value is still to come
is returned. -/
def readLetters (rules : List OptionRule) : List Char → Given →
    Except CommandRefusal (Given × Option OptionRule)
  | [], g => .ok (g, none)
  | c :: cs, g =>
      match rules.find? (·.letter == c) with
      | none => .error .usage
      | some rule =>
          match rule.kind, cs with
          | .help, _ => .error .help
          | .flag, cs => do readLetters rules cs (← g.option rule "")
          | _, [] => .ok (g, some rule)
          | _, '=' :: value => do return (← g.option rule (String.ofList value), none)
          | _, value => do return (← g.option rule (String.ofList value), none)

/-- Read the name of an option, and perhaps its value. -/
def readName (rules : List OptionRule) (a : String) (g : Given) :
    Except CommandRefusal (Given × Option OptionRule) :=
  let name := String.ofList (a.toList.takeWhile (· != '='))
  let value? :=
    match a.toList.dropWhile (· != '=') with
    | _ :: value => some (String.ofList value)
    | [] => none
  match rules.find? (·.name == name) with
  | none => .error .usage
  | some rule =>
      match rule.kind, value? with
      | .help, none => .error .help
      | .flag, none => do return (← g.option rule "", none)
      | .help, some _ | .flag, some _ => .error .usage
      | _, some value => do return (← g.option rule value, none)
      | _, none => .ok (g, some rule)

/-- Read options and places. An option that was left open gets its value first;
after `--` there are places only. -/
def readArguments (rules : List OptionRule) (places : Nat) :
    (opened : Option OptionRule) → (placesOnly : Bool) → List String → Given →
      Except CommandRefusal Given
  | some _, _, [], _ => .error .usage
  | none, _, [], g => .ok g
  | some rule, placesOnly, a :: rest, g =>
      if looksLikeOption a then .error .usage
      else do readArguments rules places none placesOnly rest (← g.option rule a)
  | none, true, a :: rest, g => do
      readArguments rules places none true rest (← g.place places a)
  | none, false, a :: rest, g =>
      if a = "--" then readArguments rules places none true rest g
      else
        match Text.dropStart? "--" a with
        | some name => do
            let (g, opened) ← readName rules name g
            readArguments rules places opened false rest g
        | none =>
            if looksLikeOption a then do
              let (g, opened) ← readLetters rules (a.toList.drop 1) g
              readArguments rules places opened false rest g
            else do readArguments rules places none false rest (← g.place places a)

/-- The options that every command has. -/
def commonRules : List OptionRule :=
  [⟨"root", 'r', .path⟩, ⟨"help", 'h', .help⟩]

def routesRules : List OptionRule :=
  ⟨"prefix", 'p', .text⟩ :: ⟨"menus", 'm', .flag⟩ :: commonRules

/-- Read the arguments of a command without places. -/
def readPlain (make : Option Path → Command) (args : List String) :
    Except CommandRefusal Command := do
  let g ← readArguments commonRules 0 none false args {}
  return make (g.path? "root")

def names : List String :=
  ["build", "expand", "routes", "dev", "clean", "help"]

/-- The command that arguments ask for. -/
def ofArguments : List String → Except CommandRefusal Command
  | "build" :: args => readPlain .build args
  | "dev" :: args => readPlain .watch args
  | "clean" :: args => readPlain .clean args
  | "expand" :: args => do
      let g ← readArguments commonRules 1 none false args {}
      match g.places with
      | [file] => return .expand file (g.path? "root")
      | _ => throw .usage
  | "routes" :: args => do
      let g ← readArguments routesRules 1 none false args {}
      match g.places with
      | [dir] =>
          return .routes dir ((g.options.lookup "prefix").getD "/")
            (g.options.lookup "menus").isSome (g.path? "root")
      | _ => throw .usage
  | ["help"] => .error .help
  | "help" :: name :: _ => .error (if names.contains name then .help else .usage)
  | a :: _ => .error (if a = "--help" || Text.startsWith "-h" a then .help else .usage)
  | [] => .error .usage

end Command

end SiteMacros
