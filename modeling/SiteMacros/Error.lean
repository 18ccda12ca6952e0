import SiteMacros.Path

/-!
# What can go wrong in an expansion

An error is its cause. How a cause is worded for the reader is said once, in
`MacroError.message`; the word before it in reports, in `MacroError.kind`.
-/

namespace SiteMacros

/-- Why the file system refused. -/
inductive FileFault where
  | notFound
  | exists
  | notDirectory
  | isDirectory
  | invalidArgument
  | notEmpty
  | busy
  /-- A reason given in words. -/
  | other (text : String)
  deriving DecidableEq, Repr

/-- The file system's own words. -/
def FileFault.message : FileFault → String
  | .notFound => "No such file or directory (os error 2)"
  | .exists => "File exists (os error 17)"
  | .notDirectory => "Not a directory (os error 20)"
  | .isDirectory => "Is a directory (os error 21)"
  | .invalidArgument => "Invalid argument (os error 22)"
  | .notEmpty => "Directory not empty (os error 39)"
  | .busy => "Device or resource busy (os error 16)"
  | .other text => text

/-- Why a text is not a glob pattern. -/
inductive GlobFault where
  /-- Three or more stars in a row. -/
  | wildcards
  /-- A `**` that is not a whole component. -/
  | recursiveWildcard
  /-- A `[` that opens no character class. -/
  | range
  deriving DecidableEq, Repr

/-- A fault in a pattern with the number of the character it is at. -/
structure GlobError where
  fault : GlobFault
  position : Nat
  deriving DecidableEq, Repr

def GlobError.message (e : GlobError) : String :=
  "Pattern syntax error near position " ++ toString e.position ++ ": " ++
    match e.fault with
    | .wildcards => "wildcards are either regular \x60*\x60 or recursive \x60**\x60"
    | .recursiveWildcard => "recursive wildcards must form a single path component"
    | .range => "invalid range pattern"

/-- What is wrong with how the macros are set up or called. -/
inductive ConfigurationFault where
  /-- An import pattern that starts with neither a dot nor a slash. -/
  | patternStart (pattern : String)
  | missingPages (dir : Path)
  /-- A default or namespace import from a module of macros. -/
  | namedImportsOnly (source : String)
  | notExported (source name : String)
  /-- A macro that stands anywhere but in the place of a callee. -/
  | indirectUse (callee : String)
  /-- A module that names macros and does not parse; the offset is the place. -/
  | unparsable (file : Path) (offset : Nat)
  | missingArgument (callee what : String)
  | takesNoArguments (callee : String)
  | noGlob
  /-- A reason given in words. -/
  | stated (text : String)
  deriving DecidableEq, Repr

def ConfigurationFault.message : ConfigurationFault → String
  | .patternStart pattern =>
      "import pattern \"" ++ pattern ++ "\" must start with \".\" or \"/\""
  | .missingPages dir => "pages directory " ++ dir.text ++ " does not exist"
  | .namedImportsOnly source => "\"" ++ source ++ "\" only provides named imports"
  | .notExported source name => "\"" ++ source ++ "\" does not export " ++ name
  | .indirectUse callee => callee ++ " is a build-time macro and can only be called directly"
  | .unparsable file offset =>
      "cannot expand macros in " ++ file.text ++ ": unexpected text at byte " ++ toString offset
  | .missingArgument callee what => callee ++ "() requires " ++ what
  | .takesNoArguments callee => callee ++ "() takes no arguments"
  | .noGlob => "loadI18n() needs a glob argument or i18n.default_glob"
  | .stated text => text

/-- What is wrong with the shape of a pages tree. -/
inductive StructuralFault where
  | noMeta (dir : Path)
  | fallbacks (dir : Path) (count : Nat)
  | noIndex (dir : Path)
  /-- A reason given in words. -/
  | stated (text : String)
  deriving DecidableEq, Repr

def StructuralFault.message : StructuralFault → String
  | .noMeta dir => "page " ++ dir.text ++ " has no meta.tsx/meta.ts"
  | .fallbacks dir count =>
      dir.text ++ " has " ++ toString count ++ " [0] fallback pages, at most one is allowed"
  | .noIndex dir => "leaf page " ++ dir.text ++ " has no index.tsx"
  | .stated text => text

/-- Why a module cannot be expanded. -/
inductive MacroError where
  | configuration (fault : ConfigurationFault)
  | structural (fault : StructuralFault)
  /-- An argument, counted from one, that is not a plain string. -/
  | argumentType (callee : String) (position : Nat) (found : String)
  /-- A route is asked for in a file that no loaded pages tree holds. -/
  | unregisteredCallSite (file : Path)
  /-- Values for a route's parameters where the route has none. -/
  | missingParameter (path : String)
  | namespaceNotLoaded (id : String)
  | unreadable (path : Path) (fault : FileFault)
  | badPattern (pattern : String) (error : GlobError)
  deriving DecidableEq, Repr

namespace MacroError

def message : MacroError → String
  | .configuration fault => "configuration error: " ++ fault.message
  | .structural fault => "structural error: " ++ fault.message
  | .argumentType callee position found =>
      callee ++ ": argument " ++ toString position ++
        " must be a string literal, got \x60" ++ found ++ "\x60"
  | .unregisteredCallSite file =>
      "resolveRoute called from " ++ file.text ++ " which is not inside any loaded pages tree"
  | .missingParameter path =>
      "resolveRoute: parameters supplied but path \"" ++ path ++ "\" has no :param segment"
  | .namespaceNotLoaded id =>
      "use translations before load it (namespace \"" ++ id ++ "\")"
  | .unreadable path fault => "failed to read " ++ path.text ++ ": " ++ fault.message
  | .badPattern pattern error =>
      "invalid glob pattern \"" ++ pattern ++ "\": " ++ error.message

/-- The word for the kind of error in reports. -/
def kind : MacroError → String
  | .configuration _ => "ConfigurationError"
  | .structural _ => "StructuralError"
  | .argumentType .. => "ArgumentTypeError"
  | .unregisteredCallSite _ => "UnregisteredCallSiteError"
  | .missingParameter _ => "MissingParameterError"
  | .namespaceNotLoaded _ => "NamespaceNotLoadedError"
  | .unreadable .. => "IoError"
  | .badPattern .. => "ConfigurationError"

/-- Does the error go away once another module has registered its route or
namespace? -/
def awaitsRegistration : MacroError → Bool
  | .unregisteredCallSite _ | .namespaceNotLoaded _ => true
  | _ => false

end MacroError

end SiteMacros
