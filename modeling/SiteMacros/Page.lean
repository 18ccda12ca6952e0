import SiteMacros.PageName
import SiteMacros.Path

/-!
# Pages

A page is a directory of the pages tree together with what it holds under the
names that have a meaning: its metadata, its index view, its layout, and its
directory of translations. Where several names would do, the first of the list
counts. A module whose name says `sync` is imported at once; any other is loaded
when it is needed.

The root of a pages tree is a page without a kind.
-/

namespace SiteMacros

/-- A module of a page directory. -/
structure ModuleRef where
  path : Path
  /-- How the module that loads the pages imports it. -/
  specifier : String
  /-- Is it imported at once? -/
  sync : Bool
  deriving DecidableEq, Repr

/-- What a page directory holds. -/
structure PageImports where
  metadata : Option ModuleRef := none
  index : Option ModuleRef := none
  layout : Option ModuleRef := none
  /-- The directory of translations. -/
  translations : Option Path := none
  deriving DecidableEq, Repr

namespace PageImports

def metadataFiles : List (String × Bool) :=
  [("meta.tsx", true), ("meta.ts", true)]

/-- Names of index views; is each imported at once? -/
def indexFiles : List (String × Bool) :=
  [("index.sync.tsx", true), ("index.tsx", false)]

/-- Names of layouts; is each imported at once? -/
def layoutFiles : List (String × Bool) :=
  [("layout.sync.tsx", true), ("layouts.sync.tsx", true), ("layout.tsx", false),
    ("layouts.tsx", false)]

def translationDirs : List String :=
  ["translations", "translation"]

/-- Does a file of this name change the shape of a page when it comes or
goes? -/
def isConventionFile (name : String) : Bool :=
  (metadataFiles ++ indexFiles ++ layoutFiles).any (·.1 == name)

def isTranslationDir (name : String) : Bool :=
  translationDirs.contains name

end PageImports

/-- A page with the pages below it. -/
structure Page where
  id : String
  /-- The directory's name as it is. -/
  rawName : String
  dir : Path
  /-- None for the root of a pages tree. -/
  kind : Option PageKind
  protect : Bool
  /-- The page's part of the path, without the mark of a parameter. -/
  endpoint : String
  /-- The page's whole path. -/
  route : String
  imports : PageImports
  children : List Page
  deriving Repr

namespace Page

/-- Has the page no pages below it? -/
def isLeaf (p : Page) : Bool :=
  p.children.isEmpty

end Page

namespace PageKind

/-- Pages of the menu come first, hidden pages after them, and the fallback last;
within each, a smaller number comes before a greater one. -/
def rank : PageKind → Nat × Nat
  | .menuItem n => (0, n)
  | .hidden n => (1, n)
  | .fallback => (2, 0)

/-- Is `a` at or before `b` by rank? -/
def le (a b : PageKind) : Bool :=
  decide (a.rank.1 < b.rank.1) || (a.rank.1 == b.rank.1 && decide (a.rank.2 ≤ b.rank.2))

/-- Is it a page of the menu? -/
def isMenuItem : PageKind → Bool
  | .menuItem _ => true
  | _ => false

/-- Things with kinds in the order of their kinds; those of equal rank keep their
places. -/
def ordered {α : Type} (xs : List (PageKind × α)) : List (PageKind × α) :=
  sorted (fun a b => a.1.le b.1) xs

end PageKind

end SiteMacros
