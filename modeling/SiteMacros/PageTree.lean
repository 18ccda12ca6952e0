import SiteMacros.FileTree.Access
import SiteMacros.ImportPattern
import SiteMacros.Namespace
import SiteMacros.Page

/-!
# Pages trees

A pages tree is read off a directory. Each directory in it whose name is a page's
is a page; others are not looked into. On the way down a page has to have its
metadata; on the way back up its children are counted: at most one may be the
fallback, and a page without children needs an index view.

A page is *visited* when it and all below it are complete. If the tree has a
fault somewhere, the pages visited before it are complete all the same, so the
reading yields them next to the fault.
-/

namespace SiteMacros

/-- How a pages tree is asked for. -/
structure PageRequest where
  /-- The pattern of the pages directory. -/
  pattern : String
  /-- The path that the root of the tree has. -/
  base : String
  /-- The project's root. -/
  root : Path
  /-- The directory of the module that asks. -/
  importer : Path
  /-- May a page do without metadata? -/
  allowNoMeta : Bool
  deriving Repr

/-- A pages tree, and the pattern that import specifiers come from. -/
structure PageTree where
  root : Page
  pattern : ImportPattern
  deriving Repr

/-- The visited pages in order, and the result. -/
structure Visit (α : Type) where
  visited : List Page
  result : Except MacroError α

namespace PageTree

/-- What is known of a page before its directory is read. -/
structure Frame where
  dir : Path
  rawName : String
  kind : Option PageKind
  protect : Bool
  endpoint : String
  route : String
  deriving Repr

/-- The frame of a child, if its name is a page's. -/
def Frame.child? (f : Frame) (name : String) : Option Frame :=
  (PageName.parse? name).map fun parsed => {
    dir := f.dir.join name
    rawName := name
    kind := some parsed.kind
    protect := parsed.protect
    endpoint := parsed.endpoint
    route := UrlPath.join f.route parsed.segment }

/-- A module's path without the ending of its language. -/
def dropModuleEnding (path : String) : String :=
  ([".tsx", ".ts", ".jsx", ".js"].findSome? fun e => Text.dropEnd? e path).getD path

/-- A module of a page directory. -/
def moduleRef (pattern : ImportPattern) (path : Path) (sync : Bool) : ModuleRef where
  path := path
  specifier :=
    match path.relativeTo? pattern.base with
    | some rel => pattern.specifier (dropModuleEnding rel.toSlashed)
    | none => path.toSlashed
  sync := sync

/-- What a directory with these entries holds. -/
def importsOf (pattern : ImportPattern) (dir : Path) (entries : List (String × FileTree)) :
    PageImports where
  metadata := locate PageImports.metadataFiles
  index := locate PageImports.indexFiles
  layout := locate PageImports.layoutFiles
  translations :=
    (PageImports.translationDirs.find? fun name =>
      entries.any fun e => e.1 == name && e.2.isDirectory).map dir.join
where
  /-- The first of the names that a file has. -/
  locate (names : List (String × Bool)) : Option ModuleRef :=
    (names.find? fun n => entries.any fun e => e.1 == n.1 && !e.2.isDirectory).map
      fun n => moduleRef pattern (dir.join n.1) n.2

/-- The visits of children one after another, up to the first fault. -/
def gather : List (Visit Page) → Visit (List Page)
  | [] => ⟨[], .ok []⟩
  | v :: vs =>
      match v.result with
      | .error e => ⟨v.visited, .error e⟩
      | .ok child =>
          let rest := gather vs
          ⟨v.visited ++ rest.visited, rest.result.map (child :: ·)⟩

/-- Has the page what it needs once its children are known? -/
def check (dir : Path) (imports : PageImports) (children : List Page) : Except MacroError Unit :=
  let fallbacks := (children.filter (·.kind == some .fallback)).length
  if 1 < fallbacks then .error (.structural (.fallbacks dir fallbacks))
  else if children.isEmpty && imports.index.isNone then .error (.structural (.noIndex dir))
  else .ok ()

mutual

/-- Read the page of a directory. -/
def visit (req : PageRequest) (pattern : ImportPattern) (f : Frame) : FileTree → Visit Page
  | .file _ => ⟨[], .error (.unreadable f.dir .notDirectory)⟩
  | .dir entries =>
      let imports := importsOf pattern f.dir entries
      if f.kind.isSome && imports.metadata.isNone && !req.allowNoMeta then
        ⟨[], .error (.structural (.noMeta f.dir))⟩
      else
        let children := gather ((sorted (fun a b => decide (a.1 ≤ b.1))
          (visitEntries req pattern f entries)).map (·.2))
        let page := children.result.bind fun pages =>
          (check f.dir imports pages).map fun _ => {
            id := Namespace.ofDirectory f.dir req.root
            rawName := f.rawName
            dir := f.dir
            kind := f.kind
            protect := f.protect
            endpoint := f.endpoint
            route := f.route
            imports
            children := pages }
        match page with
        | .ok page => ⟨children.visited ++ [page], .ok page⟩
        | .error e => ⟨children.visited, .error e⟩

/-- Read the pages among a directory's entries, each with its name. -/
def visitEntries (req : PageRequest) (pattern : ImportPattern) (f : Frame) :
    List (String × FileTree) → List (String × Visit Page)
  | [] => []
  | (name, node) :: rest =>
      match node.isDirectory, f.child? name with
      | true, some child =>
          (name, visit req pattern child node) :: visitEntries req pattern f rest
      | _, _ => visitEntries req pattern f rest

end

/-- The frame of the root of a pages tree. -/
def rootFrame (req : PageRequest) (dir : Path) : Frame :=
  let rawName := dir.fileName?.getD ""
  { dir, rawName, kind := none, protect := false
    endpoint := PageName.clean rawName
    route := UrlPath.normalize req.base }

/-- Read a pages tree. -/
def load (tree : FileTree) (req : PageRequest) : Visit PageTree :=
  match ImportPattern.resolve req.pattern req.importer req.root with
  | .error e => ⟨[], .error e⟩
  | .ok pattern =>
      match tree.find pattern.target with
      | .ok (.dir entries) =>
          let v := visit req pattern (rootFrame req pattern.target) (.dir entries)
          ⟨v.visited, v.result.map fun root => ⟨root, pattern⟩⟩
      | _ => ⟨[], .error (.configuration (.missingPages pattern.target))⟩

end PageTree

end SiteMacros
