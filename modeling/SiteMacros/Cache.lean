import SiteMacros.Dependencies
import SiteMacros.Path.Map
import SiteMacros.Text.Digest

/-!
# The module cache

For each expanded module the cache has the fingerprint of the text it was
expanded from, the code, and what it depends on. A module whose text has the
fingerprint still is fresh, unless something that it depends on has changed; the
cache tells which modules depend on what.
-/

namespace SiteMacros

/-- The last expansion of a module. -/
structure CachedModule where
  /-- The digest of the text that was expanded. -/
  fingerprint : String
  dependencies : Dependencies
  output : String
  deriving DecidableEq, Repr

/-- The last expansions of modules, by their paths. -/
structure ModuleCache where
  modules : PathMap CachedModule := {}
  deriving Repr

namespace ModuleCache

def get? (c : ModuleCache) (p : Path) : Option CachedModule :=
  c.modules.get? p

/-- The cache with `m` as the last expansion of the module at `p`. -/
def insert (c : ModuleCache) (p : Path) (m : CachedModule) : ModuleCache :=
  ⟨c.modules.insert p m⟩

def erase (c : ModuleCache) (p : Path) : ModuleCache :=
  ⟨c.modules.erase p⟩

/-- The cache without the modules at or below `dir`. -/
def eraseUnder (c : ModuleCache) (dir : Path) : ModuleCache :=
  ⟨c.modules.eraseUnder dir⟩

def size (c : ModuleCache) : Nat :=
  c.modules.size

/-- Was the module at `p` expanded from a text with this fingerprint? -/
def isFresh (c : ModuleCache) (p : Path) (fingerprint : String) : Bool :=
  (c.get? p).any (·.fingerprint == fingerprint)

/-- The modules whose dependencies have a property, in order. -/
def select (c : ModuleCache) (property : Dependencies → Bool) : List Path :=
  (c.modules.entries.filter fun e => property e.2.dependencies).map (·.1)

def pageDependents (c : ModuleCache) : List Path :=
  c.select (·.pageStructure)

def namespaceDependents (c : ModuleCache) : List Path :=
  c.select (·.namespaces)

/-- The modules that watch a directory around `p`. -/
def watchersOf (c : ModuleCache) (p : Path) : List Path :=
  c.select (·.watches p)

/-- Did the expansion of the module at `p` register anything? -/
def registers (c : ModuleCache) (p : Path) : Bool :=
  (c.get? p).any (·.dependencies.registers)

end ModuleCache

end SiteMacros
