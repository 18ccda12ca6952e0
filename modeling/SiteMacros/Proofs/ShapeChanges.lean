import SiteMacros.Proofs.FlatProjects
import SiteMacros.Proofs.Places

/-!
# Changes that a pages tree can see

The classification of a change looks at the last name of one path, the reading of a pages
tree at whole directories. They agree because the reading never leaves the names that
count: what is below a name that does not count is not looked into, and of a directory
that is looked into only entries with names that count are looked at. So if a change below
a pages directory shows in the tree, then all names from the directory to the changed path
count (`structural_of_load_ne`), the last one among them, and none of them is
`node_modules`.

Two things stand apart from the names. The output tree is not listened to, also where it
lies below a pages directory. And a pattern may be written with `..` through a directory
below the one that it names; it depends on that directory as well, and there the name does
not have to count.
-/

namespace SiteMacros

open FileTree

variable {before after : FileTree} {p : Path} {home ns rel : List String}

namespace FileTree

/-- A path with an address leads to a node. -/
theorem find_of_address {t : FileTree} (h : t.address p = .ok home) :
    ∃ node, t.get? home = some node ∧ t.find p = .ok node := by
  have hp : p.text ≠ "" := by
    intro hempty
    rw [address, steps, hempty] at h
    cases h
  have hreach : t.reach p = .ok home := (address_eq_reach hp).symm.trans h
  obtain ⟨node, hnode⟩ := exists_of_reach hreach
  exact ⟨node, hnode, find_of_reach hp hreach hnode⟩

end FileTree

/-! ## Names that count -/

/-- File trees that differ at and below one address only have one shape elsewhere. -/
theorem structural_of_kinds_ne
    (hsame : ∀ ns, ¬ home ++ rel <+: ns → before.kindAt? ns = after.kindAt? ns)
    (hns : ∀ n ∈ ns, Change.isStructural n = true)
    (hne : before.kindAt? (home ++ ns) ≠ after.kindAt? (home ++ ns)) :
    ∀ n ∈ rel, Change.isStructural n = true := by
  have hbelow : home ++ rel <+: home ++ ns := by
    by_contra hnot
    exact hne (hsame _ hnot)
  intro n hn
  exact hns n (((List.prefix_append_right_inj home).1 hbelow).subset hn)

/-- If a pages tree is read differently after a change below its directory, then all names
from the directory to the changed path count. -/
theorem structural_of_load_ne (hsound : before.Sound) (hsound' : after.Sound)
    (hsame : ∀ ns, ¬ home ++ rel <+: ns → before.kindAt? ns = after.kindAt? ns)
    {req : PageRequest} {pattern : ImportPattern}
    (hpattern : ImportPattern.resolve req.pattern req.importer req.root = .ok pattern)
    (hbefore : before.address pattern.target = .ok home)
    (hafter : after.address pattern.target = .ok home)
    (hne : PageTree.load before req ≠ PageTree.load after req) :
    ∀ n ∈ rel, Change.isStructural n = true := by
  obtain ⟨node, hget, hfind⟩ := find_of_address hbefore
  obtain ⟨node', hget', hfind'⟩ := find_of_address hafter
  by_contra hnot
  refine hne (PageTree.load_eq_of_sameShape (hsound.get? hget) (hsound'.get? hget') hpattern
    hfind hfind' fun ns hns => ?_).symm
  rw [← kindAt?_append hget ns, ← kindAt?_append hget' ns]
  by_contra hkinds
  exact hnot (structural_of_kinds_ne hsame hns hkinds)

/-! ## Classification -/

namespace Change

theorem not_isStructural_nodeModules : isStructural "node_modules" = false := by decide +kernel

theorem fileName?_below {q : Path} (hq : p.Extends rel q) (hrel : rel ≠ []) :
    q.fileName? = some (rel.getLast hrel) := by
  rw [Path.fileName?, hq.components, List.getLast?_append_of_ne_nil _ (by simpa using hrel),
    List.getLast?_map, List.getLast?_eq_some_getLast hrel]
  rfl

/-- A path below a directory that the session cares for is cared for too, if it is outside
the output tree and its names count. -/
theorem concerns_below {s : Session} {q : Path} (hq : p.Extends rel q)
    (hsrc : p.startsWith s.srcDir = true) (hout : q.startsWith s.outDir = false)
    (hmodules : Component.name "node_modules" ∉ p.components)
    (hrel : ∀ n ∈ rel, isStructural n = true) : concerns s q = true := by
  have hsrc' : q.startsWith s.srcDir = true := by
    rw [Path.startsWith, List.isPrefixOf_iff_prefix] at hsrc ⊢
    rw [hq.components]
    exact hsrc.trans (List.prefix_append _ _)
  have hmodules' : q.components.contains (.name "node_modules") = false := by
    rw [← Bool.not_eq_true, List.contains_iff_mem, hq.components, List.mem_append, not_or,
      List.mem_map]
    refine ⟨hmodules, ?_⟩
    rintro ⟨n, hn, heq⟩
    cases heq
    have hcounts := hrel _ hn
    rw [not_isStructural_nodeModules] at hcounts
    cases hcounts
  rw [concerns, hsrc', hout, hmodules']
  rfl

/-- What is added or removed under a name that counts changes the shape. -/
theorem classify_eq_shape {s : Session} {t : FileTree} {q : Path} {c : PathChange} {name : String}
    (hconcerns : concerns s q = true) (hname : q.fileName? = some name)
    (hstructural : isStructural name = true) (hc : c ≠ .modified) :
    classify s t q c = .shape := by
  have hadded : (c != .modified && isStructural name) = true := by
    rw [hstructural, Bool.and_true, bne_iff_ne]
    exact hc
  rw [classify, hname, hconcerns, Option.getD_some, if_neg (by simp), if_pos hadded]

/-- If a path is added or removed below a pages directory among the sources, outside the
output tree, and the pages tree is read differently, then the change is one of shape. The
pattern has to name the directory before and after the change. -/
theorem classify_of_load_ne {s : Session} {dir : Path} {rel : List String}
    {before after t : FileTree} {c : PathChange} (hdir : dir.isAbsolute = true)
    (hsrc : dir.startsWith s.srcDir = true) (hmodules : .name "node_modules" ∉ dir.components)
    (hrel : rel ≠ []) (hnames : ∀ n ∈ rel, Path.IsName n)
    (hout : (dir.below rel).startsWith s.outDir = false)
    (hsound : before.Sound) (hsound' : after.Sound)
    (hsame : ∀ ns, ¬ dir.destination ++ rel <+: ns → before.kindAt? ns = after.kindAt? ns)
    {req : PageRequest} {pattern : ImportPattern}
    (hpattern : ImportPattern.resolve req.pattern req.importer req.root = .ok pattern)
    (hbefore : before.address pattern.target = .ok dir.destination)
    (hafter : after.address pattern.target = .ok dir.destination)
    (hne : PageTree.load before req ≠ PageTree.load after req) (hc : c ≠ .modified) :
    classify s t (dir.below rel) c = .shape := by
  have hbelow := Path.extends_below hdir hnames
  have hstructural := structural_of_load_ne hsound hsound' hsame hpattern hbefore hafter hne
  exact classify_eq_shape (concerns_below hbelow hsrc hout hmodules hstructural)
    (fileName?_below hbelow hrel) (hstructural _ (List.getLast_mem hrel)) hc

/-- The metadata of a page is added, which was missing. -/
theorem classify_added_metadata :
    let s := Session.ofProject
    let dir : Path := ⟨"/p/src/pages"⟩
    let before : FileTree := .dir [("p", .dir [("src", .dir [("pages", .dir [
      ("index.tsx", .file ""), ("[1]a", .dir [("index.tsx", .file "")])])])])]
    let after := before.set ["p", "src", "pages", "[1]a", "meta.ts"] (.file "")
    let req : PageRequest := ⟨"./pages", "/", ⟨"/p"⟩, ⟨"/p/src"⟩, false⟩
    PageTree.load before req ≠ PageTree.load after req ∧
      classify s after (dir.below ["[1]a", "meta.ts"]) .created = .shape := by
  intro s dir before after req
  have hne : PageTree.load before req ≠ PageTree.load after req := fun heq =>
    absurd (congrArg (fun v : Visit PageTree => v.result.toOption.isSome) heq) (by decide +kernel)
  have hhere : before.get? ["p", "src", "pages", "[1]a"] =
      some (.dir [("index.tsx", .file "")]) := by
    decide +kernel
  have hplace : dir.destination ++ ["[1]a", "meta.ts"] =
      ["p", "src", "pages", "[1]a"] ++ ["meta.ts"] := by decide +kernel
  have hsame : ∀ ns, ¬ dir.destination ++ ["[1]a", "meta.ts"] <+: ns →
      before.kindAt? ns = after.kindAt? ns := by
    intro ns hns
    rw [hplace] at hns
    have hset := (bareAt?_set hhere "meta.ts" (.file "")).trans (if_neg hns)
    exact (kindAt?_eq_of_bare hset).symm
  have hpattern : ImportPattern.resolve req.pattern req.importer req.root =
      .ok ⟨⟨"/p/src"⟩, "pages", .here⟩ := by decide +kernel
  exact ⟨hne, classify_of_load_ne (by decide +kernel) (by decide +kernel) (by decide +kernel)
    (by decide) (by decide) (by decide +kernel) (by decide +kernel) (by decide +kernel) hsame
    hpattern (by decide +kernel) (by decide +kernel) hne (by decide)⟩

/-- What is added is not classified as a change of shape, though the pages tree can be read
now and could not before: a page's metadata in the output tree, which lies below the pages
directory, and a directory that the pattern is written through. -/
theorem classify_misses_additions :
    (¬ ∀ (s : Session) (dir : Path) (rel : List String) (before node : FileTree)
      (req : PageRequest) (pattern : ImportPattern),
      s.configuration.validate = .ok () → dir.startsWith s.srcDir = true →
      dir.startsWith s.outDir = false → .name "node_modules" ∉ dir.components → rel ≠ [] →
      before.Sound → before.get? (dir.destination ++ rel) = none →
      ImportPattern.resolve req.pattern req.importer req.root = .ok pattern →
      pattern.target = dir →
      let after := before.set (dir.destination ++ rel) node
      (PageTree.load before req).result.toOption.isSome = false →
      (PageTree.load after req).result.toOption.isSome = true →
      classify s after (dir.below rel) .created = .shape) ∧
    ¬ ∀ (s : Session) (dir : Path) (rel : List String) (before node : FileTree)
      (req : PageRequest) (pattern : ImportPattern),
      s.configuration.validate = .ok () → dir.startsWith s.srcDir = true →
      (dir.below rel).startsWith s.outDir = false → .name "node_modules" ∉ dir.components →
      rel ≠ [] → before.Sound → before.get? (dir.destination ++ rel) = none →
      ImportPattern.resolve req.pattern req.importer req.root = .ok pattern →
      pattern.target.destination = dir.destination →
      let after := before.set (dir.destination ++ rel) node
      (PageTree.load before req).result.toOption.isSome = false →
      (PageTree.load after req).result.toOption.isSome = true →
      classify s after (dir.below rel) .created = .shape := by
  refine ⟨fun hclaim => ?_, fun hclaim => ?_⟩
  · have hshape := hclaim (Session.withRoots "src" "./src/pages/[1]out") ⟨"/p/src/pages"⟩
      ["[1]out", "meta.ts"]
      (.dir [("p", .dir [("src", .dir [("pages", .dir [
        ("index.tsx", .file ""), ("[1]out", .dir [("index.tsx", .file "")])])])])])
      (.file "") ⟨"./pages", "/", ⟨"/p"⟩, ⟨"/p/src"⟩, false⟩ ⟨⟨"/p/src"⟩, "pages", .here⟩
      (by decide +kernel) (by decide +kernel) (by decide +kernel) (by decide +kernel) (by decide)
      (by decide +kernel) (by decide +kernel) (by decide +kernel) (by decide +kernel)
      (by decide +kernel) (by decide +kernel)
    exact absurd hshape (by decide +kernel)
  · have hshape := hclaim Session.ofProject ⟨"/p/src/pages"⟩ ["x"]
      (.dir [("p", .dir [("src", .dir [("pages", .dir [("index.tsx", .file "")])])])])
      .empty ⟨"./pages/x/..", "/", ⟨"/p"⟩, ⟨"/p/src"⟩, false⟩ ⟨⟨"/p/src"⟩, "pages/x/..", .here⟩
      (by decide +kernel) (by decide +kernel) (by decide +kernel) (by decide +kernel) (by decide)
      (by decide +kernel) (by decide +kernel) (by decide +kernel) (by decide +kernel)
      (by decide +kernel) (by decide +kernel)
    exact absurd hshape (by decide +kernel)

end Change

end SiteMacros
