import Mathlib.Data.List.Find
import SiteMacros.Proofs.PageDirectories
import SiteMacros.Session.Change

/-!
# File trees that hold the same

A file system lists the entries of a directory in an order of its own. So two file trees
can hold the same files and directories without being the same list of entries, and
`Alike` compares them address by address. Whatever reads a directory sorts what it has
found there by name, and with names that are distinct a sorted list is settled by its
members (`sorted_eq_of_mem_iff`). This is how a pages tree comes to be read the same from
two file trees that agree on its directory (`PageTree.load_congr`).

Of a pages tree only some names count, and no texts: the file trees may differ in all
other entries of their directories and still have one shape (`SameShape`,
`PageTree.load_eq_of_sameShape`).
-/

namespace SiteMacros

/-- Lists of named things with the same members are the same in the order of names. -/
theorem sorted_eq_of_mem_iff {α : Type} {xs ys : List (String × α)}
    (hxs : (xs.map (·.1)).Nodup) (hys : (ys.map (·.1)).Nodup) (h : ∀ x, x ∈ xs ↔ x ∈ ys) :
    sorted (fun a b => decide (a.1 ≤ b.1)) xs = sorted (fun a b => decide (a.1 ≤ b.1)) ys := by
  have hordered : ∀ zs : List (String × α),
      (sorted (fun a b => decide (a.1 ≤ b.1)) zs).Pairwise
        fun a b => decide (a.1 ≤ b.1) = true := by
    refine fun zs => sorted_pairwise (fun a b => ?_) (fun a b c hab hbc => ?_) zs
    · simpa using String.le_total a.1 b.1
    · rw [decide_eq_true_eq] at hab hbc ⊢
      exact String.le_trans hab hbc
  have hperm : xs.Perm ys :=
    (List.perm_ext_iff_of_nodup (List.Nodup.of_map _ hxs) (List.Nodup.of_map _ hys)).2 h
  refine List.Perm.eq_of_pairwise (fun a b ha hb hab hba => ?_) (hordered xs) (hordered ys)
    (((sorted_perm _ xs).trans hperm).trans (sorted_perm _ ys).symm)
  rw [(sorted_perm _ xs).mem_iff] at ha
  rw [(sorted_perm _ ys).mem_iff, ← h] at hb
  rw [decide_eq_true_eq] at hab hba
  exact List.inj_on_of_nodup_map hxs ha hb (String.le_antisymm hab hba)

namespace FileTree

/-- A node without its entries. -/
def bare : FileTree → FileTree
  | .file text => .file text
  | .dir _ => .dir []

theorem get?_entry {t : FileTree} {here : List String} {es : List (String × FileTree)}
    (h : t.get? here = some (.dir es)) (hes : (es.map (·.1)).Nodup) {name : String} {c : FileTree}
    (hc : (name, c) ∈ es) : t.get? (here ++ [name]) = some c := by
  rw [get?_append, h]
  show (dir es).get? [name] = some c
  rw [get?, child?_dir, lookup_of_mem hes hc]
  rfl

/-- The trees have the same files, with the same texts, and the same directories. -/
def Alike (a b : FileTree) : Prop :=
  ∀ ns, (a.get? ns).map bare = (b.get? ns).map bare

/-- The trees have the same files and directories at and below a path, which is there in
both. -/
def AgreeBelow (t t' : FileTree) (dir : Path) : Prop :=
  ∃ node node', t.find dir = .ok node ∧ t'.find dir = .ok node' ∧ node.Alike node'

namespace Alike

variable {a b : FileTree}

theorem symm (h : a.Alike b) : b.Alike a :=
  fun ns => (h ns).symm

theorem bare_eq (h : a.Alike b) : a.bare = b.bare :=
  Option.some.inj (h [])

theorem get? (h : a.Alike b) {ns : List String} {c : FileTree} (hc : a.get? ns = some c) :
    ∃ c', b.get? ns = some c' ∧ c.Alike c' := by
  have hthere := h ns
  rw [hc] at hthere
  obtain ⟨c', hc', -⟩ := Option.map_eq_some_iff.1 hthere.symm
  refine ⟨c', hc', fun ms => ?_⟩
  have hbelow := h (ns ++ ms)
  rwa [get?_append, get?_append, hc, hc'] at hbelow

theorem eq_file {text : String} (h : Alike (.file text) b) : b = .file text := by
  have hbare := h.bare_eq
  cases b with
  | file text' => exact hbare.symm
  | dir fs => cases hbare

theorem eq_dir {es : List (String × FileTree)} (h : Alike (.dir es) b) : ∃ fs, b = .dir fs := by
  have hbare := h.bare_eq
  cases b with
  | file text => cases hbare
  | dir fs => exact ⟨fs, rfl⟩

theorem isDirectory_eq (h : a.Alike b) : a.isDirectory = b.isDirectory := by
  cases a with
  | file text => rw [h.eq_file]
  | dir es =>
      obtain ⟨fs, rfl⟩ := h.eq_dir
      rfl

/-- Each entry of a directory has a counterpart of the same name. -/
theorem entry {es fs : List (String × FileTree)} (h : Alike (.dir es) (.dir fs))
    (hes : (es.map (·.1)).Nodup) {name : String} {c : FileTree} (hc : (name, c) ∈ es) :
    ∃ c', (name, c') ∈ fs ∧ c.Alike c' := by
  have hroot : (dir es).get? [] = some (dir es) := rfl
  have hget := get?_entry hroot hes hc
  rw [List.nil_append] at hget
  obtain ⟨c', hc', halike⟩ := h.get? hget
  refine ⟨c', mem_of_lookup ?_, halike⟩
  rw [FileTree.get?, child?_dir] at hc'
  cases hlookup : fs.lookup name with
  | none =>
      rw [hlookup] at hc'
      cases hc'
  | some c'' =>
      rw [hlookup] at hc'
      exact hc'

end Alike

/-- The order of a directory's entries does not matter. -/
theorem alike_of_perm {es fs : List (String × FileTree)} (hes : (es.map (·.1)).Nodup)
    (h : es.Perm fs) : Alike (.dir es) (.dir fs) := by
  have hfs : (fs.map (·.1)).Nodup := (h.map _).nodup_iff.1 hes
  have hlookup : ∀ n, es.lookup n = fs.lookup n := by
    intro n
    ext c
    constructor
    · exact fun hc => lookup_of_mem hfs (h.mem_iff.1 (mem_of_lookup hc))
    · exact fun hc => lookup_of_mem hes (h.mem_iff.2 (mem_of_lookup hc))
  intro ns
  cases ns with
  | nil => rfl
  | cons n ns => rw [get?, get?, child?_dir, child?_dir, hlookup]

/-- Is there a directory at an address, or a file, or nothing? -/
def kindAt? (t : FileTree) (ns : List String) : Option Bool :=
  (t.get? ns).map isDirectory

theorem kindAt?_append {t c : FileTree} {ns : List String} (h : t.get? ns = some c)
    (ms : List String) : t.kindAt? (ns ++ ms) = c.kindAt? ms := by
  rw [kindAt?, kindAt?, get?_append, h]
  rfl

theorem kindAt?_eq_of_bare {t t' : FileTree} {ns : List String}
    (h : (t.get? ns).map bare = (t'.get? ns).map bare) : t.kindAt? ns = t'.kindAt? ns := by
  have hbare := congrArg (Option.map isDirectory) h
  rw [Option.map_map, Option.map_map] at hbare
  have hkind : isDirectory ∘ bare = isDirectory := by
    funext node
    cases node <;> rfl
  rwa [hkind] at hbare

/-- There are texts where there are files. -/
theorem isSome_textAt? (t : FileTree) (ns : List String) :
    (t.textAt? ns).isSome = (t.kindAt? ns == some false) := by
  rw [textAt?, kindAt?]
  rcases t.get? ns with _ | (text | es) <;> rfl

/-- The trees have the same kinds of nodes wherever only names lead that count in a pages
tree. -/
def SameShape (a b : FileTree) : Prop :=
  ∀ ns : List String, (∀ n ∈ ns, Change.isStructural n = true) → a.kindAt? ns = b.kindAt? ns

namespace SameShape

variable {a b : FileTree}

theorem symm (h : a.SameShape b) : b.SameShape a :=
  fun ns hns => (h ns hns).symm

theorem of_alike (h : a.Alike b) : a.SameShape b := by
  intro ns _
  exact kindAt?_eq_of_bare (h ns)

theorem isDirectory_eq (h : a.SameShape b) : a.isDirectory = b.isDirectory :=
  Option.some.inj (h [] nofun)

theorem eq_file {text : String} (h : SameShape (.file text) b) : ∃ text', b = .file text' := by
  have hkind := h.isDirectory_eq
  cases b with
  | file text' => exact ⟨text', rfl⟩
  | dir fs => cases hkind

theorem eq_dir {es : List (String × FileTree)} (h : SameShape (.dir es) b) :
    ∃ fs, b = .dir fs := by
  have hkind := h.isDirectory_eq
  cases b with
  | file text => cases hkind
  | dir fs => exact ⟨fs, rfl⟩

/-- An entry that counts has a counterpart. -/
theorem entry {es fs : List (String × FileTree)} (h : SameShape (.dir es) (.dir fs))
    (hes : (es.map (·.1)).Nodup) {name : String} (hname : Change.isStructural name = true)
    {c : FileTree} (hc : (name, c) ∈ es) : ∃ c', (name, c') ∈ fs ∧ c.SameShape c' := by
  have hget : (dir es).get? [name] = some c := @get?_entry (.dir es) [] es rfl hes name c hc
  have hkind := h [name] (List.forall_mem_singleton.2 hname)
  rw [kindAt?, kindAt?, hget] at hkind
  obtain ⟨c', hget', -⟩ := Option.map_eq_some_iff.1 hkind.symm
  refine ⟨c', mem_of_lookup ?_, fun ns hns => ?_⟩
  · rw [get?, child?_dir] at hget'
    cases hlookup : fs.lookup name with
    | none =>
        rw [hlookup] at hget'
        cases hget'
    | some c'' =>
        rw [hlookup] at hget'
        exact hget'
  · rw [← kindAt?_append hget ns, ← kindAt?_append hget' ns]
    exact h _ (List.forall_mem_cons.2 ⟨hname, hns⟩)

end SameShape

end FileTree

namespace PageTree

open FileTree (Alike AgreeBelow SameShape)

section

variable {es fs : List (String × FileTree)}

theorem hasFile_of_sameShape (h : SameShape (.dir es) (.dir fs)) (hes : (es.map (·.1)).Nodup)
    {name : String} (hname : Change.isStructural name = true) (hfile : HasFile es name) :
    HasFile fs name := by
  obtain ⟨text, htext⟩ := hfile
  obtain ⟨c, hc, hshape⟩ := h.entry hes hname htext
  obtain ⟨text', rfl⟩ := hshape.eq_file
  exact ⟨text', hc⟩

theorem hasDirectory_of_sameShape (h : SameShape (.dir es) (.dir fs))
    (hes : (es.map (·.1)).Nodup) {name : String} (hname : Change.isStructural name = true)
    (hdir : HasDirectory es name) : HasDirectory fs name := by
  obtain ⟨inner, hinner⟩ := hdir
  obtain ⟨c, hc, hshape⟩ := h.entry hes hname hinner
  obtain ⟨inner', rfl⟩ := hshape.eq_dir
  exact ⟨inner', hc⟩

/-- The parts of a page are found alike. -/
theorem importsOf_congr (h : SameShape (.dir es) (.dir fs)) (hes : (es.map (·.1)).Nodup)
    (hfs : (fs.map (·.1)).Nodup) (pattern : ImportPattern) (dir : Path) :
    importsOf pattern dir es = importsOf pattern dir fs := by
  have hfile : ∀ name, Change.isStructural name = true →
      (es.any fun e => e.1 == name && !e.2.isDirectory) =
        fs.any fun e => e.1 == name && !e.2.isDirectory := by
    intro name hname
    rw [Bool.eq_iff_iff, hasFile_iff, hasFile_iff]
    exact ⟨hasFile_of_sameShape h hes hname, hasFile_of_sameShape h.symm hfs hname⟩
  have hdir : ∀ name, Change.isStructural name = true →
      (es.any fun e => e.1 == name && e.2.isDirectory) =
        fs.any fun e => e.1 == name && e.2.isDirectory := by
    intro name hname
    rw [Bool.eq_iff_iff, hasDirectory_iff, hasDirectory_iff]
    exact ⟨hasDirectory_of_sameShape h hes hname, hasDirectory_of_sameShape h.symm hfs hname⟩
  have hlocate : ∀ names : List (String × Bool),
      (∀ n ∈ names, Change.isStructural n.1 = true) →
        importsOf.locate pattern dir es names = importsOf.locate pattern dir fs names := by
    intro names hnames
    rw [importsOf.locate, importsOf.locate,
      List.find?_congr fun n hn => hfile n.1 (hnames n hn)]
  have htranslations : ∀ name ∈ PageImports.translationDirs, Change.isStructural name = true := by
    decide
  rw [importsOf, importsOf, hlocate _ (by decide), hlocate _ (by decide), hlocate _ (by decide),
    List.find?_congr fun name hname => hdir name (htranslations name hname)]

/-- The visits of a directory's pages, each with its name. -/
theorem mem_visitEntries {req : PageRequest} {pattern : ImportPattern} {f : Frame}
    {v : String × Visit Page} :
    v ∈ visitEntries req pattern f es ↔
      ∃ inner child, (v.1, .dir inner) ∈ es ∧ f.child? v.1 = some child ∧
        v.2 = visit req pattern child (.dir inner) := by
  rw [visitEntries_eq_map, List.mem_map]
  constructor
  · rintro ⟨c, hc, rfl⟩
    obtain ⟨inner, hentry, hchild, hnode⟩ := mem_pagesIn.1 hc
    exact ⟨inner, c.2.1, hentry, hchild, by rw [hnode]⟩
  · rintro ⟨inner, child, hentry, hchild, hv⟩
    refine ⟨(v.1, child, .dir inner), mem_pagesIn.2 ⟨inner, hentry, hchild, rfl⟩, ?_⟩
    rw [← hv]

theorem visitEntries_nodup (req : PageRequest) (pattern : ImportPattern) (f : Frame)
    (hes : (es.map (·.1)).Nodup) : ((visitEntries req pattern f es).map (·.1)).Nodup := by
  rw [visitEntries_eq_map, List.map_map]
  exact hes.sublist (pagesIn_names_sublist f es)

end

/-- The name of a page counts. -/
theorem isStructural_of_child? {f child : Frame} {name : String}
    (h : f.child? name = some child) : Change.isStructural name = true := by
  obtain ⟨parsed, hparsed, -⟩ := Option.map_eq_some_iff.1 h
  rw [Change.isStructural, hparsed, Option.isSome_some, Bool.or_true]

/-- A page is read the same from directories of one shape. -/
theorem visit_congr {req : PageRequest} {pattern : ImportPattern} (node : FileTree) :
    ∀ (node' : FileTree) (f : Frame), node.Sound → node'.Sound → node.SameShape node' →
      visit req pattern f node = visit req pattern f node' := by
  induction node using FileTree.inductOn with
  | leaf text =>
      intro node' f _ _ hshape
      obtain ⟨text', rfl⟩ := hshape.eq_file
      rw [visit, visit]
  | node es ih =>
      intro node' f hsound hsound' hshape
      obtain ⟨fs, rfl⟩ := hshape.eq_dir
      have hes := hsound.distinct [] es rfl
      have hfs := hsound'.distinct [] fs rfl
      have hmem : ∀ v, v ∈ visitEntries req pattern f es ↔ v ∈ visitEntries req pattern f fs := by
        intro v
        rw [mem_visitEntries, mem_visitEntries]
        constructor
        · rintro ⟨inner, child, hentry, hchild, hv⟩
          obtain ⟨c, hc, hinner⟩ := hshape.entry hes (isStructural_of_child? hchild) hentry
          obtain ⟨inner', rfl⟩ := hinner.eq_dir
          refine ⟨inner', child, hc, hchild, hv.trans ?_⟩
          exact ih _ hentry _ child (hsound.child hentry) (hsound'.child hc) hinner
        · rintro ⟨inner', child, hentry', hchild, hv⟩
          obtain ⟨c, hc, hinner⟩ := hshape.symm.entry hfs (isStructural_of_child? hchild) hentry'
          obtain ⟨inner, rfl⟩ := hinner.eq_dir
          refine ⟨inner, child, hc, hchild, hv.trans ?_⟩
          exact (ih _ hc _ child (hsound.child hc) (hsound'.child hentry') hinner.symm).symm
      have hbelow : below req pattern f es = below req pattern f fs := by
        rw [below, below, sorted_eq_of_mem_iff (visitEntries_nodup req pattern f hes)
          (visitEntries_nodup req pattern f hfs) hmem]
      rw [visit_dir, visit_dir, importsOf_congr hshape hes hfs, hbelow]

/-- A pages tree is read the same from file trees whose directories have one shape. -/
theorem load_eq_of_sameShape {tree tree' node node' : FileTree} (hsound : node.Sound)
    (hsound' : node'.Sound) {req : PageRequest} {pattern : ImportPattern}
    (hpattern : ImportPattern.resolve req.pattern req.importer req.root = .ok pattern)
    (hnode : tree.find pattern.target = .ok node) (hnode' : tree'.find pattern.target = .ok node')
    (hshape : node.SameShape node') : load tree' req = load tree req := by
  rw [load, load, hpattern]
  dsimp only
  rw [hnode, hnode']
  cases node with
  | file text =>
      obtain ⟨text', rfl⟩ := hshape.eq_file
      rfl
  | dir es =>
      obtain ⟨fs, rfl⟩ := hshape.eq_dir
      dsimp only
      rw [visit_congr _ _ _ hsound hsound' hshape]

/-- A pages tree is read the same from file trees that agree on its directory. -/
theorem load_congr {tree tree' : FileTree} (hsound : tree.Sound) (hsound' : tree'.Sound)
    {req : PageRequest} {pattern : ImportPattern}
    (hpattern : ImportPattern.resolve req.pattern req.importer req.root = .ok pattern)
    (h : tree.AgreeBelow tree' pattern.target) : load tree' req = load tree req := by
  obtain ⟨node, node', hnode, hnode', halike⟩ := h
  exact load_eq_of_sameShape (hsound.find hnode) (hsound'.find hnode') hpattern hnode hnode'
    (.of_alike halike)

end PageTree

end SiteMacros
