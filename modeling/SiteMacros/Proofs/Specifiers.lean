import SiteMacros.Proofs.RegisteredPages

/-!
# Import specifiers denote files

A module that loads a file imports it by a specifier, which a bundler follows from the
project's root if it starts with a slash and from the module's directory otherwise. The
specifiers that macros write come from two places. One is a pattern: the file is seen
from the directory that the pattern's first steps lead to, and the same steps are put
back in front (`ImportPattern.specifierOf?`). The other is the module's directory: the
specifier goes up to the directory that both are in and down from there
(`relativeSpecifier`).

Both are read back by one function (`Path.imported`), and it gives the file again, up to
the `..` in the file's own path. Neither needs the file to have a plain path, nor the
root: a path below a directory has the directory's steps in front of its own, and steps
in front are all that either of them takes away. The module's directory has to be one
that is reached by names, since a step out of it has to undo a name
(`imported_up`). A pattern may have more such steps than there are directories; they
are counted in the specifier and lost at the root on both sides alike.
-/

namespace SiteMacros

namespace Path

/-- The steps that a text with slashes takes. -/
def stepsOf (cs : List Char) : List Component :=
  ((Text.pieces '/' cs).map pieces.inner).filterMap (·.2)

/-- Where an import specifier leads in a module of directory `importer`. -/
def imported (importer root : Path) (specifier : String) : List String :=
  ((Path.mk specifier).pieces.filterMap (·.2)).foldl Component.follow
    (if (Path.mk specifier).isAbsolute then root.destination else importer.destination)

/-- Does a module of directory `importer` import the file by this specifier? -/
structure Imports (importer root : Path) (specifier : String) (file : Path) : Prop where
  start : "./".toList <+: specifier.toList ∨ "../".toList <+: specifier.toList ∨
    "/".toList <+: specifier.toList
  leads : imported importer root specifier = file.destination

/-! ## Steps of a text -/

theorem stepsOf_append_slash (as bs : List Char) :
    stepsOf (as ++ '/' :: bs) = stepsOf as ++ stepsOf bs := by
  rw [stepsOf, Text.pieces_append_sep, List.map_append, List.filterMap_append]
  rfl

theorem stepsOf_here (cs : List Char) : stepsOf ("./".toList ++ cs) = stepsOf cs :=
  stepsOf_append_slash ['.'] cs

theorem stepsOf_slash (cs : List Char) : stepsOf ("/".toList ++ cs) = stepsOf cs :=
  stepsOf_append_slash [] cs

theorem stepsOf_up (n : Nat) (cs : List Char) :
    stepsOf ((Text.replicate n "../").toList ++ cs) = List.replicate n .parent ++ stepsOf cs := by
  induction n with
  | zero => rfl
  | succ n ih =>
      have htext : (Text.replicate (n + 1) "../").toList ++ cs =
          ['.', '.'] ++ '/' :: ((Text.replicate n "../").toList ++ cs) := by
        rw [Text.replicate, List.replicate_succ, String.join_cons, String.toList_append,
          List.append_assoc]
        rfl
      rw [htext, stepsOf_append_slash, ih]
      rfl

/-- A piece of a path that is spelled is a name or `..`. -/
def spelled : Component → Option String
  | .name s => some s
  | .parent => some ".."
  | .root | .here => none

theorem slashed_eq (cs : List Component) : slashed cs = "/".intercalate (cs.filterMap spelled) := by
  refine congrArg _ (List.filterMap_congr fun c _ => ?_)
  cases c <;> rfl

theorem stepOf_spelled {c : Component} {s : String} (h : spelled c = some s)
    (hname : ∀ n, c = .name n → IsName n) : FileTree.stepOf s = some c ∧ '/' ∉ s.toList := by
  cases c with
  | root => exact nomatch h
  | here => exact nomatch h
  | parent =>
      cases h
      exact ⟨by decide, by decide⟩
  | name n =>
      have hn := hname n rfl
      cases h
      exact ⟨FileTree.stepOf_of_name hn.ne_empty hn.ne_here hn.ne_parent, hn.noSlash⟩

section

variable {cs : List Component} (hnames : ∀ n, .name n ∈ cs → IsName n)

include hnames

theorem pieces_slashed : Text.pieces '/' (slashed cs).toList =
    if cs.filterMap spelled = [] then [[]] else (cs.filterMap spelled).map String.toList := by
  rw [slashed_eq]
  split
  · next hnone =>
      rw [hnone]
      rfl
  · next hsome =>
      refine Text.pieces_intercalate_toList rfl hsome fun s hs => ?_
      obtain ⟨c, hc, hspelled⟩ := List.mem_filterMap.1 hs
      exact (stepOf_spelled hspelled fun n hn => hnames n (hn ▸ hc)).2

theorem stepsOf_slashed : stepsOf (slashed cs).toList = cs.filter fun c => (spelled c).isSome := by
  have hsteps : stepsOf (slashed cs).toList = (cs.filterMap spelled).filterMap FileTree.stepOf := by
    rw [stepsOf, pieces_slashed hnames]
    split
    · next hnone =>
        rw [hnone]
        rfl
    · rw [List.map_map, List.filterMap_map]
      rfl
  rw [hsteps, List.filterMap_filterMap, ← List.filterMap_eq_filter]
  refine List.filterMap_congr fun c hc => ?_
  cases hspelled : spelled c with
  | none => simp [Option.guard, hspelled]
  | some s =>
      rw [Option.bind_some, (stepOf_spelled hspelled fun n hn => hnames n (hn ▸ hc)).1]
      simp [Option.guard, hspelled]

/-- Steps that are written out and read again lead where they led. -/
theorem foldl_stepsOf_slashed (hroot : .root ∉ cs) (here : List String) :
    (stepsOf (slashed cs).toList).foldl Component.follow here =
      cs.foldl Component.follow here := by
  rw [stepsOf_slashed hnames]
  clear hnames
  induction cs generalizing here with
  | nil => rfl
  | cons c cs ih =>
      obtain ⟨hc, hcs⟩ := not_or.1 (mt List.mem_cons.2 hroot)
      cases c with
      | root => exact absurd rfl hc
      | here => exact ih hcs here
      | parent => exact ih hcs _
      | name n => exact ih hcs _

/-- A path that is written out does not start with `./`. -/
theorem dropDots_slashed : ImportPattern.dropDots (slashed cs).toList = (slashed cs).toList := by
  rw [ImportPattern.dropDots]
  intro rest hrest
  have hpieces := pieces_slashed hnames
  rw [show (slashed cs).toList = ['.'] ++ '/' :: rest from hrest, Text.pieces_append_sep] at hpieces
  split at hpieces
  · exact absurd (List.cons.inj hpieces).1 (by decide)
  · have hdot : ['.'] ∈ (cs.filterMap spelled).map String.toList :=
      hpieces ▸ List.mem_append_left _ List.mem_cons_self
    obtain ⟨s, hs, htext⟩ := List.mem_map.1 hdot
    obtain ⟨c, hc, hspelled⟩ := List.mem_filterMap.1 hs
    have hstep := (stepOf_spelled hspelled fun n hn => hnames n (hn ▸ hc)).1
    rw [FileTree.stepOf, htext] at hstep
    cases hstep

end

/-! ## Reading a specifier -/

/-- The `.` at the front of a relative path leads nowhere. -/
theorem foldl_pieces (text : String) (here : List String) :
    ((Path.mk text).pieces.filterMap (·.2)).foldl Component.follow here =
      (stepsOf text.toList).foldl Component.follow here := by
  cases habs : (Path.mk text).isAbsolute with
  | true =>
      obtain ⟨cs, hcs⟩ := (isAbsolute_iff _).1 habs
      rw [pieces_absolute hcs, show text.toList = [] ++ '/' :: cs from hcs, stepsOf_append_slash]
      rfl
  | false =>
      obtain ⟨q, qs, hq⟩ := List.exists_cons_of_ne_nil (Text.pieces_ne_nil '/' text.toList)
      rw [pieces_relative habs hq, stepsOf, hq, List.map_cons, first]
      split
      · next hdot =>
          rw [hdot]
          rfl
      · rfl

/-- The root is the first component or none. -/
theorem root_not_mem_tail {p : Path} {c : Component} {cs : List Component}
    (h : p.components = c :: cs) : .root ∉ cs := by
  intro hroot
  have hpieces : .root ∉ p.pieces.filterMap (·.2) := fun hmem => by
    obtain ⟨q, hq, hsnd⟩ := List.mem_filterMap.1 hmem
    exact p.root_not_mem_pieces (List.mem_map.2 ⟨q, hq, hsnd⟩)
  rw [components] at h
  split at h
  · exact hpieces ((List.cons.inj h).2 ▸ hroot)
  · exact hpieces (h ▸ List.mem_cons_of_mem c hroot)

variable {importer root : Path}

theorem imported_here (text : String) : imported importer root ("./" ++ text) =
    (stepsOf text.toList).foldl Component.follow importer.destination := by
  rw [imported, foldl_pieces, String.toList_append, stepsOf_here, isAbsolute, String.toList_append]
  rfl

theorem imported_root (text : String) : imported importer root ("/" ++ text) =
    (stepsOf text.toList).foldl Component.follow root.destination := by
  rw [imported, foldl_pieces, String.toList_append, stepsOf_slash, isAbsolute, String.toList_append]
  rfl

theorem foldl_follow_up (n : Nat) (here : List String) :
    (List.replicate n .parent).foldl Component.follow here = here.take (here.length - n) := by
  induction n generalizing here with
  | zero => rw [Nat.sub_zero, List.take_length]; rfl
  | succ n ih =>
      rw [List.replicate_succ, List.foldl_cons, ih, Component.follow, List.dropLast_eq_take,
        List.take_take, List.length_take]
      congr 1
      omega

theorem imported_up (n : Nat) (text : String) :
    imported importer root (Text.replicate (n + 1) "../" ++ text) =
      (stepsOf text.toList).foldl Component.follow
        (importer.destination.take (importer.destination.length - (n + 1))) := by
  have hrelative : (Path.mk (Text.replicate (n + 1) "../" ++ text)).isAbsolute = false := by
    rw [isAbsolute, String.toList_append, Text.replicate, List.replicate_succ, String.join_cons,
      String.toList_append]
    rfl
  rw [imported, hrelative, if_neg Bool.false_ne_true, foldl_pieces, String.toList_append,
    stepsOf_up, List.foldl_append, foldl_follow_up]

/-- The directory of a module counts by its components. -/
theorem Imports.congr {importer' : Path} {specifier : String} {file : Path}
    (h : Imports importer root specifier file)
    (himporter : importer.components = importer'.components) :
    Imports importer' root specifier file := by
  obtain ⟨hstart, hleads⟩ := h
  refine ⟨hstart, ?_⟩
  rwa [imported, destination, destination, himporter] at hleads

section

variable {file : Path} {cs : List Component} (hnames : ∀ n, .name n ∈ cs → IsName n)
  (hroot : .root ∉ cs)

include hnames hroot

theorem imports_root (h : file.destination = cs.foldl Component.follow root.destination) :
    Imports importer root ("/" ++ slashed cs) file := by
  refine ⟨.inr (.inr ?_), ?_⟩
  · rw [String.toList_append]
    exact List.prefix_append _ _
  · rw [imported_root, foldl_stepsOf_slashed hnames hroot, h]

theorem imports_here (h : file.destination = cs.foldl Component.follow importer.destination) :
    Imports importer root ("./" ++ slashed cs) file := by
  refine ⟨.inl ?_, ?_⟩
  · rw [String.toList_append]
    exact List.prefix_append _ _
  · rw [imported_here, foldl_stepsOf_slashed hnames hroot, h]

theorem imports_up {n : Nat} (h : file.destination = cs.foldl Component.follow
      (importer.destination.take (importer.destination.length - (n + 1)))) :
    Imports importer root (Text.replicate (n + 1) "../" ++ slashed cs) file := by
  refine ⟨.inr (.inl ?_), ?_⟩
  · rw [String.toList_append, Text.replicate, List.replicate_succ, String.join_cons,
      String.toList_append, List.append_assoc]
    exact List.prefix_append _ _
  · rw [imported_up, foldl_stepsOf_slashed hnames hroot, h]

end

end Path

/-! ## Specifiers of patterns -/

namespace ImportPattern

open SiteMacros.Path

/-- A file that has a specifier is below the pattern's directory, and what is written
out are its steps from there. -/
theorem specifierOf?_eq_some {p : ImportPattern} (hbase : p.base.isAbsolute = true) {file : Path}
    {specifier : String} (h : p.specifierOf? file = some specifier) :
    ∃ cs, specifier = p.specifier (slashed cs) ∧ (∀ n, .name n ∈ cs → IsName n) ∧
      .root ∉ cs ∧ file.destination = cs.foldl Component.follow p.base.destination := by
  obtain ⟨rel, hrel, rfl⟩ := Option.map_eq_some_iff.1 h
  obtain ⟨steps, hsteps⟩ := isAbsolute_iff_components.1 hbase
  have hbelow : file.startsWith p.base = true := by
    rw [relativeTo?] at hrel
    split at hrel
    · next hbelow => exact hbelow
    · cases hrel
  obtain ⟨cs, hcs⟩ := List.isPrefixOf_iff_prefix.1 hbelow
  obtain ⟨rel', hrel', habs, hrest, -⟩ :=
    relativeTo?_below (by rw [hsteps]; exact List.cons_ne_nil _ _) hcs.symm
  obtain rfl := Option.some.inj (hrel.symm.trans hrel')
  refine ⟨cs, by rw [toSlashed, slashed_components habs, hrest], fun n hn => ?_,
    fun hroot => ?_, ?_⟩
  · exact isName_of_mem_components (hcs ▸ List.mem_append_right _ hn)
  · rw [hsteps, List.cons_append] at hcs
    exact root_not_mem_tail hcs.symm (List.mem_append_right steps hroot)
  · rw [destination, ← hcs, List.foldl_append, destination]

/-- A pattern is seen from the root, or from as many directories up as it has steps
up in front. -/
theorem resolve_start {text : String} {importer root : Path} {here : List String}
    (himporter : importer.Leads here) {p : ImportPattern}
    (hp : resolve text importer root = .ok p) :
    p.base = root ∧ p.start = .root ∨
      ∃ k, p.base.Leads (here.take (here.length - k)) ∧
        p.start = if k = 0 then .here else .up k := by
  rw [resolve] at hp
  split at hp
  · cases hp
    exact .inl ⟨rfl, rfl⟩
  · next rest _ =>
      obtain ⟨k, hk, hleads⟩ := climb_leads himporter 0 ('.' :: rest)
      rw [Nat.zero_add] at hk
      cases hp
      exact .inr ⟨k, hleads, by rw [hk]⟩
  · cases hp

theorem specifier_imports {text : String} {importer root : Path} {here : List String}
    (himporter : importer.Leads here) (hroot : root.isAbsolute = true) {p : ImportPattern}
    (hp : resolve text importer root = .ok p) {file : Path} {specifier : String}
    (h : p.specifierOf? file = some specifier) : Imports importer root specifier file := by
  rcases resolve_start himporter hp with ⟨hbase, hstart⟩ | ⟨k, hbase, hstart⟩
  · obtain ⟨cs, rfl, hnames, hnoRoot, hfile⟩ := specifierOf?_eq_some (hbase ▸ hroot) h
    rw [hbase] at hfile
    rw [ImportPattern.specifier, hstart, dropDots_slashed hnames, String.ofList_toList]
    exact imports_root hnames hnoRoot hfile
  · obtain ⟨cs, rfl, hnames, hnoRoot, hfile⟩ := specifierOf?_eq_some hbase.isAbsolute h
    rw [hbase.destination_eq, ← himporter.destination_eq] at hfile
    rw [ImportPattern.specifier, hstart, dropDots_slashed hnames, String.ofList_toList]
    cases k with
    | zero =>
        rw [Nat.sub_zero, List.take_length] at hfile
        exact imports_here hnames hnoRoot hfile
    | succ n => exact imports_up hnames hnoRoot hfile

end ImportPattern

/-! ## Specifiers relative to a module -/

namespace Path

/-- What two lists have in common is removed from both, and no more is in common. -/
theorem dropCommon_spec (as bs : List Component) :
    ∃ common, as = common ++ (dropCommon as bs).1 ∧ bs = common ++ (dropCommon as bs).2 ∧
      ∀ a, (dropCommon as bs).1.head? = some a → (dropCommon as bs).2.head? ≠ some a := by
  induction as, bs using dropCommon.induct with
  | case1 as a bs ih =>
      obtain ⟨common, has, hbs, hdiffer⟩ := ih
      rw [dropCommon, if_pos rfl]
      exact ⟨a :: common, congrArg _ has, congrArg _ hbs, hdiffer⟩
  | case2 a as b bs hne =>
      rw [dropCommon, if_neg hne]
      refine ⟨[], rfl, rfl, fun c hc hc' => hne ?_⟩
      exact (Option.some.inj hc).trans (Option.some.inj hc').symm
  | case3 as bs hnot =>
      rw [dropCommon]
      · refine ⟨[], rfl, rfl, fun c hc hc' => ?_⟩
        obtain ⟨as', rfl⟩ := List.head?_eq_some_iff.1 hc
        obtain ⟨bs', rfl⟩ := List.head?_eq_some_iff.1 hc'
        exact hnot _ _ _ _ rfl rfl
      · exact hnot

/-- The beginning of a path through names leads to the beginning of the names. -/
theorem Leads.foldl_prefix {p : Path} {ns : List String} (h : p.Leads ns)
    {before after : List Component} (hsplit : p.components = before ++ after) :
    before.foldl Component.follow [] = ns.take (ns.length - after.length) := by
  rw [h.components_eq] at hsplit
  cases before with
  | nil =>
      have hlength : after.length = ns.length + 1 := by
        rw [← List.nil_append after, ← hsplit, List.length_cons, List.length_map]
      rw [show ns.length - after.length = 0 by omega]
      rfl
  | cons c before =>
      obtain ⟨rfl, hnames⟩ := List.cons.inj hsplit
      obtain ⟨ks, ms, rfl, rfl, rfl⟩ := List.map_eq_append_iff.1 hnames
      rw [List.foldl_cons, foldl_follow_names, List.length_append, List.length_map,
        Nat.add_sub_cancel, List.take_left]
      rfl

theorem relativeSpecifier_imports {importer : Path} {here : List String}
    (himporter : importer.Leads here) (root file : Path) :
    Imports importer root (relativeSpecifier importer file) file := by
  obtain ⟨common, hups, hdowns, hdiffer⟩ := dropCommon_spec importer.components file.components
  rw [relativeSpecifier]
  generalize dropCommon importer.components file.components = parts at hups hdowns hdiffer ⊢
  obtain ⟨ups, downs⟩ := parts
  dsimp only at hups hdowns hdiffer ⊢
  have hnames : ∀ n, .name n ∈ downs → IsName n := fun n hn =>
    isName_of_mem_components (hdowns ▸ List.mem_append_right common hn)
  have hnoRoot : .root ∉ downs := by
    intro hmem
    cases common with
    | cons c common => exact root_not_mem_tail hdowns (List.mem_append_right common hmem)
    | nil =>
        -- the importer's path starts at the root and nothing is in common with it
        obtain ⟨d, ds, rfl⟩ := List.exists_cons_of_ne_nil (List.ne_nil_of_mem hmem)
        rw [himporter.components_eq] at hups
        rcases List.mem_cons.1 hmem with rfl | hmem
        · exact hdiffer .root (by rw [← List.nil_append ups, ← hups]; rfl) rfl
        · exact root_not_mem_tail hdowns hmem
  have hfile : file.destination = downs.foldl Component.follow
      (importer.destination.take (importer.destination.length - ups.length)) := by
    rw [destination, hdowns, List.foldl_append, himporter.foldl_prefix hups,
      himporter.destination_eq]
  cases ups with
  | nil =>
      rw [List.length_nil, Nat.sub_zero, List.take_length] at hfile
      exact imports_here hnames hnoRoot hfile
  | cons u us => exact imports_up hnames hnoRoot hfile

end Path

/-! ## Specifiers of translations -/

namespace Translations

theorem specifier_of_mem {languages : Option (List String)} {specifierOf : Path → String}
    {files : List Path} {r : Resource} (h : r ∈ resourcesOf languages specifierOf files) :
    r.specifier = specifierOf r.path := by
  obtain ⟨path, -, hpath⟩ := List.mem_filterMap.1 h
  split at hpath
  · split at hpath
    · cases hpath
      rfl
    · exact nomatch hpath
  · exact nomatch hpath

theorem find_imports {tree : FileTree} {req : Request} {here : List String}
    (himporter : req.importer.Leads here) (hroot : req.root.isAbsolute = true)
    {found : Translations} (h : find tree req = .ok found) :
    ∀ r ∈ found.resources, Path.Imports req.importer req.root r.specifier r.path := by
  rw [find] at h
  obtain ⟨pattern, hpattern, h⟩ := Expansion.exists_of_bind_eq_ok h
  obtain ⟨files, -, h⟩ := Expansion.exists_of_bind_eq_ok h
  dsimp only [pure, Except.pure] at h
  obtain rfl := Except.ok.inj h
  intro r hr
  rw [specifier_of_mem hr]
  have hrelative := Path.relativeSpecifier_imports himporter req.root r.path
  split
  · next hsame =>
      cases hspecifier : pattern.specifierOf? r.path with
      | none => exact hrelative
      | some specifier =>
          -- the pattern is seen from the directory in the spelling that the request has
          have hcomponents := Path.same_iff.1 hsame
          have hdirectory := Path.leads_iff.2 (hcomponents.trans himporter.components_eq)
          exact (ImportPattern.specifier_imports hdirectory hroot hpattern hspecifier).congr
            hcomponents
  · exact hrelative

theorem ofPage_imports {importer root : Path} {here : List String} (himporter : importer.Leads here)
    (hroot : root.isAbsolute = true) {text : String} {pages : ImportPattern}
    (hpages : ImportPattern.resolve text importer root = .ok pages) {tree : FileTree} {id : String}
    {dir : Path} {languages : Option (List String)} {found : Translations}
    (h : ofPage tree id dir languages (fun path =>
      (pages.specifierOf? path).getD (relativeSpecifier importer path)) = .ok found) :
    ∀ r ∈ found.resources, Path.Imports importer root r.specifier r.path := by
  rw [ofPage] at h
  obtain ⟨files, -, h⟩ := Expansion.exists_of_bind_eq_ok h
  obtain rfl := Except.ok.inj h
  intro r hr
  obtain ⟨fs, -, hr⟩ := List.mem_flatMap.1 ((sorted_perm _ _).mem_iff.1 hr)
  rw [specifier_of_mem hr]
  cases hspecifier : pages.specifierOf? r.path with
  | none => exact Path.relativeSpecifier_imports himporter root r.path
  | some specifier => exact ImportPattern.specifier_imports himporter hroot hpages hspecifier

end Translations

/-- In a module whose directory is reached by names, each specifier leads to the file that
it was made from, and starts with a slash or a dot: the specifier of a file below the
directory of a pattern, that of a file seen from the module, those of the translations
that a module asks for, whatever directory it asks from, and those of the translations of
pages. -/
theorem specifiers_import_files {importer root : Path} {here : List String}
    (himporter : importer.Leads here) (hroot : root.isAbsolute = true) :
    (∀ text pattern file specifier, ImportPattern.resolve text importer root = .ok pattern →
      pattern.specifierOf? file = some specifier → importer.Imports root specifier file) ∧
    (∀ file, importer.Imports root (relativeSpecifier importer file) file) ∧
    (∀ tree (req : Translations.Request) found, req.importer = importer → req.root = root →
      Translations.find tree req = .ok found →
        ∀ r ∈ found.resources, importer.Imports root r.specifier r.path) ∧
    ∀ tree (req : PageRequest) pages id dir languages found, req.importer = importer →
      req.root = root → (PageTree.load tree req).result = .ok pages →
        Translations.ofPage tree id dir languages (fun path =>
          (pages.pattern.specifierOf? path).getD (relativeSpecifier importer path)) = .ok found →
        ∀ r ∈ found.resources, importer.Imports root r.specifier r.path := by
  refine ⟨fun _ _ _ _ hpattern h => ImportPattern.specifier_imports himporter hroot hpattern h,
    Path.relativeSpecifier_imports himporter root, ?_, ?_⟩
  · rintro tree req found rfl rfl h
    exact Translations.find_imports himporter hroot h
  · rintro tree req pages id dir languages found rfl rfl hload h
    obtain ⟨-, hpattern, -⟩ := PageTree.load_eq_ok hload
    exact Translations.ofPage_imports himporter hroot hpattern h

/-- A pattern with more steps up than there are directories, and a file whose own path
has a step up. -/
theorem specifiers_import_files_climbing :
    (∃ pattern, ImportPattern.resolve "../../../../x/*.yaml" ⟨"/p/src/app"⟩ ⟨"/p"⟩ = .ok pattern ∧
      pattern.specifierOf? ⟨"/x/en.yaml"⟩ = some "../../../../x/en.yaml") ∧
    (Path.mk "/p/src/app").Imports ⟨"/p"⟩ "../../../../x/en.yaml" ⟨"/x/en.yaml"⟩ ∧
    (Path.mk "/p/src/app").Imports ⟨"/p"⟩ "../../en.yaml" ⟨"/p/src/../en.yaml"⟩ := by
  have hpattern : ImportPattern.resolve "../../../../x/*.yaml" ⟨"/p/src/app"⟩ ⟨"/p"⟩ =
      .ok ⟨⟨"/"⟩, "x/*.yaml", .up 4⟩ := by
    decide +kernel
  have hspecifier : (ImportPattern.mk ⟨"/"⟩ "x/*.yaml" (.up 4)).specifierOf? ⟨"/x/en.yaml"⟩ =
      some "../../../../x/en.yaml" := by
    decide +kernel
  have hrelative : relativeSpecifier ⟨"/p/src/app"⟩ ⟨"/p/src/../en.yaml"⟩ = "../../en.yaml" := by
    decide +kernel
  obtain ⟨hfound, hseen, -⟩ := @specifiers_import_files ⟨"/p/src/app"⟩ ⟨"/p"⟩ ["p", "src", "app"]
    (Path.leads_iff.2 (by decide +kernel)) rfl
  refine ⟨⟨_, hpattern, hspecifier⟩, hfound _ _ _ _ hpattern hspecifier, ?_⟩
  rw [← hrelative]
  exact hseen _

end SiteMacros
