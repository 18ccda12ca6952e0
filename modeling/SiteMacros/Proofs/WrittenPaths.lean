import SiteMacros.Proofs.LiteralPatterns
import SiteMacros.Proofs.Specifiers

/-!
# Patterns and the paths that they spell

A pattern is a path, seen from the project's root if it starts with a slash and from the
importing module's directory otherwise (`Path.imported`). It is read twice, as the path of a
directory and as a text to search with, and both readings start from the directory that its
leading steps lead to and from what is left of it then.

The search puts the two together as texts, with one slash between them (`written`), and comes
out where the pattern leads. The path of the directory is joined, and a rest that starts with
a slash is a path of its own there: a second slash behind the leading steps makes the pattern
lead from the root of the file system, and not from the directory.
-/

namespace SiteMacros

open FileTree (stepOf)

/-! ## Steps of texts -/

namespace Path

theorem stepsOf_eq (cs : List Char) :
    stepsOf cs = ((Text.pieces '/' cs).map String.ofList).filterMap stepOf := by
  rw [stepsOf, FileTree.filterMap_inner]

theorem stepsOf_dropEndWhile (cs : List Char) :
    stepsOf (Text.dropEndWhile (· == '/') cs) = stepsOf cs := by
  rw [stepsOf_eq, stepsOf_eq, ImportPattern.filterMap_pieces_dropEndWhile]

theorem components_absolute_steps {p : Path} (h : p.isAbsolute = true) :
    p.components = .root :: stepsOf p.text.toList := by
  obtain ⟨cs, hcs⟩ := p.isAbsolute_iff.1 h
  have hsteps : stepsOf p.text.toList = stepsOf cs := by
    rw [hcs]
    exact stepsOf_slash cs
  rw [components, if_pos h, pieces_absolute hcs, hsteps, stepsOf]

theorem destination_absolute {p : Path} (h : p.isAbsolute = true) :
    p.destination = (stepsOf p.text.toList).foldl Component.follow [] := by
  rw [destination, components_absolute_steps h, List.foldl_cons]
  rfl

/-- A relative path has the names of its text. -/
theorem name_mem_components {p : Path} (h : p.isAbsolute = false) {n : String} :
    .name n ∈ p.components ↔ .name n ∈ stepsOf p.text.toList := by
  obtain ⟨q, qs, hq⟩ := List.exists_cons_of_ne_nil (Text.pieces_ne_nil '/' p.text.toList)
  rw [components, if_neg (by rw [h]; exact Bool.false_ne_true), pieces_relative h hq, stepsOf, hq,
    List.map_cons, first]
  split
  · next hdot =>
      have hhere : (pieces.inner ['.']).2 = none := by decide
      simp [hdot, hhere]
  · rfl

end Path

/-- The last piece is empty if the text is, and if it ends with a separator. -/
theorem Text.getLast?_pieces {sep : Char} {cs : List Char}
    (h : (pieces sep cs).getLast? = some []) : (sep :: cs).getLast? = some sep := by
  induction cs with
  | nil => rfl
  | cons c cs ih =>
      rw [List.getLast?_cons_cons]
      rw [pieces] at h
      by_cases hc : c = sep
      · obtain ⟨q, qs, hq⟩ := List.exists_cons_of_ne_nil (pieces_ne_nil sep cs)
        rw [if_pos hc, hq, List.getLast?_cons_cons, ← hq] at h
        rw [hc]
        exact ih h
      · obtain ⟨q, qs, hq⟩ := List.exists_cons_of_ne_nil (pieces_ne_nil sep cs)
        rw [if_neg hc, hq] at h
        rw [hq] at ih
        cases qs with
        | nil => cases h
        | cons r rs =>
            rw [List.getLast?_cons_cons] at h ih
            cases cs with
            | nil => cases hq
            | cons d ds =>
                have hlast := ih h
                rw [List.getLast?_cons_cons] at hlast ⊢
                exact hlast

theorem Text.endsWith_slash (s : String) :
    endsWith "/" s = true ↔ s.toList.getLast? = some '/' := by
  have hends : endsWith "/" s = ['/'].isPrefixOf s.toList.reverse := rfl
  rw [hends, List.getLast?_eq_head?_reverse]
  cases s.toList.reverse with
  | nil => exact iff_of_false Bool.false_ne_true (by simp)
  | cons c cs =>
      show ('/' == c && [].isPrefixOf cs) = true ↔ some c = some '/'
      rw [Bool.and_eq_true, beq_iff_eq, Option.some.injEq]
      exact ⟨fun h => h.1.symm, fun h => ⟨h.symm, rfl⟩⟩

namespace Glob

/-- Pattern and text both end with a slash or neither does. -/
theorem Spells.getLast?_slash {g w : List Char} (h : Spells g w) :
    g.getLast? = some '/' ↔ w.getLast? = some '/' := by
  induction h with
  | nil => rfl
  | escaped c h ih =>
      rename_i g w
      by_cases hw : w = []
      · rw [hw, h.eq_nil_iff.2 hw, List.append_nil, escapeChar]
        split
        · next hspecial =>
            have hne : c ≠ '/' := by
              rintro rfl
              revert hspecial
              decide
            simp [hne]
        · rfl
      · have hg := mt h.eq_nil_iff.1 hw
        rw [List.getLast?_append_of_ne_nil _ hg, ih]
        cases w with
        | nil => exact absurd rfl hw
        | cons d ds => rw [List.getLast?_cons_cons]
  | plain hc h ih =>
      rename_i c g w
      by_cases hw : w = []
      · rw [hw, h.eq_nil_iff.2 hw]
      · cases w with
        | nil => exact absurd rfl hw
        | cons d ds =>
            cases g with
            | nil => exact absurd (h.eq_nil_iff.1 rfl) hw
            | cons e es => rw [List.getLast?_cons_cons, List.getLast?_cons_cons, ih]

/-- An empty piece at the end does not count. -/
theorem filterMap_cut (s : String) : (cut s).filterMap stepOf = Path.stepsOf s.toList := by
  rw [Path.stepsOf_eq, cut]
  split
  · next hlast =>
      have hsplit : Text.split '/' s = (Text.split '/' s).dropLast ++ [""] := by
        obtain ⟨ds, hds⟩ := List.getLast?_eq_some_iff.1 hlast
        rw [hds, List.dropLast_concat]
      show _ = (Text.split '/' s).filterMap stepOf
      rw [hsplit, List.filterMap_append, List.dropLast_concat]
      exact (List.append_nil _).symm
  · rfl

end Glob

/-- A path that ends with a slash is not that of a file. -/
theorem FileTree.isFile_of_endsWith (t : FileTree) {p : Path}
    (h : Text.endsWith "/" p.text = true) : t.isFile p = false := by
  obtain ⟨ds, hds⟩ := Path.toList_of_endsWith h
  rw [← Bool.not_eq_true, isFile]
  split
  · next text hfile =>
      obtain ⟨hp, here, hreach, hget⟩ := reach_of_find hfile
      have hsteps : steps p = (Text.pieces '/' ds).map String.ofList ++ [""] := by
        rw [steps_eq hp, show p.text.toList = ds ++ '/' :: [] from hds, Text.pieces_append_sep,
          List.map_append]
        rfl
      rw [reach, hsteps, walk_append] at hreach
      cases hwalk : t.walk [] ((Text.pieces '/' ds).map String.ofList) with
      | error e =>
          rw [hwalk] at hreach
          cases hreach
      | ok around =>
          rw [hwalk] at hreach
          have hlast : t.walk around [""] = .ok here := hreach
          have hhere : here = around := walk_eq_follow hlast
          refine absurd hlast (walk_of_not_dir (fun es hes => ?_) here)
          rw [← hhere, hget] at hes
          cases hes
  · exact Bool.false_ne_true

namespace ImportPattern

/-! ## What is left of a pattern -/

theorem stepsOf_dropHere (cs : List Char) : Path.stepsOf (dropHere cs) = Path.stepsOf cs := by
  rw [dropHere.eq_def]
  split
  · exact (Path.stepsOf_here _).symm
  · rfl
  · rfl

/-- The leading steps of a pattern are so many steps up. -/
theorem stepsOf_climb (base : Path) (levels : Nat) (cs : List Char) :
    ∃ k, (climb base levels cs).2.1 = levels + k ∧
      Path.stepsOf cs = List.replicate k .parent ++ Path.stepsOf (climb base levels cs).2.2 := by
  induction base, levels, cs using climb.induct with
  | case1 base levels cs ih =>
      obtain ⟨k, hk, hsteps⟩ := ih
      rw [climb]
      refine ⟨k + 1, by omega, ?_⟩
      rw [show '.' :: '.' :: '/' :: cs = ['.', '.'] ++ '/' :: cs from rfl,
        Path.stepsOf_append_slash, hsteps]
      rfl
  | case2 base levels =>
      rw [climb]
      exact ⟨1, rfl, rfl⟩
  | case3 base levels cs hstep hlast =>
      rw [climb]
      · exact ⟨0, rfl, rfl⟩
      · exact hstep
      · exact hlast

theorem climb_suffix (base : Path) (levels : Nat) (cs : List Char) :
    (climb base levels cs).2.2 <:+ cs := by
  induction base, levels, cs using climb.induct with
  | case1 base levels cs ih =>
      rw [climb]
      exact ih.trans ⟨['.', '.', '/'], rfl⟩
  | case2 base levels =>
      rw [climb]
      exact List.nil_suffix
  | case3 base levels cs hstep hlast =>
      have hsame : (climb base levels cs).2.2 = cs := by
        rw [climb]
        · exact hstep
        · exact hlast
      exact ⟨[], hsame⟩

theorem dropHere_suffix (cs : List Char) : dropHere cs <:+ cs := by
  rw [dropHere.eq_def]
  split
  · exact ⟨['.', '/'], rfl⟩
  · exact List.nil_suffix
  · exact List.suffix_refl cs

section

variable {importer root : Path} {text : String} {p : ImportPattern}

/-- What is left of a pattern is part of it. -/
theorem mem_of_mem_rest (hp : resolve text importer root = .ok p) {c : Char}
    (hc : c ∈ p.rest.toList) : c ∈ text.toList := by
  rw [resolve] at hp
  split at hp
  · next cs hcs =>
      cases hp
      rw [String.toList_ofList] at hc
      rw [hcs]
      exact List.mem_cons_of_mem _ hc
  · next cs hcs =>
      cases hp
      rw [String.toList_ofList] at hc
      rw [hcs]
      refine (climb_suffix importer 0 ('.' :: cs)).subset ((dropHere_suffix _).subset ?_)
      exact (Path.dropEndWhile_isPrefix _ _).subset hc
  · cases hp

/-- A pattern leads from its directory through what is left of it. -/
theorem imported_eq {here : List String} (himporter : importer.Leads here) (hp : resolve text importer root = .ok p) :
    Path.imported importer root text =
      (Path.stepsOf p.rest.toList).foldl Component.follow p.base.destination := by
  rw [resolve] at hp
  split at hp
  · next cs hcs =>
      cases hp
      have htext : text = "/" ++ String.ofList cs := by
        rw [← String.toList_inj, hcs]
        simp
      rw [htext, Path.imported_root]
  · next cs hcs =>
      cases hp
      obtain ⟨k, hk, hbase⟩ := climb_leads himporter 0 ('.' :: cs)
      obtain ⟨k', hk', hsteps⟩ := stepsOf_climb importer 0 ('.' :: cs)
      have heq : k' = k := by omega
      have hrelative : (Path.mk text).isAbsolute = false := by
        rw [Path.isAbsolute, hcs]
        rfl
      rw [Path.imported, hrelative, if_neg Bool.false_ne_true, Path.foldl_pieces, hcs, hsteps, heq,
        List.foldl_append, Path.foldl_follow_up, himporter.destination_eq, hbase.destination_eq,
        String.toList_ofList, Path.stepsOf_dropEndWhile, stepsOf_dropHere]
  · cases hp

end

/-! ## The path that a pattern spells -/

/-- The path of a pattern without wildcards: what is left of it behind its directory. -/
def written (p : ImportPattern) : Path :=
  if p.rest.isEmpty then p.base else ⟨Text.trimEnd '/' p.base.text ++ "/" ++ p.rest⟩

section

variable {p : ImportPattern}

theorem toList_written (h : p.rest ≠ "") :
    p.written.text.toList =
      Text.dropEndWhile (· == '/') p.base.text.toList ++ '/' :: p.rest.toList := by
  rw [written, if_neg (by rwa [String.isEmpty_iff])]
  show (Text.trimEnd '/' p.base.text ++ "/" ++ p.rest).toList = _
  rw [String.toList_append, String.toList_append, Text.trimEnd, String.toList_ofList]
  simp

theorem written_isAbsolute (hbase : p.base.isAbsolute = true) : p.written.isAbsolute = true := by
  by_cases hrest : p.rest = ""
  · rwa [written, if_pos (String.isEmpty_iff.2 hrest)]
  · obtain ⟨cs, hcs⟩ := p.base.isAbsolute_iff.1 hbase
    rw [Path.isAbsolute_iff, toList_written hrest, hcs, Text.dropEndWhile_cons]
    split
    · exact ⟨_, rfl⟩
    · exact ⟨_, rfl⟩

theorem written_components (hbase : p.base.isAbsolute = true) :
    p.written.components = p.base.components ++ Path.stepsOf p.rest.toList := by
  by_cases hrest : p.rest = ""
  · rw [written, if_pos (String.isEmpty_iff.2 hrest), hrest]
    exact (List.append_nil _).symm
  · rw [Path.components_absolute_steps (written_isAbsolute hbase),
      Path.components_absolute_steps hbase,
      toList_written hrest, Path.stepsOf_append_slash, Path.stepsOf_dropEndWhile, List.cons_append]

/-- A rest that does not start with a slash is below the directory. -/
theorem target_components (hbase : p.base.isAbsolute = true)
    (hrest : (Path.mk p.rest).isAbsolute = false) :
    p.target.components = p.written.components := by
  rw [written_components hbase, target]
  split
  · next hempty =>
      rw [String.isEmpty_iff.1 hempty]
      exact (List.append_nil _).symm
  · obtain ⟨habs, before, hpieces, hbefore⟩ := Path.pieces_join hbase hrest
    rw [Path.components, if_pos habs, hpieces, List.filterMap_append, hbefore, Path.components,
      if_pos hbase]
    rfl

/-- A rest that starts with a slash is a path of its own. -/
theorem target_of_slash (hrest : (Path.mk p.rest).isAbsolute = true) :
    p.target.destination = (Path.stepsOf p.rest.toList).foldl Component.follow [] := by
  have hne : p.rest ≠ "" := by
    rintro hempty
    rw [hempty] at hrest
    cases hrest
  rw [target, if_neg (by rwa [String.isEmpty_iff]), Path.join, if_pos hrest,
    Path.destination_absolute hrest]

/-- The pattern that is searched for matches the path that is spelled, if it has no special
characters of its own. -/
theorem globText_spells (hplain : ∀ c ∈ p.rest.toList, Glob.isPlain c = true) :
    Glob.Spells p.globText.toList p.written.text.toList := by
  by_cases hrest : p.rest = ""
  · rw [globText, if_pos (String.isEmpty_iff.2 hrest), written,
      if_pos (String.isEmpty_iff.2 hrest), Glob.escape, String.toList_ofList]
    simpa only [List.append_nil] using Glob.Spells.escape_append p.base.text.toList .nil
  · rw [toList_globText hrest, toList_written hrest]
    exact .escape_append _ (.plain rfl (.of_plain hplain))

/-! ## The search for a path -/

theorem inNodeModules_eq {q : Path} {cs : List Component} (hbase : p.base.isAbsolute = true)
    (hq : q.components = p.base.components ++ cs) :
    inNodeModules p.base q = cs.contains (.name "node_modules") := by
  have hne : p.base.components ≠ [] := by
    rw [Path.components_absolute_steps hbase]
    exact List.cons_ne_nil _ _
  obtain ⟨rel, hrel, habs, hsteps, -⟩ := Path.relativeTo?_below hne hq
  rw [inNodeModules, hrel, Bool.eq_iff_iff, List.contains_iff_mem, List.contains_iff_mem,
    Path.name_mem_components habs, Path.stepsOf, hsteps]

/-- A path is walked piece by piece, from the root of the file system. -/
theorem reach_pieces (t : FileTree) {q : Path} {cs : List Char} (hcs : q.text.toList = '/' :: cs)
    (hend : Text.endsWith "/" q.text = false) :
    t.reach ((Glob.cut (String.ofList cs)).foldl Path.join ⟨"/"⟩) = t.reach q := by
  have hcut : Glob.cut (String.ofList cs) = (Text.pieces '/' cs).map String.ofList := by
    rw [Glob.cut, Text.split, String.toList_ofList, if_neg]
    intro hlast
    rw [List.getLast?_map] at hlast
    obtain ⟨last, hpieces, hempty⟩ := Option.map_eq_some_iff.1 hlast
    rw [String.ofList_eq_empty_iff] at hempty
    rw [hempty] at hpieces
    rw [Text.endsWith, ← Bool.not_eq_true] at hend
    refine hend ((Text.endsWith_slash q.text).2 ?_)
    rw [hcs]
    exact Text.getLast?_pieces hpieces
  have hslash : ∀ w ∈ Glob.cut (String.ofList cs), '/' ∉ w.toList := by
    intro w hw
    rw [hcut] at hw
    obtain ⟨piece, hpiece, rfl⟩ := List.mem_map.1 hw
    rw [String.toList_ofList]
    exact Text.sep_not_mem_pieces hpiece
  have hne : q.text ≠ "" := by
    rintro hempty
    rw [hempty] at hcs
    cases hcs
  have hsteps : FileTree.steps q = [""] ++ (Text.pieces '/' cs).map String.ofList := by
    rw [FileTree.steps_eq hne, hcs, Text.pieces, if_pos rfl]
    rfl
  rw [Glob.reach_foldl_join (by decide) hslash, hcut, FileTree.reach, FileTree.reach, hsteps,
    FileTree.walk_append]
  -- the root of the file system is a directory or nothing is below it
  cases t with
  | file text => rfl
  | dir es => rfl

theorem exists?_of_accepts {t : FileTree} {q : Path} (h : p.accepts t q = true) :
    t.exists? q = true := by
  have hfile : t.isFile q = true := (Bool.and_eq_true_iff.1 h).2
  rw [FileTree.isFile] at hfile
  split at hfile
  · next text hfind => rw [FileTree.exists?, hfind]
  · cases hfile

theorem isFile_pieces (t : FileTree) {q : Path} {cs : List Char} (hcs : q.text.toList = '/' :: cs)
    {found : Path} (hfound : found.text ≠ "")
    (hreach : t.reach found = t.reach q) : t.isFile found = t.isFile q := by
  have hne : q.text ≠ "" := by
    rintro hempty
    rw [hempty] at hcs
    cases hcs
  rw [FileTree.isFile, FileTree.isFile, FileTree.find, FileTree.find,
    FileTree.address_eq_reach hfound, FileTree.address_eq_reach hne, hreach]

theorem findFiles_written {t : FileTree} (hsound : t.Sound) (hbase : p.base.isAbsolute = true)
    (hplain : ∀ c ∈ p.rest.toList, Glob.isPlain c = true) :
    ∃ q : Path, q.components = p.written.components ∧
      p.findFiles t = .ok (if t.isFile p.written &&
        !(Path.stepsOf p.rest.toList).contains (.name "node_modules") then [q] else []) := by
  have hspells := globText_spells hplain
  have habs := written_isAbsolute hbase
  obtain ⟨cs, hcs⟩ := p.written.isAbsolute_iff.1 habs
  rw [hcs] at hspells
  obtain ⟨g, hg, hrest⟩ := hspells.of_slash
  obtain ⟨steps, hsteps, hgoes⟩ := hrest.stepsOf hg
  have hslash : ∀ w ∈ Glob.cut (String.ofList cs), '/' ∉ w.toList := by
    rw [← (componentsOf_absolute hcs).2]
    exact fun w hw => Glob.slash_not_mem_componentsOf hw
  have hend : Text.endsWith "/" p.globText = Text.endsWith "/" p.written.text := by
    rw [Bool.eq_iff_iff, Text.endsWith_slash, Text.endsWith_slash, hcs]
    exact hspells.getLast?_slash
  have hcomponents : ((Glob.cut (String.ofList cs)).foldl Path.join ⟨"/"⟩).components =
      p.written.components := by
    rw [Glob.components_foldl_join (by decide) hslash, Glob.filterMap_cut, String.toList_ofList,
      Path.components_absolute_steps habs, hcs]
    rfl
  refine ⟨_, hcomponents, ?_⟩
  have hfile : p.accepts t ((Glob.cut (String.ofList cs)).foldl Path.join ⟨"/"⟩) =
      (t.isFile p.written && !(Path.stepsOf p.rest.toList).contains (.name "node_modules")) := by
    rw [accepts, inNodeModules_eq hbase (hcomponents.trans (written_components hbase)), hend]
    cases hslashed : Text.endsWith "/" p.written.text with
    | true => rw [t.isFile_of_endsWith hslashed, Bool.not_true, Bool.false_and, Bool.false_and]
    | false =>
        rw [isFile_pieces t hcs (Glob.text_foldl_join_ne_empty (by decide) hslash)
          (reach_pieces t hcs hslashed), Bool.not_false, Bool.true_and, Bool.and_comm]
  rw [findFiles_eq, hsteps]
  dsimp only
  rw [(componentsOf_absolute hg).1, if_pos rfl,
    Glob.filter_walkSteps hsound (by decide) hgoes hslash fun q hq => exists?_of_accepts hq,
    List.filter_singleton, hfile]
  cases t.isFile p.written && !(Path.stepsOf p.rest.toList).contains (.name "node_modules") <;> rfl

/-- A path through names that ends in one is a file if there is one where it leads. -/
theorem isFile_written (t : FileTree) {ns : List String} (hbase : p.base.Leads ns)
    (hnames : ".." ∉ Text.split '/' p.rest) (hend : p.written.EndsInName) :
    t.isFile p.written = (t.textAt? p.written.destination).isSome := by
  obtain ⟨ms, hms⟩ := Path.inner_names_iff.2 hnames
  have hleads : p.written.Leads (ns ++ ms) := by
    have habs := written_isAbsolute hbase.isAbsolute
    have hcomponents := written_components hbase.isAbsolute
    rw [Path.components, if_pos habs, hbase.components_eq, List.cons_append] at hcomponents
    refine ⟨habs, ?_⟩
    rw [(List.cons.inj hcomponents).2, Path.stepsOf, hms, List.map_append]
  rw [Bool.eq_iff_iff, FileTree.isFile_iff hleads hend, hleads.destination_eq]

end

/-! ## The two readings -/

/-- What becomes of a pattern that is written in a module. -/
structure Reading (t : FileTree) (importer root : Path) (text : String) (p : ImportPattern) :
    Prop where
  /-- What is left of the pattern leads from its directory to where the pattern leads. -/
  written : p.written.destination = Path.imported importer root text
  /-- A path is what is searched for if nothing in the pattern is special. It is found if it is
  a file, and then it is all that is found. -/
  found : (∀ c ∈ text.toList, Glob.isPlain c = true) →
    ∃ q : Path, q.components = p.written.components ∧
      p.findFiles t = .ok (if t.isFile p.written &&
        !(Path.stepsOf p.rest.toList).contains (.name "node_modules") then [q] else [])
  /-- With `..` or a slash at the end it matters what the path leads through. -/
  file : ".." ∉ Text.split '/' p.rest → p.written.EndsInName →
    t.isFile p.written = (t.textAt? (Path.imported importer root text)).isSome
  /-- As a directory the pattern is the same path, unless a second slash is behind its leading
  steps. -/
  target : (Path.mk p.rest).isAbsolute = false → p.target.components = p.written.components
  /-- Behind a second slash it leads from the root of the file system. -/
  slash : p.target.destination = Path.imported importer root text ↔
    ((Path.mk p.rest).isAbsolute = true →
      (Path.stepsOf p.rest.toList).foldl Component.follow [] = Path.imported importer root text)

variable {t : FileTree} {importer root : Path} {text : String} {p : ImportPattern}
  {here top : List String}

theorem resolve_reading (hsound : t.Sound) (himporter : importer.Leads here)
    (hroot : root.Leads top) (hp : resolve text importer root = .ok p) :
    Reading t importer root text p := by
  obtain ⟨ns, hbase⟩ := base_leads himporter hroot hp
  have hwritten : p.written.destination = Path.imported importer root text := by
    rw [imported_eq himporter hp, Path.destination, written_components hbase.isAbsolute,
      List.foldl_append, Path.destination]
  refine ⟨hwritten, fun hplain => ?_, fun hnames hend => ?_, target_components hbase.isAbsolute, ?_⟩
  · exact findFiles_written hsound hbase.isAbsolute fun c hc => hplain c (mem_of_mem_rest hp hc)
  · rw [← hwritten, isFile_written t hbase hnames hend]
  · cases hrest : (Path.mk p.rest).isAbsolute with
    | true =>
        rw [target_of_slash hrest]
        exact ⟨fun h _ => h, fun h => h rfl⟩
    | false =>
        rw [Path.destination, target_components hbase.isAbsolute hrest, ← Path.destination]
        exact iff_of_true hwritten fun h => absurd h Bool.false_ne_true

/-- A project with one module. -/
def oneModule : FileTree :=
  .dir [("p", .dir [("src", .dir [("a.ts", .file "")])])]

/-- Slashes and dots between the names make no difference. -/
theorem resolve_reading_beside :
    ∃ p, resolve "./../src//./a.ts" ⟨"/p/src"⟩ ⟨"/p"⟩ = .ok p ∧
      Reading oneModule ⟨"/p/src"⟩ ⟨"/p"⟩ "./../src//./a.ts" p ∧
      p.written.destination = ["p", "src", "a.ts"] ∧
      p.findFiles oneModule = .ok [⟨"/p/src/../src/./a.ts"⟩] := by
  have hsound : oneModule.Sound := by decide +kernel
  have himporter : Path.Leads ⟨"/p/src"⟩ ["p", "src"] := ⟨by decide +kernel, by decide +kernel⟩
  have hroot : Path.Leads ⟨"/p"⟩ ["p"] := ⟨by decide +kernel, by decide +kernel⟩
  have hp : resolve "./../src//./a.ts" ⟨"/p/src"⟩ ⟨"/p"⟩ =
      .ok ⟨⟨"/p/src"⟩, "../src//./a.ts", .here⟩ := by decide +kernel
  exact ⟨_, hp, resolve_reading hsound himporter hroot hp, by decide +kernel, by decide +kernel⟩

/-- With a second slash the directory is one of the file system, and the file that is found is
still below the module's directory. -/
theorem resolve_doubled_slash :
    (resolve ".//a.ts" ⟨"/p/src"⟩ ⟨"/p"⟩).toOption.map (·.target) = some ⟨"/a.ts"⟩ ∧
      Path.imported ⟨"/p/src"⟩ ⟨"/p"⟩ ".//a.ts" = ["p", "src", "a.ts"] ∧
      Path.destination ⟨"/a.ts"⟩ ≠ Path.imported ⟨"/p/src"⟩ ⟨"/p"⟩ ".//a.ts" ∧
      (resolve ".//a.ts" ⟨"/p/src"⟩ ⟨"/p"⟩).toOption.map (·.findFiles oneModule) =
        some (.ok [⟨"/p/src/a.ts"⟩]) := by
  decide +kernel

end ImportPattern

end SiteMacros
