import SiteMacros.Proofs.FailedLoads
import SiteMacros.Proofs.SearchBases
import SiteMacros.Proofs.Watched

/-!
# Files of translations

Translations are loaded from files that are found in two ways. A page has a directory for
them, which is searched twice, once for each ending of a YAML file, and the findings are put
together and sorted. A module gives a pattern of its own, and the findings stay in the order
of the search. In both a file counts by its name, which is a tag and an ending, and by the
tag, which has to be wanted (`Counts`).

So a page loads the files that lie in its directory and count, each once and in the order of
their paths (`AreFilesOf`), because the two searches have no file in common. A module loads
the files that its search finds and that count (`Selected`). Either load registers one
namespace, and a load that fails changes nothing at all, since what can fail comes first.
-/

namespace SiteMacros

/-! ## Tags -/

theorem Text.dropEnd?_eq_some {tail s front : String} :
    dropEnd? tail s = some front ↔ s = front ++ tail := by
  rw [dropEnd?, Option.map_eq_some_iff]
  constructor
  · rintro ⟨cs, hcs, rfl⟩
    have hs := congrArg List.reverse (eq_append_of_after? hcs)
    rw [List.reverse_append, List.reverse_reverse, List.reverse_reverse] at hs
    rw [← String.toList_inj, String.toList_append, String.toList_ofList, hs]
  · rintro rfl
    refine ⟨front.toList.reverse, ?_, ?_⟩
    · rw [String.toList_append, List.reverse_append, after?_append]
    · rw [List.reverse_reverse, String.ofList_toList]

namespace Namespace

/-- The name of a file with a language: a tag, and behind it the ending of a YAML file. -/
structure IsTagged (name tag : String) : Prop where
  ending : name = tag ++ ".yaml" ∨ name = tag ++ ".yml"
  long : 2 ≤ tag.length

theorem IsTagged.tag_ne_empty {name tag : String} (h : IsTagged name tag) : tag ≠ "" := by
  rintro rfl
  exact absurd h.long (by decide)

theorem yaml_ne_yml (a b : String) : a ++ ".yaml" ≠ b ++ ".yml" := by
  intro h
  have hchars := congrArg (fun s : String => s.toList.reverse) h
  have hyaml : ".yaml".toList = ['.', 'y', 'a', 'm', 'l'] := by decide
  have hyml : ".yml".toList = ['.', 'y', 'm', 'l'] := by decide
  simp [String.toList_append, hyaml, hyml] at hchars

theorem stem?_eq_some {name stem : String} :
    stem? name = some stem ↔ stem ≠ "" ∧ (name = stem ++ ".yaml" ∨ name = stem ++ ".yml") := by
  have hfound : ∀ found : String, ((if found.isEmpty then none else some found) = some stem) ↔
      stem ≠ "" ∧ found = stem := by
    intro found
    split
    · next hempty =>
        rw [String.isEmpty_iff] at hempty
        refine iff_of_false (Option.some_ne_none stem).symm ?_
        rintro ⟨hne, rfl⟩
        exact hne hempty
    · next hne =>
        rw [String.isEmpty_iff] at hne
        rw [Option.some.injEq]
        exact ⟨fun h => ⟨h ▸ hne, h⟩, And.right⟩
  rw [stem?]
  cases hyaml : Text.dropEnd? ".yaml" name with
  | some found =>
      obtain rfl := Text.dropEnd?_eq_some.1 hyaml
      refine (hfound found).trans (and_congr_right fun _ => ?_)
      refine ⟨fun h => .inl (by rw [h]), fun h => ?_⟩
      rcases h with h | h
      · exact (String.append_left_inj _).1 h
      · exact absurd h (yaml_ne_yml found stem)
  | none =>
      have hother : name ≠ stem ++ ".yaml" := by
        rintro h
        rw [Text.dropEnd?_eq_some.2 h] at hyaml
        cases hyaml
      cases hyml : Text.dropEnd? ".yml" name with
      | some found =>
          obtain rfl := Text.dropEnd?_eq_some.1 hyml
          refine (hfound found).trans (and_congr_right fun _ => ?_)
          exact ⟨fun h => .inr (by rw [h]),
            fun h => (String.append_left_inj _).1 (h.resolve_left hother)⟩
      | none =>
          refine iff_of_false (Option.some_ne_none stem).symm ?_
          rintro ⟨-, h⟩
          rw [Text.dropEnd?_eq_some.2 (h.resolve_left hother)] at hyml
          cases hyml

/-- A file has a language by its name. -/
theorem languageTag?_eq_some {p : Path} {tag : String} :
    languageTag? p = some tag ↔ ∃ name, p.fileName? = some name ∧ IsTagged name tag := by
  rw [languageTag?]
  cases hname : p.fileName? with
  | none =>
      refine iff_of_false (Option.some_ne_none tag).symm ?_
      rintro ⟨name, hnone, -⟩
      cases hnone
  | some name =>
      rw [Option.bind_eq_bind, Option.bind_some]
      cases hstem : stem? name with
      | none =>
          refine iff_of_false (Option.some_ne_none tag).symm ?_
          rintro ⟨name', hsame, htagged⟩
          cases hsame
          rw [stem?_eq_some.2 ⟨htagged.tag_ne_empty, htagged.ending⟩] at hstem
          cases hstem
      | some stem =>
          rw [Option.bind_some]
          obtain ⟨hne, hending⟩ := stem?_eq_some.1 hstem
          constructor
          · intro h
            split at h
            · next hlong =>
                cases h
                exact ⟨name, rfl, hending, hlong⟩
            · cases h
          · rintro ⟨name', hsame, htagged⟩
            cases hsame
            have heq := stem?_eq_some.2 ⟨htagged.tag_ne_empty, htagged.ending⟩
            rw [hstem, Option.some.injEq] at heq
            rw [heq, if_pos htagged.long]

end Namespace

namespace Translations

/-- A file of this name counts, with this language: the tag in the name is wanted. -/
structure Counts (languages : Option (List String)) (name tag : String) : Prop where
  tagged : Namespace.IsTagged name tag
  wanted : ∀ tags, languages = some tags → tag ∈ tags

theorem wanted_iff {languages : Option (List String)} {tag : String} :
    wanted languages tag = true ↔ ∀ tags, languages = some tags → tag ∈ tags := by
  cases languages with
  | none => exact iff_of_true rfl nofun
  | some tags =>
      rw [wanted, List.contains_iff_mem]
      exact ⟨fun h _ heq => Option.some.inj heq ▸ h, fun h => h tags rfl⟩

/-- What a file becomes, if it becomes anything. -/
theorem resource_eq_some {languages : Option (List String)} {specifierOf : Path → String}
    {path : Path} {r : Resource} :
    (match Namespace.languageTag? path with
      | some tag => if wanted languages tag then some ⟨tag, path, specifierOf path⟩ else none
      | none => none) = some r ↔
    r.path = path ∧ r.specifier = specifierOf path ∧
      ∃ name, path.fileName? = some name ∧ Counts languages name r.language := by
  have hcounts : ∀ tag, (∃ name, path.fileName? = some name ∧ Counts languages name tag) ↔
      Namespace.languageTag? path = some tag ∧ wanted languages tag = true := by
    intro tag
    rw [Namespace.languageTag?_eq_some, wanted_iff]
    exact ⟨fun ⟨name, hname, h⟩ => ⟨⟨name, hname, h.tagged⟩, h.wanted⟩,
      fun ⟨⟨name, hname, htagged⟩, hwanted⟩ => ⟨name, hname, htagged, hwanted⟩⟩
  rw [hcounts]
  obtain ⟨language, found, specifier⟩ := r
  cases Namespace.languageTag? path with
  | none => simp
  | some tag =>
      dsimp only
      split
      · next hwanted =>
          simp only [Option.some.injEq, Resource.mk.injEq]
          constructor
          · rintro ⟨rfl, rfl, rfl⟩
            exact ⟨rfl, rfl, rfl, hwanted⟩
          · rintro ⟨rfl, rfl, rfl, -⟩
            exact ⟨rfl, rfl, rfl⟩
      · next hunwanted =>
          refine iff_of_false nofun ?_
          rintro ⟨-, -, hsame, hwanted⟩
          rw [Option.some.inj hsame] at hunwanted
          exact hunwanted hwanted

/-- The resources are the files that count, in the order of the files, each with its tag. -/
inductive Selected (languages : Option (List String)) : List Path → List Resource → Prop
  | nil : Selected languages [] []
  | take {files : List Path} {resources : List Resource} (r : Resource) {name : String}
      (hname : r.path.fileName? = some name) (hcounts : Counts languages name r.language)
      (rest : Selected languages files resources) :
      Selected languages (r.path :: files) (r :: resources)
  | leave {path : Path} {files : List Path} {resources : List Resource}
      (hcounts : ∀ name tag, path.fileName? = some name → ¬ Counts languages name tag)
      (rest : Selected languages files resources) : Selected languages (path :: files) resources

theorem selected_resourcesOf (languages : Option (List String)) (specifierOf : Path → String)
    (files : List Path) : Selected languages files (resourcesOf languages specifierOf files) := by
  induction files with
  | nil => exact .nil
  | cons path files ih =>
      rw [resourcesOf, List.filterMap_cons]
      split
      · next hnone =>
          refine .leave (fun name tag hname hcounts => ?_) ih
          have hsome : _ = some (Resource.mk tag path (specifierOf path)) :=
            resource_eq_some.2 ⟨rfl, rfl, name, hname, hcounts⟩
          cases hsome.symm.trans hnone
      · next r hsome =>
          obtain ⟨rfl, -, name, hname, hcounts⟩ := resource_eq_some.1 hsome
          exact .take r hname hcounts ih

end Translations

/-! ## A directory of translations -/

theorem Path.fileName?_of_components {p : Path} {cs : List Component} {n : String}
    (h : p.components = cs ++ [.name n]) : p.fileName? = some n := by
  rw [fileName?, h, List.getLast?_concat]

/-- A file of this name lies in the directory. -/
def FileTree.HoldsFile (t : FileTree) (dir : Path) (name : String) : Prop :=
  ∃ es text, t.find dir = .ok (.dir es) ∧ (name, .file text) ∈ es

/-- The paths are those of the files in the directory whose names are so, each once. -/
structure FileTree.ArePathsOf (t : FileTree) (dir : Path) (P : String → Prop)
    (files : List Path) : Prop where
  only : ∀ q ∈ files, ∃ n, t.HoldsFile dir n ∧ P n ∧ q.components = dir.components ++ [.name n]
  all : ∀ n, t.HoldsFile dir n → P n →
    ∃ q ∈ files, q.components = dir.components ++ [.name n]
  distinct : (files.map Path.components).Nodup

namespace FileTree.ArePathsOf

variable {t : FileTree} {dir : Path} {P Q : String → Prop} {files others : List Path}

theorem perm (h : t.ArePathsOf dir P files) (hperm : others.Perm files) :
    t.ArePathsOf dir P others where
  only q hq := h.only q (hperm.mem_iff.1 hq)
  all n hn hP := (h.all n hn hP).imp fun _ hq => ⟨hperm.mem_iff.2 hq.1, hq.2⟩
  distinct := (hperm.map _).nodup_iff.2 h.distinct

theorem append (h : t.ArePathsOf dir P files) (h' : t.ArePathsOf dir Q others)
    (hdisjoint : ∀ n, P n → ¬ Q n) : t.ArePathsOf dir (fun n => P n ∨ Q n) (files ++ others) where
  only q hq := by
    rcases List.mem_append.1 hq with hq | hq
    · exact (h.only q hq).imp fun _ hn => ⟨hn.1, .inl hn.2.1, hn.2.2⟩
    · exact (h'.only q hq).imp fun _ hn => ⟨hn.1, .inr hn.2.1, hn.2.2⟩
  all n hn hPQ := by
    rcases hPQ with hP | hQ
    · exact (h.all n hn hP).imp fun _ hq => ⟨List.mem_append_left _ hq.1, hq.2⟩
    · exact (h'.all n hn hQ).imp fun _ hq => ⟨List.mem_append_right _ hq.1, hq.2⟩
  distinct := by
    rw [List.map_append, List.nodup_append]
    refine ⟨h.distinct, h'.distinct, fun cs hcs ds hds heq => ?_⟩
    obtain ⟨q, hq, rfl⟩ := List.mem_map.1 hcs
    obtain ⟨r, hr, rfl⟩ := List.mem_map.1 hds
    obtain ⟨n, -, hP, hn⟩ := h.only q hq
    obtain ⟨m, -, hQ, hm⟩ := h'.only r hr
    have hsame := List.append_cancel_left ((hn.symm.trans heq).trans hm)
    simp only [List.cons.injEq, Component.name.injEq, and_true] at hsame
    exact hdisjoint n hP (hsame ▸ hQ)

end FileTree.ArePathsOf

namespace Glob

/-- `*` and an ending match the names with the ending. -/
theorem matchTokens_many (ending name : List Char) :
    matchTokens (.many :: ending.map .char) name = true ↔ ending <:+ name := by
  have hmatch := matchTokens_only (ImportPattern.only?_char ending)
  have hsuffix : ∀ cs : List Char,
      anySuffix (matchTokens (ending.map .char)) cs = true ↔ ending <:+ cs := by
    intro cs
    induction cs with
    | nil => rw [anySuffix, hmatch, List.suffix_nil, eq_comm]
    | cons c cs ih =>
        rw [anySuffix, Bool.or_eq_true, hmatch, ih, List.suffix_cons_iff, eq_comm]
  rw [matchTokens]
  exact hsuffix name

end Glob

namespace ImportPattern

variable {t : FileTree} {p : ImportPattern}

/-- The path of an entry of the base, as the search comes to it. -/
theorem components_trodden_join (hbase : p.base.isAbsolute = true) {n : String}
    (hn : Path.IsName n) :
    (p.base.trodden.join n).components = p.base.components ++ [.name n] := by
  rw [FileTree.components_join hn.noSlash (.inl p.base.text_trodden_ne_empty),
    Path.components_trodden hbase, FileTree.stepOf_of_name hn.ne_empty hn.ne_here hn.ne_parent]
  rfl

/-- A file of the base is found if it is not called `node_modules`, and nothing else is. -/
theorem accepts_trodden_join (hsound : t.Sound) (hbase : p.base.isAbsolute = true)
    (hslash : Text.endsWith "/" p.globText = false) {es : List (String × FileTree)}
    (hes : t.find p.base = .ok (.dir es)) {n : String} {c : FileTree} (hc : (n, c) ∈ es) :
    p.accepts t (p.base.trodden.join n) = true ↔
      n ≠ "node_modules" ∧ ∃ text, c = .file text := by
  obtain ⟨home, hreach, hget⟩ := (FileTree.find_eq_dir_iff p.base.text_trodden_ne_empty).1
    ((FileTree.find_trodden hbase).2 hes)
  have hn : Path.IsName n := hsound.names home es hget _ hc
  have hfile : t.isFile (p.base.trodden.join n) = true ↔ ∃ text, c = .file text := by
    rw [FileTree.isFile_join p.base.text_trodden_ne_empty hreach hget hn, FileTree.textAt?,
      FileTree.get?_entry hget (hsound.distinct home es hget) hc]
    cases c <;> simp
  rw [accepts, hslash, inNodeModules_eq hbase (components_trodden_join hbase hn),
    Bool.and_eq_true, hfile, Bool.not_false, Bool.true_and, Bool.not_eq_true', ← Bool.not_eq_true,
    List.contains_iff_mem, List.mem_singleton, Component.name.injEq, eq_comm]

/-- A search that looks through its base for names with an ending finds the files there that
have such a name. -/
theorem arePathsOf_findFiles (hsound : t.Sound) (hbase : p.base.isAbsolute = true)
    {ending : String} (hrest : p.rest ≠ "")
    (hsteps : p.RestSteps [.wild (.many :: ending.toList.map .char)])
    (hslash : Text.endsWith "/" p.rest = false)
    (hmodules : ¬ ending.toList <:+ "node_modules".toList)
    {files : List Path} (h : p.findFiles t = .ok files) :
    t.ArePathsOf p.base (fun n => ending.toList <:+ n.toList) files := by
  rw [← endsWith_globText hrest] at hslash
  rw [findFiles_from_base hsound hbase hrest h hsteps]
  refine .perm ?_ (sorted_perm _ _)
  show t.ArePathsOf _ _ ((Glob.walkSteps t [.wild _] _).filter _)
  by_cases hdir : ∃ es, t.find p.base = .ok (.dir es)
  · obtain ⟨es, hes⟩ := hdir
    have htrodden := (FileTree.find_trodden hbase).2 hes
    obtain ⟨home, hreach, hget⟩ :=
      (FileTree.find_eq_dir_iff p.base.text_trodden_ne_empty).1 htrodden
    have hcomponents : ∀ e ∈ es, (p.base.trodden.join e.1).components =
        p.base.components ++ [.name e.1] :=
      fun e he => components_trodden_join hbase (hsound.names home es hget e he)
    rw [Glob.filter_walkSteps_entries htrodden fun piece hpiece => by
      rw [accepts, FileTree.isFile_join_dots p.base.text_trodden_ne_empty hreach hget hpiece,
        Bool.and_false]]
    refine .perm ?_ ((sorted_perm _ _).map _)
    refine ⟨fun q hq => ?_, fun n hfile hending => ?_, ?_⟩
    · obtain ⟨⟨n, c⟩, he, rfl⟩ := List.mem_map.1 hq
      obtain ⟨he, hcounts⟩ := List.mem_filter.1 he
      rw [Bool.and_eq_true, accepts_trodden_join hsound hbase hslash hes he,
        Glob.matchTokens_many] at hcounts
      obtain ⟨⟨-, text, rfl⟩, hending⟩ := hcounts
      exact ⟨n, ⟨es, text, hes, he⟩, hending, hcomponents _ he⟩
    · obtain ⟨es', text, hes', hn⟩ := hfile
      rw [hes] at hes'
      cases hes'
      refine ⟨_, List.mem_map.2 ⟨(n, .file text), List.mem_filter.2 ⟨hn, ?_⟩, rfl⟩,
        hcomponents _ hn⟩
      rw [Bool.and_eq_true, accepts_trodden_join hsound hbase hslash hes hn,
        Glob.matchTokens_many]
      refine ⟨⟨?_, text, rfl⟩, hending⟩
      rintro rfl
      exact hmodules hending
    · have hnames := List.pairwise_map.1 (hsound.distinct home es hget)
      rw [List.map_map, List.Nodup, List.pairwise_map]
      refine (hnames.filter _).imp_of_mem fun {a b} ha hb hne heq => hne ?_
      rw [Function.comp_apply, Function.comp_apply, hcomponents a (List.mem_filter.1 ha).1,
        hcomponents b (List.mem_filter.1 hb).1] at heq
      simpa using List.append_cancel_left heq
  · have hnothing : Glob.walkSteps t [.wild (.many :: ending.toList.map .char)]
        p.base.trodden = [] := by
      rw [Glob.walkSteps]
      split
      · next es hes => exact absurd ⟨es, (FileTree.find_trodden hbase).1 hes⟩ hdir
      · rfl
    rw [hnothing]
    refine ⟨fun q hq => absurd hq List.not_mem_nil, fun n hfile _ => ?_, List.nodup_nil⟩
    obtain ⟨es, _, hes, _⟩ := hfile
    exact absurd ⟨es, hes⟩ hdir

end ImportPattern

namespace Translations

/-- The resources are the files in the directory that count, in the order of their paths, and
each is there once with its tag. -/
structure AreFilesOf (t : FileTree) (dir : Path) (languages : Option (List String))
    (resources : List Resource) : Prop where
  inOrder : resources.Pairwise fun a b => a.path.compare b.path = .lt
  only : ∀ r ∈ resources, ∃ name, t.HoldsFile dir name ∧ Counts languages name r.language ∧
    r.path.components = dir.components ++ [.name name]
  all : ∀ name tag, t.HoldsFile dir name → Counts languages name tag →
    ∃! r, r ∈ resources ∧ r.path.components = dir.components ++ [.name name]

theorem mem_resourcesOf {languages : Option (List String)} {specifierOf : Path → String}
    {files : List Path} {r : Resource} :
    r ∈ resourcesOf languages specifierOf files ↔
      r.path ∈ files ∧ r.specifier = specifierOf r.path ∧
        ∃ name, r.path.fileName? = some name ∧ Counts languages name r.language := by
  rw [resourcesOf, List.mem_filterMap]
  constructor
  · rintro ⟨path, hpath, hr⟩
    obtain ⟨rfl, hcounts⟩ := resource_eq_some.1 hr
    exact ⟨hpath, hcounts⟩
  · rintro ⟨hpath, hcounts⟩
    exact ⟨r.path, hpath, resource_eq_some.2 ⟨rfl, hcounts⟩⟩

/-- The paths of resources are among those of the files, in their order. -/
theorem Selected.sublist {languages : Option (List String)} {files : List Path}
    {resources : List Resource} (h : Selected languages files resources) :
    (resources.map (·.path)).Sublist files := by
  induction h with
  | nil => exact .slnil
  | take r _ _ _ ih => exact ih.cons_cons r.path
  | leave _ _ ih => exact ih.cons _

/-- Of the files in a directory that have the ending of a YAML file the resources are those
that count. -/
theorem areFilesOf_sorted {t : FileTree} {dir : Path} {files : List Path}
    (h : t.ArePathsOf dir (fun n => ".yaml".toList <:+ n.toList ∨ ".yml".toList <:+ n.toList) files)
    (languages : Option (List String)) (specifierOf : Path → String) :
    AreFilesOf t dir languages
      (sorted (fun a b => a.path.le b.path) (resourcesOf languages specifierOf files)) := by
  have hperm := sorted_perm (fun a b : Resource => a.path.le b.path)
    (resourcesOf languages specifierOf files)
  have hdistinct : ((sorted (fun a b : Resource => a.path.le b.path)
      (resourcesOf languages specifierOf files)).map fun r => r.path.components).Nodup := by
    have hnodup := h.distinct.sublist
      ((selected_resourcesOf languages specifierOf files).sublist.map Path.components)
    rw [List.map_map] at hnodup
    exact (hperm.map _).nodup_iff.2 hnodup
  refine ⟨?_, fun r hr => ?_, fun name tag hfile hcounts => ?_⟩
  · have htotal : ∀ a b : Resource, a.path.le b.path = true ∨ b.path.le a.path = true :=
      fun a b => Path.le_total a.path b.path
    have hle := sorted_pairwise htotal (fun a b c => Path.le_trans a.path b.path c.path)
      (resourcesOf languages specifierOf files)
    exact (hle.and (List.pairwise_map.1 hdistinct)).imp fun hab => Path.compare_eq_lt hab.1 hab.2
  · obtain ⟨hpath, -, name, hname, hcounts⟩ := mem_resourcesOf.1 (hperm.mem_iff.1 hr)
    obtain ⟨n, hfile, -, hcomponents⟩ := h.only r.path hpath
    rw [Path.fileName?_of_components hcomponents] at hname
    cases hname
    exact ⟨_, hfile, hcounts, hcomponents⟩
  · have hending : ".yaml".toList <:+ name.toList ∨ ".yml".toList <:+ name.toList := by
      refine hcounts.tagged.ending.imp (fun heq => ?_) fun heq => ?_ <;>
        exact ⟨tag.toList, by rw [heq, String.toList_append]⟩
    obtain ⟨q, hq, hcomponents⟩ := h.all name hfile hending
    have hmem : ⟨tag, q, specifierOf q⟩ ∈ resourcesOf languages specifierOf files :=
      mem_resourcesOf.2 ⟨hq, rfl, name, Path.fileName?_of_components hcomponents, hcounts⟩
    refine ⟨_, ⟨hperm.mem_iff.2 hmem, hcomponents⟩, ?_⟩
    rintro r ⟨hr, hsame⟩
    exact List.inj_on_of_nodup_map hdistinct hr (hperm.mem_iff.2 hmem)
      (hsame.trans hcomponents.symm)

/-- The resources of a page come from two searches. -/
theorem ofPage_eq_ok {t : FileTree} {id : String} {dir : Path} {languages : Option (List String)}
    {specifierOf : Path → String} {loaded : Translations}
    (h : ofPage t id dir languages specifierOf = .ok loaded) :
    ∃ yaml yml, (ImportPattern.mk dir "*.yaml" .here).findFiles t = .ok yaml ∧
      (ImportPattern.mk dir "*.yml" .here).findFiles t = .ok yml ∧
      loaded = ⟨id, sorted (fun a b => a.path.le b.path)
        (resourcesOf languages specifierOf (yaml ++ yml))⟩ := by
  have hfound : ∀ {p : ImportPattern} {rs : List Resource},
      (p.findFiles t).map (resourcesOf languages specifierOf) = .ok rs →
      ∃ files, p.findFiles t = .ok files ∧ resourcesOf languages specifierOf files = rs := by
    intro p rs hrs
    cases hfiles : p.findFiles t with
    | error e =>
        rw [hfiles] at hrs
        cases hrs
    | ok files =>
        rw [hfiles] at hrs
        exact ⟨files, rfl, Except.ok.inj hrs⟩
  rw [ofPage_eq (ImportPattern.resolve_here dir ['*', '.', 'y', 'a', 'm', 'l'])
    (ImportPattern.resolve_here dir ['*', '.', 'y', 'm', 'l'])] at h
  obtain ⟨xs, hxs, h⟩ := Expansion.exists_of_bind_eq_ok h
  obtain ⟨ys, hys, h⟩ := Expansion.exists_of_bind_eq_ok h
  obtain ⟨yaml, hyaml, rfl⟩ := hfound hxs
  obtain ⟨yml, hyml, rfl⟩ := hfound hys
  refine ⟨yaml, yml, hyaml, hyml, ?_⟩
  rw [← Except.ok.inj h, resourcesOf, resourcesOf, resourcesOf, List.filterMap_append]

/-- The translations of a page are the files in its directory that count. -/
theorem areFilesOf_ofPage {t : FileTree} (hsound : t.Sound) {dir : Path}
    (hdir : dir.isAbsolute = true) {id : String} {languages : Option (List String)}
    {specifierOf : Path → String} {loaded : Translations}
    (h : ofPage t id dir languages specifierOf = .ok loaded) :
    loaded.id = id ∧ AreFilesOf t dir languages loaded.resources := by
  obtain ⟨yaml, yml, hyaml, hyml, rfl⟩ := ofPage_eq_ok h
  refine ⟨rfl, areFilesOf_sorted (.append ?_ ?_ fun n hyaml hyml => ?_) languages specifierOf⟩
  · exact ImportPattern.arePathsOf_findFiles (p := ⟨dir, "*.yaml", .here⟩) hsound hdir
      (by decide : "*.yaml" ≠ "") Glob.steps_yaml
      (by decide +kernel : Text.endsWith "/" "*.yaml" = false) (by decide +kernel) hyaml
  · exact ImportPattern.arePathsOf_findFiles (p := ⟨dir, "*.yml", .here⟩) hsound hdir
      (by decide : "*.yml" ≠ "") Glob.steps_yml
      (by decide +kernel : Text.endsWith "/" "*.yml" = false) (by decide +kernel) hyml
  · -- the endings differ where they are equally far from the end
    have hshorter := List.suffix_of_suffix_length_le hyml hyaml (by decide)
    revert hshorter
    decide +kernel

/-! ## The files of a search -/

/-- The files that the search of a request finds. -/
def Request.files (req : Request) (t : FileTree) : Except MacroError (List Path) := do
  (← ImportPattern.resolve req.pattern req.directory req.root).findFiles t

/-- Of the files that a search finds the resources are those that count. -/
theorem find_eq (t : FileTree) (req : Request) :
    ∃ specifierOf : Path → String, find t req = (req.files t).map fun files =>
      ⟨Namespace.ofDirectory req.directory req.root,
        resourcesOf req.languages specifierOf files⟩ := by
  rw [find, Request.files]
  cases ImportPattern.resolve req.pattern req.directory req.root with
  | error e => exact ⟨Path.text, rfl⟩
  | ok pattern =>
      refine ⟨fun path =>
        if req.directory.same req.importer then
          (pattern.specifierOf? path).getD (relativeSpecifier req.importer path)
        else relativeSpecifier req.importer path, ?_⟩
      dsimp only [bind, Except.bind, pure, Except.pure]
      cases pattern.findFiles t <;> rfl

end Translations

/-! ## What a load registers -/

/-- The registry has the namespace besides what it had, and nothing else is different. -/
structure Registry.GainsNamespace (r r' : Registry) (id : String) : Prop where
  routes : r'.routes = r.routes
  namespaces : ∀ ns, ns ∈ r'.namespaces ↔ ns = id ∨ ns ∈ r.namespaces

theorem Registry.gainsNamespace_registerNamespace (r : Registry) (id : String) :
    r.GainsNamespace (r.registerNamespace id) id := by
  rw [registerNamespace]
  split
  · next hmem =>
      refine ⟨rfl, fun ns => ⟨.inr, ?_⟩⟩
      rintro (rfl | hns)
      · exact hmem
      · exact hns
  · exact ⟨rfl, fun ns => List.mem_cons⟩

namespace Expansion

open Script

/-- What a call asks to be loaded. -/
def requestFor (s : Surroundings) (call : MacroCall) : Except MacroError Translations.Request := do
  let pattern ← patternFor s call
  let directory ← directoryFor s call
  return {
    pattern, directory, importer := s.dir, root := s.root
    languages := s.configuration.translations.languages }

/-- How a module imports the files of pages that it loads by a pattern. -/
def specifierBy (s : Surroundings) (pages : ImportPattern) (path : Path) : String :=
  (pages.specifierOf? path).getD (relativeSpecifier s.dir path)

/-- The translations are registered: their namespace is known besides those that were, and
the registration is theirs. -/
structure Loads (s : Surroundings) (x y : Expansion) (loaded : Translations)
    (registration : Expression) : Prop where
  namespaces : x.registry.GainsNamespace y.registry loaded.id
  emitted : (loaded.emit s.configuration.translations.runtime).run x.scope =
    (registration, y.scope)

variable {s : Surroundings} (x : Expansion)

/-- A module's load fails without a change, or registers what it has found. -/
theorem perform_loadTranslations (call : MacroCall) :
    match requestFor s call >>= Translations.find s.tree with
    | .error e => perform (loadTranslations call) s x = (.error e, x)
    | .ok loaded => ∃ registration y,
        perform (loadTranslations call) s x = (.ok registration, y) ∧
          Loads s x y loaded registration := by
  have hrun : perform (loadTranslations call) s x =
      match requestFor s call >>= Translations.find s.tree with
      | .error e => (.error e, x)
      | .ok loaded => perform (do
          onRegistry (·.registerNamespace loaded.id)
          depend fun d => { d with registers := true }
          watch ((directoryFor s call).toOption.getD s.dir)
          emitting (loaded.emit s.configuration.translations.runtime)) s x := by
    rw [loadTranslations, perform_bind, perform_translationPattern, requestFor]
    cases patternFor s call with
    | error e => rfl
    | ok pattern =>
        dsimp only
        rw [perform_bind, perform_translationDirectory]
        cases directoryFor s call with
        | error e => rfl
        | ok directory =>
            dsimp only
            rw [perform_read_bind]
            dsimp only [bind, Except.bind, pure, Except.pure]
            show perform (settle _ >>= _) s x = _
            rw [perform_bind, perform_settle]
            cases Translations.find s.tree _ <;> rfl
  rw [hrun]
  cases requestFor s call >>= Translations.find s.tree with
  | error e => rfl
  | ok loaded =>
      exact ⟨_, _, rfl, x.registry.gainsNamespace_registerNamespace loaded.id, rfl⟩

/-- The translations of a route are loaded and registered below the imports. -/
theorem perform_loadRouteTranslations (pages : ImportPattern) {route : Route} {id : String}
    {dir : Path} (h : route.translations = some (id, dir)) :
    ∃ loaded registration y,
      Translations.ofPage s.tree id dir s.configuration.translations.languages
        (specifierBy s pages) = .ok loaded ∧
      perform (loadRouteTranslations pages route) s x = (.ok (), y) ∧
      y.prelude = x.prelude ++ [registration] ∧ Loads s x y loaded registration := by
  obtain ⟨loaded, hloaded⟩ := Translations.exists_ofPage s.tree id dir
    s.configuration.translations.languages fun path =>
      (pages.specifierOf? path).getD (relativeSpecifier s.dir path)
  obtain ⟨y, hrun, hprelude, hregistry, hscope⟩ : ∃ y,
      perform (loadRouteTranslations pages route) s x = (.ok (), y) ∧
        y.prelude = x.prelude ++
          [((loaded.emit s.configuration.translations.runtime).run x.scope).1] ∧
        y.registry = x.registry.registerNamespace loaded.id ∧
        y.scope = ((loaded.emit s.configuration.translations.runtime).run x.scope).2 := by
    rw [loadRouteTranslations, h]
    dsimp only
    rw [perform_read_bind, perform_bind, perform_settle, hloaded]
    exact ⟨_, rfl, rfl, rfl, rfl⟩
  refine ⟨loaded, _, y, hloaded, hrun, hprelude, ?_, Prod.ext rfl hscope.symm⟩
  rw [hregistry]
  exact x.registry.gainsNamespace_registerNamespace loaded.id

/-- Loads of translations are exact. A page has the files in its directory that count. A
request has those that its search finds, or the fault of the search. Each load registers the
namespace it is for and nothing else, and one that fails leaves everything as it was. -/
theorem loads_exact_files (hsound : s.tree.Sound) :
    (∀ id dir languages specifierOf, dir.isAbsolute = true → ∃ loaded,
      Translations.ofPage s.tree id dir languages specifierOf = .ok loaded ∧ loaded.id = id ∧
        Translations.AreFilesOf s.tree dir languages loaded.resources) ∧
    (∀ req : Translations.Request, match req.files s.tree with
      | .error e => Translations.find s.tree req = .error e
      | .ok files => ∃ loaded, Translations.find s.tree req = .ok loaded ∧
          loaded.id = Namespace.ofDirectory req.directory req.root ∧
          Translations.Selected req.languages files loaded.resources) ∧
    (∀ (x : Expansion) pages (route : Route) id dir, route.translations = some (id, dir) →
      ∃ loaded registration y,
        Translations.ofPage s.tree id dir s.configuration.translations.languages
          (specifierBy s pages) = .ok loaded ∧
        perform (loadRouteTranslations pages route) s x = (.ok (), y) ∧
        y.prelude = x.prelude ++ [registration] ∧ Loads s x y loaded registration) ∧
    ∀ x call, match requestFor s call >>= Translations.find s.tree with
      | .error e => perform (loadTranslations call) s x = (.error e, x)
      | .ok loaded => ∃ registration y,
          perform (loadTranslations call) s x = (.ok registration, y) ∧
            Loads s x y loaded registration := by
  refine ⟨fun id dir languages specifierOf hdir => ?_, fun req => ?_,
    fun x pages route id dir h => perform_loadRouteTranslations x pages h,
    perform_loadTranslations⟩
  · obtain ⟨loaded, hloaded⟩ := Translations.exists_ofPage s.tree id dir languages specifierOf
    exact ⟨loaded, hloaded, Translations.areFilesOf_ofPage hsound hdir hloaded⟩
  · obtain ⟨specifierOf, hfind⟩ := Translations.find_eq s.tree req
    cases hfiles : req.files s.tree with
    | error e =>
        rwa [hfiles, Except.map] at hfind
    | ok files =>
        rw [hfiles, Except.map] at hfind
        generalize Namespace.ofDirectory req.directory req.root = id at hfind ⊢
        exact ⟨_, hfind, rfl, Translations.selected_resourcesOf req.languages specifierOf files⟩

/-- A directory of translations, with what only looks like one of its files. -/
def translatedPage : Surroundings where
  tree := .dir [("t", .dir [("en.yaml", .file ""), ("a.yaml.yml", .file ""), ("e.yaml", .file ""),
    ("fr.yaml", .dir [])])]
  configuration := {}
  root := ⟨"/"⟩
  file := ⟨"/a.ts"⟩

/-- Nothing is known and nothing written. -/
def fresh : Expansion where
  registry := {}
  scope := ⟨[], [], []⟩

/-- Two of the names are those of files with a language, of which one ends in `.yml`. The page
has both, and the pattern one; each load makes its own namespace known. -/
theorem loads_exact_files_translated :
    translatedPage.tree.Sound ∧
    (∃ loaded, Translations.ofPage translatedPage.tree "p" ⟨"/t"⟩ none (·.text) = .ok loaded ∧
      Translations.AreFilesOf translatedPage.tree ⟨"/t"⟩ none loaded.resources ∧
      loaded.resources.map (·.language) = ["a.yaml", "en"]) ∧
    (∃ registration y, perform (loadRouteTranslations ⟨⟨"/"⟩, ".", .here⟩ (Route.ofPage
        ⟨"p", "", ⟨"/"⟩, none, false, "", "/", { translations := some ⟨"/t"⟩ }, []⟩))
        translatedPage fresh = (.ok (), y) ∧
      y.prelude = [registration] ∧ ∀ ns, ns ∈ y.registry.namespaces ↔ ns = "p") ∧
    (∃ registration y, perform (loadTranslations
        ⟨.loadTranslations, ⟨0, 0⟩, [⟨⟨0, 0⟩, "", some "./t/*.yml"⟩]⟩)
        translatedPage fresh = (.ok registration, y) ∧
      ∀ ns, ns ∈ y.registry.namespaces ↔ ns = "") := by
  have hsound : translatedPage.tree.Sound := by decide +kernel
  obtain ⟨hpage, -, hroute, hcall⟩ := loads_exact_files hsound
  have hadds : ∀ {y : Expansion} {loaded : Translations} {registration : Expression},
      Loads translatedPage fresh y loaded registration →
      ∀ ns, ns ∈ y.registry.namespaces ↔ ns = loaded.id := by
    intro y loaded registration hloads ns
    rw [hloads.namespaces.namespaces]
    exact or_iff_left List.not_mem_nil
  refine ⟨hsound, ?_, ?_, ?_⟩
  · obtain ⟨loaded, hloaded, -, hfiles⟩ :=
      hpage "p" ⟨"/t"⟩ none (·.text) (by decide +kernel)
    refine ⟨loaded, hloaded, hfiles, ?_⟩
    have hlanguages : (Translations.ofPage translatedPage.tree "p" ⟨"/t"⟩ none
        (·.text)).toOption.map (fun loaded => loaded.resources.map (·.language)) =
          some ["a.yaml", "en"] := by
      decide +kernel
    rw [hloaded] at hlanguages
    exact Option.some.inj hlanguages
  · obtain ⟨loaded, registration, y, hloaded, hrun, hprelude, hloads⟩ :=
      hroute fresh ⟨⟨"/"⟩, ".", .here⟩ (Route.ofPage
        ⟨"p", "", ⟨"/"⟩, none, false, "", "/", { translations := some ⟨"/t"⟩ }, []⟩)
        "p" ⟨"/t"⟩ rfl
    obtain ⟨loaded', hloaded', hid, -⟩ := hpage "p" ⟨"/t"⟩ none
      (specifierBy translatedPage ⟨⟨"/"⟩, ".", .here⟩) (by decide +kernel)
    obtain rfl : loaded' = loaded := Except.ok.inj (hloaded'.symm.trans hloaded)
    refine ⟨registration, y, hrun, hprelude, ?_⟩
    rw [← hid]
    exact hadds hloads
  · have hloaded := hcall fresh ⟨.loadTranslations, ⟨0, 0⟩, [⟨⟨0, 0⟩, "", some "./t/*.yml"⟩]⟩
    have hid : ((requestFor translatedPage
        ⟨.loadTranslations, ⟨0, 0⟩, [⟨⟨0, 0⟩, "", some "./t/*.yml"⟩]⟩) >>=
          Translations.find translatedPage.tree).toOption.map (·.id) = some "" := by
      decide +kernel
    split at hloaded
    · next e he =>
        rw [he] at hid
        cases hid
    · next loaded hfound =>
        rw [hfound] at hid
        obtain ⟨registration, y, hrun, hloads⟩ := hloaded
        refine ⟨registration, y, hrun, ?_⟩
        rw [← show loaded.id = "" from Option.some.inj hid]
        exact hadds hloads

end Expansion

end SiteMacros
