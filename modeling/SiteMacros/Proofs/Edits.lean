import SiteMacros.Proofs.Batches

/-!
# Edited projects

A project is built, changed and updated by a batch (`Edited`). Then the output tree
has what the batch has put there, else what is left of the build: of what is gone
nothing (`Edited.applyBatch_gone`), of other files copies (`Edited.applyBatch_copied`),
and of a module the last text that the session has come to
(`Edited.applyBatch_module`).
-/

namespace SiteMacros

namespace Session

variable {s : Session} {src out : List String}

/-- The session after a build. -/
def afterBuild (s : Session) (t : FileTree) : Session :=
  (s.build true t).1.2

/-- The file tree after a build. -/
def builtTree (s : Session) (t : FileTree) : FileTree :=
  (s.build true t).1.1

/-- Does a build of the project come to its end? -/
def Builds (s : Session) (t : FileTree) : Prop :=
  (s.build true t).2.toOption.isSome = true

instance (s : Session) (t : FileTree) : Decidable (s.Builds t) :=
  inferInstanceAs (Decidable (_ = true))

theorem Builds.eq_ok {t : FileTree} (h : s.Builds t) :
    ∃ report, s.build true t = ((s.builtTree t, s.afterBuild t), .ok report) := by
  rw [Builds] at h
  cases hresult : (s.build true t).2 with
  | error e =>
      rw [hresult] at h
      exact nomatch h
  | ok report => exact ⟨report, by rw [← hresult]; rfl⟩

theorem Builds.sourceFiles {t : FileTree} (h : s.Builds t) :
    ∃ files, s.sourceFiles t = .ok files := by
  cases hfiles : s.sourceFiles t with
  | error e =>
      rw [Builds, build_eq_error hfiles] at h
      exact nomatch h
  | ok files => exact ⟨files, rfl⟩

theorem afterBuild_eq {t : FileTree} {files : List Path} (hfiles : s.sourceFiles t = .ok files) :
    s.afterBuild t = (s.processAll t (fun _ => true) (files.filter s.isModule)).1 := by
  rw [afterBuild, build_eq hfiles]

/-- Only source files have a text in a build. -/
theorem textFor?_buildResults_eq_none (h : s.Apart src out) {t : FileTree} (hsound : t.Sound)
    (hbuilds : s.Builds t) {ns : List String} (hns : ¬ HasSource src t ns) :
    textFor? (s.buildResults t) (src ++ ns) = none := by
  obtain ⟨files, hfiles⟩ := hbuilds.sourceFiles
  obtain ⟨es, hes, -⟩ := sourceFiles_perm h hsound hfiles
  refine textFor?_eq_none fun r hr => Bool.eq_false_iff.2 fun hnames => hns ?_
  rw [buildResults_eq hfiles] at hr
  have hfile := (List.mem_filter.1 ((processAll_paths_perm _ _ _ _).mem_iff.1
    (List.mem_map_of_mem hr))).1
  obtain ⟨ks, hks, heq⟩ := (mem_sourceFiles_iff h hsound hfiles).1 hfile
  have hleads := (h.leads_of_hasSource hsound hes hks).2.1
  rw [← heq] at hleads
  rw [← List.append_cancel_left (hleads.names_iff.1 hnames)]
  exact hks

/-- Modules alone have a text of their own in a build. -/
theorem textFor?_buildResults_of_not_module (h : s.Apart src out) {t : FileTree}
    (hsound : t.Sound) (hbuilds : s.Builds t) {ns : List String}
    (hns : s.isModule (s.srcDir.below ns) = false) :
    textFor? (s.buildResults t) (src ++ ns) = none := by
  obtain ⟨files, hfiles⟩ := hbuilds.sourceFiles
  rw [buildResults_eq hfiles]
  exact textFor?_of_not_module h hsound hfiles (processAll_paths_perm _ _ _ _) hns

theorem buildText?_eq_none (h : s.Apart src out) {t : FileTree} (hsound : t.Sound)
    (hbuilds : s.Builds t) {ns : List String} (hns : ¬ HasSource src t ns) :
    s.buildText? src t ns = none := by
  rw [buildText?, textFor?_buildResults_eq_none h hsound hbuilds hns]
  split
  · rfl
  · split
    · rfl
    · next hmodules =>
        cases htext : t.textAt? (src ++ ns) with
        | none => rfl
        | some text => exact absurd ⟨by rw [htext]; rfl, hmodules⟩ hns

/-- A project that a new session builds, the project after changes, what the session
is told of the changes, and the changed project without the output of the session.
Whatever has changed among the sources is told, and what is gone is told to be
removed; nothing that is there is. -/
structure Edited (s : Session) (src out : List String) (before after clean : FileTree)
    (changes : List (Path × PathChange)) : Prop where
  apart : s.Apart src out
  modules : "node_modules" ∉ src
  yaml : "yaml" ∉ s.configuration.sources.extensions
  yml : "yml" ∉ s.configuration.sources.extensions
  fresh : s.cache.modules.keys = []
  sound_before : before.Sound
  sound_after : after.Sound
  sound_clean : clean.Sound
  builds : s.Builds before
  output : ∀ ns, after.textAt? (out ++ ns) = (s.builtTree before).textAt? (out ++ ns)
  told : ∀ c ∈ changes, ∃ ms, c.1.Leads ms ∧ c.1.EndsInName ∧
    (c.2 = .removed → after.get? ms = none)
  covered : ∀ ns, before.textAt? (src ++ ns) ≠ after.textAt? (src ++ ns) →
    ∃ c ∈ changes, c.1.Leads (src ++ ns) ∧ (after.get? (src ++ ns) = none → c.2 = .removed)
  cleaned : ∀ ns, ¬ out <+: ns → ¬ ns <+: out → clean.get? ns = after.get? ns
  noCleanOutput : ∀ ns, clean.textAt? (out ++ ns) = none
  rebuilds : s.Builds clean

namespace Edited

variable {before after clean : FileTree} {changes : List (Path × PathChange)}

theorem clean_get? (h : Edited s src out before after clean changes) (ns : List String) :
    clean.get? (src ++ ns) = after.get? (src ++ ns) := by
  refine h.cleaned _ (h.apart.not_below ns) fun hunder => ?_
  exact h.apart.src_not_above ((List.prefix_append src ns).trans hunder)

theorem clean_textAt? (h : Edited s src out before after clean changes) (ns : List String) :
    clean.textAt? (src ++ ns) = after.textAt? (src ++ ns) := by
  rw [FileTree.textAt?, FileTree.textAt?, h.clean_get?]

/-- The root of the sources is a directory. -/
theorem exists_dir (h : Edited s src out before after clean changes) :
    ∃ es, after.get? src = some (.dir es) := by
  obtain ⟨files, hfiles⟩ := h.rebuilds.sourceFiles
  obtain ⟨es, hes, -⟩ := sourceFiles_perm h.apart h.sound_clean hfiles
  have hsame := h.clean_get? []
  rw [List.append_nil] at hsame
  exact ⟨es, hsame ▸ hes⟩

theorem same (h : Edited s src out before after clean changes) :
    (s.afterBuild before).root = s.root ∧
      (s.afterBuild before).configuration = s.configuration := by
  obtain ⟨files, hfiles⟩ := h.builds.sourceFiles
  rw [afterBuild_eq hfiles]
  have hlater := s.processAll_later before (fun _ => true) (files.filter s.isModule)
  exact ⟨hlater.root, hlater.configuration⟩

theorem cachesSources (h : Edited s src out before after clean changes) :
    CachesSources src (s.afterBuild before) := by
  obtain ⟨files, hfiles⟩ := h.builds.sourceFiles
  intro k hk
  rw [afterBuild_eq hfiles] at hk
  rcases processAll_cached hk with hk | hk
  · rw [h.fresh] at hk
    exact absurd hk List.not_mem_nil
  · obtain ⟨hfile, hmodule⟩ := List.mem_filter.1 hk
    obtain ⟨es, hes, -⟩ := sourceFiles_perm h.apart h.sound_before hfiles
    obtain ⟨ks, hks, rfl⟩ := (mem_sourceFiles_iff h.apart h.sound_before hfiles).1 hfile
    obtain ⟨hne, hleads, hend⟩ := h.apart.leads_of_hasSource h.sound_before hes hks
    rw [isModule_congr h.same.2]
    exact ⟨hmodule, ks, hne, hleads, hend, hks.2⟩

theorem prepared (h : Edited s src out before after clean changes) :
    Prepared (s.afterBuild before) src out changes after where
  apart := h.apart.congr h.same.1 h.same.2
  modules := h.modules
  resources p hp := isResource_of_isModule h.yaml h.yml (by rwa [isModule_congr h.same.2] at hp)
  directory := by
    obtain ⟨es, hes⟩ := h.exists_dir
    exact FileTree.textAt?_eq_none_of_dir hes
  cached := h.cachesSources
  told c hc := by
    obtain ⟨ms, hleads, hend, hgone⟩ := h.told c hc
    refine ⟨ms, hleads, hend, fun hremoved heq => ?_⟩
    obtain ⟨es, hes⟩ := h.exists_dir
    have hnone := hgone hremoved
    rw [heq, hes] at hnone
    exact nomatch hnone

/-- After the build, the output tree has the texts of the build. -/
theorem built_textAt? (h : Edited s src out before after clean changes) (ns : List String) :
    after.textAt? (out ++ ns) = (s.buildText? src before ns).or (before.textAt? (out ++ ns)) := by
  obtain ⟨report, hbuild⟩ := h.builds.eq_ok
  rw [h.output, (build_placed h.apart h.sound_before hbuild).inside]

/-- A new build has the texts of the changed project. -/
theorem fresh_textAt? (h : Edited s src out before after clean changes) (ns : List String) :
    (s.builtTree clean).textAt? (out ++ ns) = s.buildText? src clean ns := by
  obtain ⟨report, hbuild⟩ := h.rebuilds.eq_ok
  rw [(build_placed h.apart h.sound_clean hbuild).inside, h.noCleanOutput, Option.or_none]

theorem noted (h : Edited s src out before after clean changes) :
    Noted src out changes (s.afterBuild before)
      (noteChanges changes {} (s.afterBuild before) after).2.1 after
      (noteChanges changes {} (s.afterBuild before) after).1 {}
      (noteChanges changes {} (s.afterBuild before) after).2.2.2 :=
  h.prepared.noted

theorem isModule_afterBuild (h : Edited s src out before after clean changes) (p : Path) :
    (s.afterBuild before).isModule p = s.isModule p :=
  isModule_congr h.same.2 p

/-- The path of a source file has the components of the one that a build has for
it. -/
theorem components_eq (h : Edited s src out before after clean changes) {p : Path}
    {ns : List String} (hp : IsSource src after p) (hnames : p.names (src ++ ns) = true) :
    HasSource src after ns ∧ p.components = (s.srcDir.below ns).components := by
  obtain ⟨ks, -, hleads, -, hks⟩ := hp
  obtain rfl := List.append_cancel_left (hleads.names_iff.1 hnames)
  obtain ⟨es, hes⟩ := h.exists_dir
  exact ⟨hks, hleads.components_inj (h.apart.leads_of_hasSource h.sound_after hes hks).2.1⟩

theorem batchResults_names (h : Edited s src out before after clean changes) {r : Processed}
    (hr : r ∈ (s.afterBuild before).batchResults changes after) {ns : List String}
    (hnames : r.1.names (src ++ ns) = true) :
    HasSource src after ns ∧ s.isModule (s.srcDir.below ns) = true := by
  obtain ⟨hsource, hmodule⟩ := h.prepared.mem_batchResults hr
  obtain ⟨hns, hcomponents⟩ := h.components_eq hsource hnames
  rw [h.isModule_afterBuild, isModule_of_components hcomponents] at hmodule
  exact ⟨hns, hmodule⟩

/-- The files that are copied are the source files that are not modules. -/
theorem hasPath_assets (h : Edited s src out before after clean changes) {ns : List String}
    (hpath : hasPath (noteChanges changes {} (s.afterBuild before) after).2.2.2.assets.toList
      (src ++ ns) = true) :
    HasSource src after ns ∧ s.isModule (s.srcDir.below ns) = false := by
  obtain ⟨p, hp, hnames⟩ := List.any_eq_true.1 hpath
  obtain ⟨hsource, hmodule⟩ := h.prepared.mem_files false hp
  obtain ⟨hns, hcomponents⟩ := h.components_eq hsource hnames
  rw [h.isModule_afterBuild, isModule_of_components hcomponents] at hmodule
  exact ⟨hns, hmodule⟩

/-- A file of which a change is told is in the plan. -/
theorem files_contains (h : Edited s src out before after clean changes) {ns : List String}
    (hns : HasSource src after ns)
    (hchanged : before.textAt? (src ++ ns) ≠ after.textAt? (src ++ ns)) :
    ((noteChanges changes {} (s.afterBuild before) after).2.2.2.files
      (s.isModule (s.srcDir.below ns))).contains (s.srcDir.below ns) = true := by
  obtain ⟨c, hc, hleads, -⟩ := h.covered ns hchanged
  obtain ⟨ms, -, hend, -⟩ := h.told c hc
  obtain ⟨es, hes⟩ := h.exists_dir
  obtain ⟨hne, hleads', -⟩ := h.apart.leads_of_hasSource h.sound_after hes hns
  have hcomponents := hleads.components_inj hleads'
  refine h.noted.told _ _ (.inr ⟨c, hc, hcomponents, ⟨ns, hne, hleads, hend, hns⟩, ?_⟩)
  rw [h.isModule_afterBuild, isModule_of_components hcomponents]

theorem textFor?_batch_eq_none (h : Edited s src out before after clean changes)
    {ns : List String} (hns : ¬ (HasSource src after ns ∧ s.isModule (s.srcDir.below ns) = true)) :
    textFor? ((s.afterBuild before).batchResults changes after) (src ++ ns) = none :=
  textFor?_eq_none fun _ hr => Bool.eq_false_iff.2 fun hnames =>
    hns (h.batchResults_names hr hnames)

/-- What is there is not taken from the output tree. -/
theorem noted_textAt? (h : Edited s src out before after clean changes) {ns : List String}
    (hns : HasSource src after ns) :
    (noteChanges changes {} (s.afterBuild before) after).1.textAt? (out ++ ns) =
      (s.buildText? src before ns).or (before.textAt? (out ++ ns)) := by
  rw [← h.built_textAt?]
  refine h.noted.kept ns fun c hc hremoved ks hleads hunder => ?_
  obtain ⟨ms, hleads', -, hgone⟩ := h.told c hc
  obtain ⟨rest, rfl⟩ := hunder
  have hnone := hgone hremoved
  rw [hleads'.names_eq hleads rfl] at hnone
  have htext := hns.1
  rw [← List.append_assoc, FileTree.textAt?_append_of_none hnone] at htext
  exact nomatch htext

/-- A module whose text has changed is processed. -/
theorem batchResults_of_changed (h : Edited s src out before after clean changes)
    {ns : List String} (hns : HasSource src after ns)
    (hmodule : s.isModule (s.srcDir.below ns) = true)
    (hchanged : before.textAt? (src ++ ns) ≠ after.textAt? (src ++ ns)) :
    ∃ r ∈ (s.afterBuild before).batchResults changes after, r.1.Leads (src ++ ns) := by
  have hcontains := h.files_contains hns hchanged
  rw [hmodule] at hcontains
  obtain ⟨k, hk, hcomponents⟩ := PathMap.contains_iff.1 hcontains
  -- the set of candidates has the module in some spelling
  obtain ⟨k', hk', hcomponents'⟩ := PathMap.contains_iff.1
    (PathSet.contains_addAll.2 (.inr ⟨k, hk, rfl⟩) : (PathSet.addAll
      ((noteChanges changes {} (s.afterBuild before) after).2.2.2.dependents
        (noteChanges changes {} (s.afterBuild before) after).2.1.cache)
      (noteChanges changes {} (s.afterBuild before) after).2.2.2.sources.toList).contains k = true)
  obtain ⟨-, ks, -, hleads, hend, -⟩ := h.prepared.mem_candidates hk'
  obtain ⟨es, hes⟩ := h.exists_dir
  have hleads' := (h.apart.leads_of_hasSource h.sound_after hes hns).2.1
  obtain rfl := List.append_cancel_left
    (hleads.names_eq hleads' (hcomponents'.trans hcomponents))
  have hmem : k' ∈ (noteChanges changes {} (s.afterBuild before) after).2.1.batchModules
      (noteChanges changes {} (s.afterBuild before) after).1
      (noteChanges changes {} (s.afterBuild before) after).2.2.2 :=
    List.mem_filter.2 ⟨hk', (h.prepared.isFile_iff hleads hend).2 hns.1⟩
  rw [batchResults_eq]
  obtain ⟨r, hr, rfl⟩ := List.mem_map.1 ((processAll_paths_perm _ _ _ _).mem_iff.2 hmem)
  exact ⟨r, hr, hleads⟩

variable (hok : Unhindered ((s.afterBuild before).applyBatch changes after).2.2)
include hok

/-- What is gone has no place in the output tree, unless it was gone before the build
and had one all the same. -/
theorem applyBatch_gone (h : Edited s src out before after clean changes) {ns : List String}
    (hns : after.get? (src ++ ns) = none)
    (hbefore : before.textAt? (src ++ ns) ≠ none ∨ before.textAt? (out ++ ns) = none) :
    ((s.afterBuild before).applyBatch changes after).1.textAt? (out ++ ns) = none := by
  have hnot : ¬ HasSource src after ns := by
    rw [HasSource, FileTree.textAt?_eq_none_of_get? hns]
    exact fun hns => by cases hns.1
  have hpath : ¬ hasPath (noteChanges changes {} (s.afterBuild before) after).2.2.2.assets.toList
      (src ++ ns) = true := fun hpath => hnot (h.hasPath_assets hpath).1
  rw [(h.prepared.applyBatch_placed hok).inside, if_neg hpath, Option.none_or,
    h.textFor?_batch_eq_none fun hns => hnot hns.1, Option.none_or]
  refine h.noted.gone ns ?_
  by_cases htext : before.textAt? (src ++ ns) = none
  · have hnotBefore : ¬ HasSource src before ns := fun hns => by
      rw [HasSource, htext] at hns
      cases hns.1
    refine .inl ?_
    rw [h.built_textAt?, buildText?_eq_none h.apart h.sound_before h.builds hnotBefore,
      Option.none_or]
    exact hbefore.resolve_left (not_not_intro htext)
  · rw [← FileTree.textAt?_eq_none_of_get? hns] at htext
    obtain ⟨c, hc, hleads, hremoved⟩ := h.covered ns htext
    exact .inr ⟨c, hc, hremoved hns, hleads⟩

/-- A source file that is not a module has a copy in the output tree. -/
theorem applyBatch_copied (h : Edited s src out before after clean changes) {ns : List String}
    (hns : HasSource src after ns) (hmodule : s.isModule (s.srcDir.below ns) = false) :
    ((s.afterBuild before).applyBatch changes after).1.textAt? (out ++ ns) =
      after.textAt? (src ++ ns) := by
  rw [(h.prepared.applyBatch_placed hok).inside,
    h.textFor?_batch_eq_none fun hns => Bool.false_ne_true (hmodule.symm.trans hns.2),
    Option.or_none, h.noted_textAt? hns]
  by_cases hchanged : before.textAt? (src ++ ns) = after.textAt? (src ++ ns)
  · have hbuilt : s.buildText? src before ns = after.textAt? (src ++ ns) := by
      rw [buildText?, hmodule, if_neg Bool.false_ne_true, if_neg hns.2, hchanged]
    obtain ⟨text, htext⟩ := Option.isSome_iff_exists.1 hns.1
    rw [hbuilt, htext, Option.some_or]
    split <;> rfl
  · have hcontains := h.files_contains hns hchanged
    rw [hmodule] at hcontains
    obtain ⟨k, hk, hcomponents⟩ := PathMap.contains_iff.1 hcontains
    obtain ⟨es, hes⟩ := h.exists_dir
    have hleads := (h.apart.leads_of_hasSource h.sound_after hes hns).2.1
    have hpath : hasPath (noteChanges changes {} (s.afterBuild before) after).2.2.2.assets.toList
        (src ++ ns) = true := by
      refine List.any_eq_true.2 ⟨k, hk, ?_⟩
      rw [Path.names, beq_iff_eq, hcomponents, hleads.components_eq]
    rw [if_pos hpath]
    obtain ⟨text, htext⟩ := Option.isSome_iff_exists.1 hns.1
    rw [htext]
    rfl

/-- A module has the text of the batch in the output tree, or else that of the build
before, or else what was there. -/
theorem applyBatch_module (h : Edited s src out before after clean changes) {ns : List String}
    (hns : HasSource src after ns) (hmodule : s.isModule (s.srcDir.below ns) = true) :
    ((s.afterBuild before).applyBatch changes after).1.textAt? (out ++ ns) =
      (textFor? ((s.afterBuild before).batchResults changes after) (src ++ ns)).or
        ((textFor? (s.buildResults before) (src ++ ns)).or (before.textAt? (out ++ ns))) := by
  have hpath : ¬ hasPath (noteChanges changes {} (s.afterBuild before) after).2.2.2.assets.toList
      (src ++ ns) = true := fun hpath => by
    rw [(h.hasPath_assets hpath).2] at hmodule
    exact nomatch hmodule
  rw [(h.prepared.applyBatch_placed hok).inside, if_neg hpath, Option.none_or, h.noted_textAt? hns,
    buildText?, if_pos hmodule]

end Edited

end Session

end SiteMacros
