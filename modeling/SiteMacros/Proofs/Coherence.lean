import SiteMacros.Proofs.Attempts
import SiteMacros.Proofs.Beside
import SiteMacros.Proofs.Rebuilds
import SiteMacros.Proofs.Watched

/-!
# Coherence of the cache

The cache of a session is coherent if it has for each module what the text of the module
comes to now. A batch takes the modules that it has to expand again from the dependencies
that are in the cache, and an expansion that it does not repeat has been told three kinds
of things: pages trees, the files that its searches for translations find, and the answers
of the registry.

The pages trees take care of themselves: if one of them has another shape, then a change
tells so, and all modules that have read any pages tree are expanded again
(`Followed.kindAt?_eq`, `readAlike_of_kinds`). So an expansion in the cache, old or new,
is what the module comes to after the batch as long as the other two are as they were when
it was made (`applyBatch_coherent`).

The registry need not be: a route changes with the module that gives a directory its
routes, and the pages of the directory that ask for it are left as they are
(`applyBatch_incoherent`).
-/

namespace SiteMacros.Session

open Expansion

variable {s : Session} {src out : List String}

/-! ## What a module comes to -/

/-- The searches for translations that a module makes of its own. -/
def searchesOf (s : Session) (t : FileTree) (p : Path) : List ImportPattern :=
  match t.readText p with
  | .ok text => moduleSearches (s.surroundings t p) text
  | .error _ => []

/-- What the cache has for a module is what its text comes to now, under one of the
spellings of its path. -/
def Coherent (s : Session) (t : FileTree) (p : Path) : Prop :=
  ∃ q, q.components = p.components ∧ q.EndsInName ∧ s.entryNow? t q = s.cache.get? p

/-! ## Directories among the sources -/

/-- The directory is among the sources, before and after. -/
structure StillThere (src : List String) (t t' : FileTree) (dir : Path) : Prop where
  among : ∃ ks, dir.Leads (src ++ ks) ∧ "node_modules" ∉ ks
  before : t.isDir dir = true
  after : t'.isDir dir = true

theorem exists_dir_of_isDir {t : FileTree} {p : Path} (h : t.isDir p = true) :
    ∃ es, t.find p = .ok (.dir es) := by
  rw [FileTree.isDir] at h
  split at h
  · next es hes => exact ⟨es, hes⟩
  · cases h

theorem reach_of_isDir {t : FileTree} {dir : Path} {ns : List String} (hleads : dir.Leads ns)
    (h : t.isDir dir = true) :
    dir.text ≠ "" ∧ t.reach dir = .ok ns ∧ ∃ es, t.get? ns = some (.dir es) := by
  obtain ⟨es, hfind⟩ := exists_dir_of_isDir h
  obtain ⟨hne, here, hreach, hget⟩ := FileTree.reach_of_find hfind
  obtain ⟨rfl, -⟩ := FileTree.address_eq_ok hleads ((FileTree.address_eq_reach hne).trans hreach)
  exact ⟨hne, hreach, es, hget⟩

/-- What the dependencies are about is the same among the sources: no name that counts in a
pages tree has come or gone, and no resource in a directory that is watched, unless its name
counts in a pages tree too. -/
structure Unaffected (src : List String) (t t' : FileTree) (d : Dependencies) : Prop where
  sound : t.Sound
  sound' : t'.Sound
  kinds : d.pageStructure = true → ∀ ks n, "node_modules" ∉ ks → Change.isStructural n = true →
    t.kindAt? (src ++ (ks ++ [n])) = t'.kindAt? (src ++ (ks ++ [n]))
  resources : ∀ dir, d.watches dir = true → ∀ ks n, dir.Leads (src ++ ks) →
    "node_modules" ∉ ks → isResourceName n = true →
    (Change.isStructural n = true →
      t.kindAt? (src ++ (ks ++ [n])) = t'.kindAt? (src ++ (ks ++ [n]))) →
    (t.textAt? (src ++ (ks ++ [n]))).isSome = (t'.textAt? (src ++ (ks ++ [n]))).isSome

namespace Unaffected

variable {t t' : FileTree} {d : Dependencies}

theorem of_get? (hsound : t.Sound) (hsound' : t'.Sound)
    (h : ∀ ks, t'.get? (src ++ ks) = t.get? (src ++ ks)) : Unaffected src t t' d where
  sound := hsound
  sound' := hsound'
  kinds _ _ _ _ _ := by rw [FileTree.kindAt?, FileTree.kindAt?, h]
  resources _ _ _ _ _ _ _ _ := by rw [FileTree.textAt?, FileTree.textAt?, h]

/-- A watched directory that is still there has resources under the same names. -/
theorem resourcesAlike (h : Unaffected src t t' d) {dir : Path} (hwatches : d.watches dir = true)
    (hthere : StillThere src t t' dir)
    (hkinds : ∀ ks n, dir.Leads (src ++ ks) → "node_modules" ∉ ks → isResourceName n = true →
      Change.isStructural n = true →
        t.kindAt? (src ++ (ks ++ [n])) = t'.kindAt? (src ++ (ks ++ [n]))) :
    ∃ home, FileTree.Shared t t' dir.components home dir ∧ t.ResourcesAlike t' home := by
  obtain ⟨ks, hleads, hks⟩ := hthere.among
  obtain ⟨hne, hreach, es, hget⟩ := reach_of_isDir hleads hthere.before
  obtain ⟨-, hreach', fs, hget'⟩ := reach_of_isDir hleads hthere.after
  refine ⟨src ++ ks, ⟨hne, hreach, hreach', List.prefix_refl _⟩, ?_, fun n hn => ?_⟩
  · rw [FileTree.kindAt?, FileTree.kindAt?, hget, hget']
    rfl
  · rw [List.append_assoc]
    exact h.resources dir hwatches ks n hleads hks hn (hkinds ks n hleads hks hn)

/-- Pages trees are read alike. -/
theorem readAlike (h : Unaffected src t t' d) (hreads : d.pageStructure = true)
    (hwatched : ∀ dir ∈ d.watched, StillThere src t t' dir ∨ t.isDir dir = false ∧
      ∀ p ∈ Translations.pageSearches dir, p.findResources t' = p.findResources t) :
    ReadAlike t t' d.watched := by
  refine ⟨fun {req pages} hload hmem => ?_, fun {dir} hmem => ?_⟩
  · obtain ⟨es, hpattern, hfind, -⟩ := PageTree.load_eq_ok hload
    rcases hwatched _ hmem with ⟨⟨ks, hleads, hks⟩, -, hafter⟩ | ⟨hnot, -⟩
    · obtain ⟨fs, hfind'⟩ := exists_dir_of_isDir hafter
      have hget := FileTree.find_eq_ok hleads hfind
      have hget' := FileTree.find_eq_ok hleads hfind'
      refine PageTree.load_eq_of_sameShape (h.sound.get? hget) (h.sound'.get? hget') hpattern
        hfind hfind' fun ns hns => ?_
      rcases List.eq_nil_or_concat ns with rfl | ⟨ms, n, rfl⟩
      · rfl
      · rw [List.concat_eq_append] at hns ⊢
        obtain ⟨hms, hn⟩ := List.forall_mem_append.1 hns
        have hbelow : "node_modules" ∉ ks ++ ms := by
          rw [List.mem_append, not_or]
          exact ⟨hks, fun hmem => absurd (hms _ hmem) (by decide)⟩
        have hkind := h.kinds hreads (ks ++ ms) n hbelow (hn n List.mem_cons_self)
        rw [← FileTree.kindAt?_append hget, ← FileTree.kindAt?_append hget']
        simpa using hkind
    · rw [FileTree.isDir, hfind] at hnot
      cases hnot
  · rcases hwatched dir hmem with hthere | ⟨-, hsame⟩
    · have hwatches : d.watches dir = true :=
        List.any_eq_true.2 ⟨dir, hmem, List.isPrefixOf_iff_prefix.2 (List.prefix_refl _)⟩
      obtain ⟨home, hdir, halike⟩ := h.resourcesAlike hwatches hthere
        fun ks n _ hks _ => h.kinds hreads ks n hks
      exact Translations.findResources_pageSearches h.sound h.sound' hdir halike
    · exact hsame

end Unaffected

/-! ## Expansions that last -/

/-- The session and the files that an expansion has found, and its module. -/
structure Moment where
  session : Session
  tree : FileTree
  file : Path

namespace Moment

/-- The expansion as it is cached. -/
def entry? (o : Moment) : Option CachedModule :=
  o.session.entryNow? o.tree o.file

/-- What an expansion was told that the dependencies in the cache do not account for is still
so: the answers of the registry, and what its searches find in other directories than those
it watches. What it watches is among the sources, and still there. -/
structure Lasts (o : Moment) (src : List String) (s : Session) (t : FileTree) : Prop where
  answers : AnswersAlike (o.session.questionsOf o.tree o.file) o.session.registry s.registry
  found : ∀ m, o.entry? = some m → ∀ p ∈ o.session.searchesOf o.tree o.file,
    p.findResources t = p.findResources o.tree ∨
      ∃ dir, m.dependencies.watches dir = true ∧ p.looksIn dir = true ∧
        StillThere src o.tree t dir ∧
        ∀ ks n, dir.Leads (src ++ ks) → isResourceName n = true → Change.isStructural n = true →
          o.tree.kindAt? (src ++ (ks ++ [n])) = t.kindAt? (src ++ (ks ++ [n]))
  pages : ∀ m, o.entry? = some m → m.dependencies.pageStructure = true →
    ∀ dir ∈ m.dependencies.watched, StillThere src o.tree t dir ∨ o.tree.isDir dir = false ∧
      ∀ p ∈ Translations.pageSearches dir, p.findResources t = p.findResources o.tree

/-- An expansion is what its module comes to as long as it lasts and the module is not
affected by what has become of the sources. -/
theorem Lasts.entryNow? {o : Moment} {t : FileTree} (h : o.Lasts src s t)
    (hroot : s.root = o.session.root) (hconfiguration : s.configuration = o.session.configuration)
    (htext : t.readText o.file = o.tree.readText o.file) {m : CachedModule}
    (hm : o.entry? = some m) (hsources : Unaffected src o.tree t m.dependencies) :
    s.entryNow? t o.file = some m := by
  have hpages := h.pages m hm
  have hfound : ∀ p ∈ o.session.searchesOf o.tree o.file,
      p.findResources t = p.findResources o.tree := by
    intro p hp
    rcases h.found m hm p hp with hsame | ⟨dir, hwatches, hlooks, hthere, hkinds⟩
    · exact hsame
    · obtain ⟨home, hdir, halike⟩ := hsources.resourcesAlike hwatches hthere
        fun ks n hleads _ => hkinds ks n hleads
      exact ImportPattern.findResources_congr hsources.sound hsources.sound' hlooks hdir halike
  obtain ⟨text, x, hfile, hexpand, rfl⟩ := entryNow?_eq_some.1 hm
  have hanswers := h.answers
  rw [questionsOf, hfile] at hanswers
  rw [searchesOf, hfile] at hfound
  have hother := expandModule_eq_of_read hexpand (fun hreads => hsources.readAlike hreads
    (hpages hreads)) hfound
  have halike := expandModule_eq_of_alike
    { o.session.surroundings o.tree o.file with tree := t } text hanswers
  rw [hother, hexpand] at halike
  refine entryNow?_eq_some.2 ⟨text, x, htext.trans hfile, ?_, rfl⟩
  rw [surroundings, hroot, hconfiguration]
  exact halike

end Moment

/-! ## A batch that is told of every change -/

theorem readText_congr {t t' : FileTree} {p : Path} {ns : List String} {text : String}
    (hp : p.Leads ns) (hend : p.EndsInName) (h : t.textAt? ns = some text)
    (h' : t'.textAt? ns = some text) : t.readText p = t'.readText p := by
  rw [(FileTree.readText_eq_ok_iff hp hend).2 h, (FileTree.readText_eq_ok_iff hp hend).2 h']

variable {before after : FileTree} {changes : List (Path × PathChange)}

/-- A batch that is told of all that has changed among the sources since the cache was
coherent. Whatever has come or gone is told as such, and texts that differ have different
fingerprints. -/
structure Followed (s : Session) (src out : List String) (before after : FileTree)
    (changes : List (Path × PathChange)) : Prop where
  prepared : Prepared s src out changes after
  sound_before : before.Sound
  sound_after : after.Sound
  told_text : ∀ ks, before.textAt? (src ++ ks) ≠ after.textAt? (src ++ ks) →
    ∃ c ∈ changes, c.1.Leads (src ++ ks)
  told_kind : ∀ ks, before.kindAt? (src ++ ks) ≠ after.kindAt? (src ++ ks) →
    ∃ c ∈ changes, c.1.Leads (src ++ ks) ∧ c.2 ≠ .modified
  digests : ∀ ks a b, before.textAt? (src ++ ks) = some a → after.textAt? (src ++ ks) = some b →
    Text.digest a = Text.digest b → a = b

/-- Where the cache has its expansion of a module from after a batch: from the batch, or
from before, if the text is the same and the expansion does not depend on anything that has
changed. -/
inductive Provenance (s : Session) (src : List String) (before after : FileTree)
    (changes : List (Path × PathChange)) : Moment → Prop
  | renewed {u : Turn} (hu : u ∈ s.batchTurns changes after) {code : String}
      (h : u.result = .ok (.expanded code)) :
      Provenance s src before after changes
        ⟨u.before, (noteChanges changes {} s after).1, u.file⟩
  | kept {p : Path} {m : CachedModule} (hcached : s.cache.get? p = some m)
      (hentry : s.entryNow? before p = some m) (htext : after.readText p = before.readText p)
      (h : ¬ s.Affected src changes after m.dependencies) :
      Provenance s src before after changes ⟨s, before, p⟩

namespace Followed

section

variable (h : Followed s src out before after changes)
include h

theorem get?_below (ks : List String) :
    (noteChanges changes {} s after).1.get? (src ++ ks) = after.get? (src ++ ks) ∧
      (s.applyBatch changes after).1.get? (src ++ ks) = after.get? (src ++ ks) := by
  obtain ⟨hnoted, hupdated⟩ := h.prepared.applyBatch_spares
  rw [FileTree.get?_append, FileTree.get?_append, FileTree.get?_append, hnoted.node, hupdated.node]
  exact ⟨rfl, rfl⟩

/-- Nothing has come or gone under a name that counts in a pages tree if no change tells
so. -/
theorem kindAt?_eq (hshape : ∀ c ∈ changes, s.tellsShape c ≠ true) {ks : List String}
    {n : String} (hks : "node_modules" ∉ ks) (hn : Change.isStructural n = true) :
    before.kindAt? (src ++ (ks ++ [n])) = after.kindAt? (src ++ (ks ++ [n])) := by
  refine Classical.byContradiction fun hne => ?_
  obtain ⟨c, hc, hleads, hmoved⟩ := h.told_kind _ hne
  exact hshape c hc (tellsShape_of_leads h.prepared.apart h.prepared.modules hleads hks hn hmoved)

/-- No resource has come or gone in a directory if no change tells so, unless its name counts
in a pages tree. -/
theorem isSome_textAt?_eq {dir : Path} {ks : List String} (hdir : dir.Leads (src ++ ks))
    (htold : ∀ c ∈ changes, ∀ d, s.toldResources? c = some d → d.components ≠ dir.components)
    {n : String} (hks : "node_modules" ∉ ks) (hn : isResourceName n = true)
    (hkinds : Change.isStructural n = true →
      before.kindAt? (src ++ (ks ++ [n])) = after.kindAt? (src ++ (ks ++ [n]))) :
    (before.textAt? (src ++ (ks ++ [n]))).isSome =
      (after.textAt? (src ++ (ks ++ [n]))).isSome := by
  have hkind : before.kindAt? (src ++ (ks ++ [n])) = after.kindAt? (src ++ (ks ++ [n])) := by
    refine Classical.byContradiction fun hne => ?_
    obtain ⟨c, hc, hleads, -⟩ := h.told_kind _ hne
    obtain ⟨d, hd, hdleads⟩ := toldResources?_of_leads h.prepared.apart h.prepared.modules hleads
      hks hn (Bool.eq_false_iff.2 fun hstructural => hne (hkinds hstructural))
    exact htold c hc d hd (hdleads.components_eq.trans hdir.components_eq.symm)
  rw [FileTree.isSome_textAt?, FileTree.isSome_textAt?, hkind]

/-- The sources are the same for the dependencies if nothing that they are about has
changed. -/
theorem unaffected {d : Dependencies} (hd : ¬ s.Affected src changes after d) :
    Unaffected src before (s.applyBatch changes after).1 d := by
  have hupdated := fun ks => (h.get?_below ks).2
  have hkindAt? : ∀ ks, (s.applyBatch changes after).1.kindAt? (src ++ ks) =
      after.kindAt? (src ++ ks) := fun ks => by rw [FileTree.kindAt?, FileTree.kindAt?, hupdated]
  refine ⟨h.sound_before, h.prepared.applyBatch_spares.2.sound h.sound_after,
    fun hpages ks n hks hn => ?_, fun dir hwatches ks n hdir hks hn hkinds => ?_⟩
  · rw [hkindAt?]
    exact h.kindAt?_eq (fun c hc hshape => hd (.shape hc hshape hpages)) hks hn
  · rw [hkindAt?] at hkinds
    rw [h.isSome_textAt?_eq hdir (fun c hc d' hd' heq => ?_) hks hn hkinds, FileTree.textAt?,
      FileTree.textAt?, hupdated]
    exact hd (.resources hc hd' ((watches_congr d heq).trans hwatches))

/-- An expansion that was made in the batch. -/
theorem entryNow?_renewed {u : Turn} (hu : u ∈ s.batchTurns changes after)
    {m : CachedModule}
    (hm : u.before.entryNow? (noteChanges changes {} s after).1 u.file = some m)
    (hlasts : Moment.Lasts ⟨u.before, (noteChanges changes {} s after).1, u.file⟩ src
      (s.applyBatch changes after).2.1 (s.applyBatch changes after).1) :
    (s.applyBatch changes after).2.1.entryNow? (s.applyBatch changes after).1 u.file =
      some m := by
  obtain ⟨hroot, hconfiguration⟩ := h.prepared.applyBatch_same
  obtain ⟨hroot', hconfiguration'⟩ := h.prepared.batchTurns_same hu
  obtain ⟨⟨ks, -, hleads, hend, hsource⟩, -⟩ := h.prepared.batchTurns_source hu
  have hnoted := fun ks => (h.get?_below ks).1
  have hupdated := fun ks => (h.get?_below ks).2
  obtain ⟨hspares, hspares'⟩ := h.prepared.applyBatch_spares
  refine hlasts.entryNow? (hroot.trans hroot'.symm) (hconfiguration.trans hconfiguration'.symm)
    ?_ hm (.of_get? (hspares.sound h.sound_after) (hspares'.sound h.sound_after) fun ks => ?_)
  · obtain ⟨text, htext⟩ := Option.isSome_iff_exists.1 hsource.1
    have hbefore : (noteChanges changes {} s after).1.textAt? (src ++ ks) = some text := by
      rw [FileTree.textAt?, hnoted, ← FileTree.textAt?, htext]
    refine readText_congr hleads hend ?_ hbefore
    rw [FileTree.textAt?, hupdated, ← FileTree.textAt?, htext]
  · rw [hupdated, hnoted]

/-- An expansion that the batch had no reason to repeat. -/
theorem entryNow?_kept {q : Path} {ks : List String} (hleads : q.Leads (src ++ ks))
    (hend : q.EndsInName) {text : String} (hbefore : before.textAt? (src ++ ks) = some text)
    (hafter : after.textAt? (src ++ ks) = some text) {m : CachedModule}
    (hm : s.entryNow? before q = some m)
    (haffected : ¬ s.Affected src changes after m.dependencies)
    (hlasts : Moment.Lasts ⟨s, before, q⟩ src (s.applyBatch changes after).2.1
      (s.applyBatch changes after).1) :
    (s.applyBatch changes after).2.1.entryNow? (s.applyBatch changes after).1 q = some m := by
  obtain ⟨hroot, hconfiguration⟩ := h.prepared.applyBatch_same
  refine hlasts.entryNow? hroot hconfiguration ?_ hm (h.unaffected haffected)
  refine readText_congr hleads hend ?_ hbefore
  rw [FileTree.textAt?, (h.get?_below ks).2, ← FileTree.textAt?, hafter]

/-- A module that the batch leaves as it is. -/
theorem provenance_kept (hcoherent : ∀ k ∈ s.cache.modules.keys, s.Coherent before k) {p : Path}
    {ks : List String} (hleads : p.Leads (src ++ ks)) {text : String}
    (hafter : after.textAt? (src ++ ks) = some text) {m : CachedModule}
    (hkept : s.keptIn changes p = some m) (hforced : (s.forcedIn changes after).contains p = false)
    (hbefore : ∀ text', before.textAt? (src ++ ks) = some text' →
      m.fingerprint = Text.digest text' → text' = text)
    (hcached : (s.applyBatch changes after).2.1.cache.get? p = some m) :
    ∃ o, Provenance s src before after changes o ∧ o.file.components = p.components ∧
      (s.applyBatch changes after).2.1.cache.get? p = o.entry? ∧
      (o.Lasts src (s.applyBatch changes after).2.1 (s.applyBatch changes after).1 →
        (s.applyBatch changes after).2.1.Coherent (s.applyBatch changes after).1 p) := by
  have haffected : ¬ s.Affected src changes after m.dependencies := fun haffected => by
    rw [h.prepared.forced_iff.2 ⟨m, hkept, haffected⟩] at hforced
    cases hforced
  have hm : s.cache.get? p = some m := by
    rw [keptIn] at hkept
    split at hkept
    · cases hkept
    · exact hkept
  obtain ⟨k, hk, hsame⟩ := PathMap.get?_eq_some_iff.1 hm
  obtain ⟨q, hq, hend, hentry⟩ := hcoherent k (List.mem_map_of_mem hk)
  have hcomponents := hq.trans hsame
  have hqleads : q.Leads (src ++ ks) := by
    rw [Path.leads_iff, hcomponents, hleads.components_eq]
  rw [ModuleCache.get?_congr _ hsame, hm] at hentry
  obtain ⟨text', x, hfile, -, rfl⟩ := entryNow?_eq_some.1 hentry
  have htext := (FileTree.readText_eq_ok_iff hqleads hend).1 hfile
  obtain rfl := hbefore text' htext rfl
  refine ⟨⟨s, before, q⟩, .kept ?_ hentry (readText_congr hqleads hend hafter htext) haffected,
    hcomponents, hcached.trans hentry.symm, fun hlasts => ⟨q, hcomponents, hend, ?_⟩⟩
  · rw [ModuleCache.get?_congr _ hcomponents, hm]
  · rw [h.entryNow?_kept hqleads hend htext hafter hentry haffected hlasts, hcached]

end

end Followed

/-- After a batch that is told of every change, what the cache has for a module is what the
batch has come to for it, or else what it has been, and then neither the text nor anything
that the expansion depends on has changed. It is what the module comes to now unless the
registry has come to give the module another answer since that expansion, or its searches
for translations to find something else. -/
theorem applyBatch_coherent (h : Followed s src out before after changes)
    (hcoherent : ∀ p ∈ s.cache.modules.keys, s.Coherent before p) :
    let updated := s.applyBatch changes after
    ∀ p ∈ updated.2.1.cache.modules.keys, updated.1.isFile p = true →
      (∀ f ∈ updated.2.2.failures, f.1.components ≠ p.components) →
      ∃ o, Provenance s src before after changes o ∧ o.file.components = p.components ∧
        updated.2.1.cache.get? p = o.entry? ∧
        (o.Lasts src updated.2.1 updated.1 → updated.2.1.Coherent updated.1 p) := by
  dsimp only
  intro p hp hfile hfailed
  obtain ⟨hmodule, ks, -, hleads, hend, hks⟩ := h.prepared.cachesSources_applyBatch p hp
  rw [isModule_congr h.prepared.applyBatch_same.2] at hmodule
  obtain ⟨m, hm⟩ : ∃ m, (s.applyBatch changes after).2.1.cache.get? p = some m := by
    obtain ⟨e, he, rfl⟩ := List.mem_map.1 hp
    exact ⟨e.2, PathMap.get?_eq_some_iff.2 ⟨e.1, he, rfl⟩⟩
  have hthere := (FileTree.isFile_iff hleads hend).1 hfile
  rw [FileTree.textAt?, (h.get?_below ks).2, ← FileTree.textAt?] at hthere
  obtain ⟨text, htext⟩ := Option.isSome_iff_exists.1 hthere
  by_cases hturn : ∃ u ∈ s.batchTurns changes after, u.file.components = p.components
  · obtain ⟨u, hu, hsame⟩ := hturn
    have hleft := (remembered_batchTurns hu).left
    rw [ModuleCache.get?_congr _ hsame, hm, Turn.leaves] at hleft
    rcases hresult : u.result with e | code | text' | _
    · exact absurd hsame (hfailed _ (applyBatch_reports hu hresult))
    · rw [hresult] at hleft
      obtain ⟨⟨-, -, -, huend, -⟩, -⟩ := h.prepared.batchTurns_source hu
      refine ⟨_, .renewed hu hresult, hsame, hm.trans hleft, fun hlasts =>
        ⟨u.file, hsame, huend, ?_⟩⟩
      rw [h.entryNow?_renewed hu hleft.symm hlasts]
      exact hm.symm
    · rw [hresult] at hleft
      cases hleft
    · rw [hresult] at hleft
      obtain ⟨hforced, m', hkept, hfingerprint⟩ :=
        (h.prepared.fresh_iff hu hleads hsame htext).1 hresult
      rw [ModuleCache.get?_congr _ hsame, get?_noteChanges, ← keptIn, hkept] at hleft
      cases hleft
      exact h.provenance_kept hcoherent hleads htext hkept hforced
        (fun text' hbefore hsame' => h.digests ks _ _ hbefore htext
          (hsame'.symm.trans hfingerprint)) hm
  · have hnot : ¬ ((s.forcedIn changes after).contains p = true ∨
        ∃ c ∈ changes, c.1.components = p.components) := fun hreason =>
      hturn ((h.prepared.mem_turns_iff hleads ⟨hthere, hks⟩ hmodule).2 hreason)
    rw [not_or, Bool.not_eq_true] at hnot
    have hkept : s.keptIn changes p = some m := by
      rw [← hm]
      exact (get?_applyBatch_of_ne fun u hu hsame => hturn ⟨u, hu, hsame⟩).symm
    refine h.provenance_kept hcoherent hleads htext hkept hnot.1 (fun text' hbefore _ => ?_) hm
    refine Classical.byContradiction fun hne => hnot.2 ?_
    obtain ⟨c, hc, hcleads⟩ := h.told_text ks fun heq => hne (by simpa [hbefore, htext] using heq)
    exact ⟨c, hc, hcleads.components_inj hleads⟩

/-! ## Flat projects -/

theorem flat_kindAt?_ne {files edited : List (String × String)} {ks : List String}
    (h : (flat files).kindAt? ks ≠ (flat edited).kindAt? ks) :
    ∃ n, ks = [n] ∧ (files.lookup n).isSome ≠ (edited.lookup n).isSome := by
  rw [FileTree.kindAt?, FileTree.kindAt?] at h
  rcases ks with _ | ⟨n, _ | ⟨n', ks⟩⟩
  · exact absurd rfl h
  · rw [flat_get?, flat_get?] at h
    refine ⟨n, rfl, fun hsame => h ?_⟩
    cases hfile : files.lookup n <;> cases hedited : edited.lookup n <;>
      simp_all [FileTree.isDirectory]
  · rw [flat_get?, flat_get?] at h
    exact absurd rfl h

theorem flat_textAt?_ne {files edited : List (String × String)} {ks : List String}
    (h : (flat files).textAt? ks ≠ (flat edited).textAt? ks) :
    ∃ n, ks = [n] ∧ files.lookup n ≠ edited.lookup n := by
  rw [FileTree.textAt?, FileTree.textAt?] at h
  rcases ks with _ | ⟨n, _ | ⟨n', ks⟩⟩
  · exact absurd rfl h
  · rw [flat_get?, flat_get?] at h
    exact ⟨n, rfl, fun heq => h (by rw [heq])⟩
  · rw [flat_get?, flat_get?] at h
    exact absurd rfl h

theorem flat_textAt? {files : List (String × String)} {ks : List String} {text : String}
    (h : (flat files).textAt? ks = some text) : ∃ n, ks = [n] ∧ (n, text) ∈ files := by
  rw [FileTree.textAt?_eq_some] at h
  rcases ks with _ | ⟨n, _ | ⟨n', ks⟩⟩
  · cases h
  · rw [flat_get?] at h
    obtain ⟨text', hlookup, heq⟩ := Option.map_eq_some_iff.1 h
    cases heq
    obtain ⟨before, after, rfl, -⟩ := List.lookup_eq_some_iff.1 hlookup
    exact ⟨n, rfl, List.mem_append_right _ List.mem_cons_self⟩
  · rw [flat_get?] at h
    cases h

theorem ofProject_fits {files : List (String × String)} (hfiles : FlatNames files) :
    ∀ job ∈ [Job.build true (unbuilt files)], job.Fits ["p", "src"] :=
  List.forall_mem_singleton.2 (unbuilt_sound hfiles)

/-- A batch after a build follows what has changed if all of it is told, and what has come
or gone is told as such. -/
theorem followed_ofProject {files edited : List (String × String)}
    {changes : List (String × PathChange)} (hfiles : FlatNames files) (hedited : FlatNames edited)
    (hnames : ∀ c ∈ changes, Path.IsName c.1)
    (hchanged : ∀ n ∈ (files ++ edited).map (·.1), files.lookup n ≠ edited.lookup n →
      ∃ c ∈ changes, c.1 = n ∧
        ((files.lookup n).isSome ≠ (edited.lookup n).isSome → c.2 ≠ .modified))
    (hdigests : ∀ f ∈ files, ∀ e ∈ edited, f.1 = e.1 → f.2 ≠ e.2 →
      Text.digest f.2 ≠ Text.digest e.2) :
    Followed (ofProject.after [.build true (unbuilt files)]) ["p", "src"]
      ["p", ".pagemacro", "out"] (unbuilt files) (unbuilt edited)
      (changes.map fun c => (ofProject.srcDir.join c.1, c.2)) := by
  have hleads : ∀ c ∈ changes, (ofProject.srcDir.join c.1).Leads (["p", "src"] ++ [c.1]) ∧
      (ofProject.srcDir.join c.1).EndsInName := fun c hc =>
    ofProject_apart.src_leads.join_name (hnames c hc)
  have htold : ∀ n, files.lookup n ≠ edited.lookup n →
      ∃ c ∈ changes.map fun c => (ofProject.srcDir.join c.1, c.2),
        c.1.Leads (["p", "src"] ++ [n]) ∧
          ((files.lookup n).isSome ≠ (edited.lookup n).isSome → c.2 ≠ .modified) := by
    intro n hne
    obtain ⟨c, hc, rfl, hmoved⟩ := hchanged n (mem_of_lookup_ne hne) hne
    exact ⟨_, List.mem_map_of_mem hc, (hleads c hc).1, hmoved⟩
  have hfits : (Job.batch (changes.map fun c => (ofProject.srcDir.join c.1, c.2))
      (unbuilt edited)).Fits ["p", "src"] := by
    refine ⟨List.forall_mem_map.2 fun c hc => ⟨_, (hleads c hc).1, (hleads c hc).2, ?_⟩, rfl⟩
    exact fun _ h => by cases h
  obtain ⟨hroot, hconfiguration, hcached, -⟩ := ofProject_begins.after_same (ofProject_fits hfiles)
  refine ⟨ofProject_begins.prepared hroot hconfiguration hcached hfits, unbuilt_sound hfiles,
    unbuilt_sound hedited, fun ks hne => ?_, fun ks hne => ?_, fun ks a b ha hb hsame => ?_⟩
  · have hflat : (flat files).textAt? ks ≠ (flat edited).textAt? ks := hne
    obtain ⟨n, rfl, hlookup⟩ := flat_textAt?_ne hflat
    obtain ⟨c, hc, hcleads, -⟩ := htold n hlookup
    exact ⟨c, hc, hcleads⟩
  · have hflat : (flat files).kindAt? ks ≠ (flat edited).kindAt? ks := hne
    obtain ⟨n, rfl, hsome⟩ := flat_kindAt?_ne hflat
    obtain ⟨c, hc, hcleads, hmoved⟩ := htold n fun heq => hsome (by rw [heq])
    exact ⟨c, hc, hcleads, hmoved hsome⟩
  · have hflat : (flat files).textAt? ks = some a := ha
    have hflat' : (flat edited).textAt? ks = some b := hb
    obtain ⟨n, rfl, hn⟩ := flat_textAt? hflat
    obtain ⟨n', heq, hn'⟩ := flat_textAt? hflat'
    cases heq
    exact Classical.byContradiction fun hne => hdigests _ hn _ hn' rfl hne hsame

/-- The cache is coherent if it has what each of its paths comes to. -/
theorem coherent_of_entries {t : FileTree} (hcached : CachesSources src s)
    (h : ∀ p ∈ s.cache.modules.keys, s.entryNow? t p = s.cache.get? p) :
    ∀ p ∈ s.cache.modules.keys, s.Coherent t p := by
  intro p hp
  obtain ⟨-, -, -, -, hend, -⟩ := hcached p hp
  exact ⟨p, rfl, hend, h p hp⟩

/-- A style sheet is added to a project with a module that loads the menus of its directory. -/
theorem applyBatch_coherent_ofProject :
    let files := [("a.ts", "import\x7bloadMenus as m\x7dfrom\"pages.macro\";m(\".\",\"/a\")"),
      ("index.tsx", "")]
    let s := ofProject.after [.build true (unbuilt files)]
    let after := unbuilt (files ++ [("b.css", "")])
    let changes := [("b.css", PathChange.created)].map fun c => (ofProject.srcDir.join c.1, c.2)
    Followed s ["p", "src"] ["p", ".pagemacro", "out"] (unbuilt files) after changes ∧
    (∀ p ∈ s.cache.modules.keys, s.Coherent (unbuilt files) p) ∧
    ⟨"/p/src/a.ts"⟩ ∈ (s.applyBatch changes after).2.1.cache.modules.keys ∧
    ∃ o, Provenance s ["p", "src"] (unbuilt files) after changes o ∧
      o.file.components = Path.components ⟨"/p/src/a.ts"⟩ ∧
      (s.applyBatch changes after).2.1.cache.get? ⟨"/p/src/a.ts"⟩ = o.entry? ∧
      (o.Lasts ["p", "src"] (s.applyBatch changes after).2.1 (s.applyBatch changes after).1 →
        (s.applyBatch changes after).2.1.Coherent (s.applyBatch changes after).1
          ⟨"/p/src/a.ts"⟩) := by
  intro files s after changes
  have hfiles : FlatNames files := ⟨by decide, by decide⟩
  have hfollowed : Followed s ["p", "src"] ["p", ".pagemacro", "out"] (unbuilt files) after
      changes :=
    followed_ofProject hfiles ⟨by decide, by decide⟩ (by decide) (by decide) (by decide +kernel)
  have hcoherent : ∀ p ∈ s.cache.modules.keys, s.Coherent (unbuilt files) p :=
    coherent_of_entries (ofProject_begins.after_same (ofProject_fits hfiles)).2.2.1
      (by decide +kernel)
  have hupdated : ⟨"/p/src/a.ts"⟩ ∈ (s.applyBatch changes after).2.1.cache.modules.keys ∧
      (s.applyBatch changes after).1.isFile ⟨"/p/src/a.ts"⟩ = true ∧
      (s.applyBatch changes after).2.2.failures.length = 0 := by
    decide +kernel
  have hall := applyBatch_coherent hfollowed hcoherent
  dsimp only at hall
  -- none of the steps below has to look into the batch
  generalize s.applyBatch changes after = r at hupdated hall ⊢
  obtain ⟨hkey, hfile, hnone⟩ := hupdated
  refine ⟨hfollowed, hcoherent, hkey, hall _ hkey hfile ?_⟩
  rw [List.length_eq_zero_iff.1 hnone]
  exact nofun

/-- Everything lasts for a module that asks and searches nothing, if the one directory that
it watches stays. -/
theorem Moment.lasts_of_quiet {o : Moment} {src ks : List String} {s : Session} {t : FileTree}
    {dir : Path} (hleads : dir.Leads (src ++ ks)) (hks : "node_modules" ∉ ks)
    (h : (o.session.questionsOf o.tree o.file).length = 0 ∧
      (o.session.searchesOf o.tree o.file).length = 0 ∧
      (o.entry?.all fun m => m.dependencies.watched == [dir]) = true ∧
      o.tree.isDir dir = true ∧ t.isDir dir = true) : o.Lasts src s t := by
  obtain ⟨hquestions, hsearches, hwatched, hbefore, hafter⟩ := h
  refine ⟨?_, fun m _ p hp => ?_, fun m hm _ d hd => ?_⟩
  · rw [List.length_eq_zero_iff.1 hquestions]
    exact fun _ hq => absurd hq List.not_mem_nil
  · rw [List.length_eq_zero_iff.1 hsearches] at hp
    exact absurd hp List.not_mem_nil
  · rw [hm] at hwatched
    rw [eq_of_beq hwatched, List.mem_singleton] at hd
    subst hd
    exact .inl ⟨⟨ks, hleads, hks⟩, hbefore, hafter⟩

/-- In this batch nothing that the module was told of is different afterwards. -/
example :
    let files := [("a.ts", "import\x7bloadMenus as m\x7dfrom\"pages.macro\";m(\".\",\"/a\")"),
      ("index.tsx", "")]
    let s := ofProject.after [.build true (unbuilt files)]
    let after := unbuilt (files ++ [("b.css", "")])
    let updated := s.applyBatch [(⟨"/p/src/b.css"⟩, .created)] after
    Moment.Lasts ⟨s, unbuilt files, ⟨"/p/src/a.ts"⟩⟩ ["p", "src"] updated.2.1 updated.1 :=
  have hleads : Path.Leads ⟨"/p/src"⟩ (["p", "src"] ++ []) := Path.leads_iff.2 (by decide)
  Moment.lasts_of_quiet hleads List.not_mem_nil (by decide +kernel)

/-- The page is expanded from the route of its directory, and the cache keeps that when the
directory gets another route. -/
theorem applyBatch_incoherent :
    let s := ofProject.after [.build true (unbuilt (mounted "/a"))]
    let after := unbuilt (mounted "/b")
    let changes := [("a.ts", PathChange.modified)].map fun c => (ofProject.srcDir.join c.1, c.2)
    Followed s ["p", "src"] ["p", ".pagemacro", "out"] (unbuilt (mounted "/a")) after changes ∧
    (∀ p ∈ s.cache.modules.keys, s.Coherent (unbuilt (mounted "/a")) p) ∧
    let updated := s.applyBatch changes after
    ¬ ∀ p ∈ updated.2.1.cache.modules.keys, updated.1.isFile p = true →
      (∀ f ∈ updated.2.2.failures, f.1.components ≠ p.components) →
      (updated.2.1.entryNow? updated.1 p).map (·.output) =
        (updated.2.1.cache.get? p).map (·.output) := by
  have hfiles : FlatNames (mounted "/a") := ⟨by decide, by decide⟩
  refine ⟨?_, ?_, ?_⟩
  · exact followed_ofProject hfiles ⟨by decide, by decide⟩ (by decide) (by decide)
      (by decide +kernel)
  · exact coherent_of_entries (ofProject_begins.after_same (ofProject_fits hfiles)).2.2.1
      (by decide +kernel)
  · decide +kernel

end SiteMacros.Session
