import SiteMacros.Proofs.FlatProjects
import SiteMacros.Proofs.Forced

/-!
# Attempts

Whether a batch attempts a module is settled by its last expansion that is remembered, and
the cache remembers no failure. So it is the history of the session that counts: an
expansion is recalled as long as the module has not been told to be gone, and has not been
found without macros; failing does nothing to it (`Recalls`, `get?_after_iff`). A module is
attempted if the expansion that is recalled depends on what has changed, or if the batch is
told of the module itself and has not come to the text of that expansion
(`attempted_iff`).

A module that has always failed is not recalled, and so nothing brings it back but a change
of its own file (`attempted_of_failed_iff`): not the page that gives it the route it asks
for (`failed_not_attempted`).
-/

namespace SiteMacros.Session

variable {s : Session} {src out : List String}

/-! ## Histories -/

/-- What a session is given to do, with the files as they are by then. -/
inductive Job where
  | build (write : Bool) (tree : FileTree)
  | batch (changes : List (Path × PathChange)) (tree : FileTree)

namespace Job

/-- The session after the job. -/
def session (s : Session) : Job → Session
  | .build write tree => (s.build write tree).1.2
  | .batch changes tree => (s.applyBatch changes tree).2.1

/-- The last turn that each module has in the job. -/
def turns (s : Session) : Job → List Turn
  | .build _ tree =>
      match s.sourceFiles tree with
      | .ok files => s.turns tree (fun _ => true) (files.filter s.isModule)
      | .error _ => []
  | .batch changes tree => s.batchTurns changes tree

/-- The files that the modules are read from. -/
def tree (s : Session) : Job → FileTree
  | .build _ tree => tree
  | .batch changes tree => (noteChanges changes {} s tree).1

/-- Is the job told that the module is gone? -/
def gone (q : Path) : Job → Bool
  | .build .. => false
  | .batch changes _ => changes.any (tellsGone q)

/-- What the cache still has for a module when the job comes to its modules. -/
def kept (s : Session) (q : Path) (job : Job) : Option CachedModule :=
  if job.gone q then none else s.cache.get? q

/-- A job on files that can be there, with changes that can be told. -/
def Fits (src : List String) : Job → Prop
  | .build _ tree => tree.Sound
  | .batch changes tree => (∀ c ∈ changes, Told src c) ∧ tree.textAt? src = none

end Job

/-- The session after jobs, the latest of which comes first. -/
def after (s : Session) : List Job → Session
  | [] => s
  | job :: earlier => job.session (s.after earlier)

/-- The expansion of a module that a history recalls: the last one, if the module has not
been told to be gone since, and no turn of it has come to anything but failures. -/
inductive Recalls (s : Session) (q : Path) : List Job → CachedModule → Prop
  | expanded {earlier : List Job} {job : Job} {m : CachedModule} {u : Turn}
      (hu : u ∈ job.turns (s.after earlier)) (hfile : u.file.components = q.components)
      {code : String} (hresult : u.result = .ok (.expanded code))
      (hm : u.before.entryNow? (job.tree (s.after earlier)) u.file = some m) :
      Recalls s q (job :: earlier) m
  | spared {earlier : List Job} {job : Job} {m : CachedModule} (h : Recalls s q earlier m)
      (hgone : job.gone q = false)
      (hturns : ∀ u ∈ job.turns (s.after earlier), u.file.components = q.components →
        u.result = .ok .fresh ∨ ∃ e, u.result = .error e) :
      Recalls s q (job :: earlier) m

/-- A new session of a project. -/
structure Begins (s : Session) (src out : List String) : Prop where
  apart : s.Apart src out
  modules : "node_modules" ∉ src
  resources : ∀ p, s.isModule p = true → isResource p = false
  fresh : s.cache.modules.keys = []

/-! ## One job -/

theorem build_session {t : FileTree} {files : List Path} (write : Bool)
    (hfiles : s.sourceFiles t = .ok files) :
    (s.build write t).1.2 = (s.processAll t (fun _ => true) (files.filter s.isModule)).1 := by
  unfold build
  rw [hfiles]
  dsimp only
  rw [List.partition_eq_filter_filter]
  cases write <;> rfl

theorem build_session_of_error {t : FileTree} {e : Failure} (write : Bool)
    (hfiles : s.sourceFiles t = .error e) : (s.build write t).1.2 = s := by
  unfold build
  rw [hfiles]

/-- What a job comes to, as far as the history is concerned. -/
structure Job.Done (job : Job) (src : List String) (s : Session) : Prop where
  root : (job.session s).root = s.root
  configuration : (job.session s).configuration = s.configuration
  cached : CachesSources src (job.session s)
  turn {u : Turn} {q : Path} (hu : u ∈ job.turns s) (hfile : u.file.components = q.components) :
    (job.session s).cache.get? q = u.leaves (job.tree s) (job.kept s q)
  noTurn {q : Path} (h : ∀ u ∈ job.turns s, u.file.components ≠ q.components) :
    (job.session s).cache.get? q = job.kept s q

theorem done_build (happart : s.Apart src out) (hcached : CachesSources src s) {t : FileTree}
    (hsound : t.Sound) (write : Bool) : (Job.build write t).Done src s := by
  have hkept : ∀ q, (Job.build write t).kept s q = s.cache.get? q := fun q =>
    if_neg Bool.false_ne_true
  cases hfiles : s.sourceFiles t with
  | error e =>
      have hsession : (Job.build write t).session s = s := build_session_of_error write hfiles
      have hturns : (Job.build write t).turns s = [] := by
        unfold Job.turns
        simp only [hfiles]
      refine ⟨by rw [hsession], by rw [hsession], by rwa [hsession], fun hu => ?_, fun _ => ?_⟩
      · rw [hturns] at hu
        exact absurd hu List.not_mem_nil
      · rw [hsession, hkept]
  | ok files =>
      have hsession : (Job.build write t).session s =
          (s.processAll t (fun _ => true) (files.filter s.isModule)).1 := build_session write hfiles
      have hturns : (Job.build write t).turns s =
          s.turns t (fun _ => true) (files.filter s.isModule) := by
        unfold Job.turns
        simp only [hfiles]
      have hlater := s.processAll_later t (fun _ => true) (files.filter s.isModule)
      have hdistinct : Distinct (files.filter s.isModule) :=
        (distinct_sourceFiles happart hsound hfiles).filter _
      refine ⟨by rw [hsession]; exact hlater.root, by rw [hsession]; exact hlater.configuration,
        fun k hk => ?_, fun {u q} hu hfile => ?_, fun {q} h => ?_⟩
      · rw [hsession] at hk ⊢
        rw [isModule_congr hlater.configuration]
        rcases processAll_cached hk with hk | hk
        · exact hcached k hk
        · obtain ⟨hfile, hmodule⟩ := List.mem_filter.1 hk
          obtain ⟨es, hes, -⟩ := sourceFiles_perm happart hsound hfiles
          obtain ⟨ks, hks, rfl⟩ := (mem_sourceFiles_iff happart hsound hfiles).1 hfile
          obtain ⟨hne, hleads, hend⟩ := happart.leads_of_hasSource hsound hes hks
          exact ⟨hmodule, ks, hne, hleads, hend, hks.2⟩
      · rw [hturns] at hu
        have hleft := (remembered_turns hdistinct hu).left
        rw [ModuleCache.get?_congr _ hfile, ModuleCache.get?_congr _ hfile] at hleft
        rw [hsession, hkept]
        exact hleft
      · rw [hsession, hkept]
        refine get?_processAll_of_ne fun p hp hsame => ?_
        obtain ⟨u, hu, rfl⟩ := @exists_turn t (fun _ => true) s _ p hp
        exact h u (by rwa [hturns]) hsame.symm

theorem Prepared.done_batch {changes : List (Path × PathChange)} {t : FileTree}
    (h : Prepared s src out changes t) : (Job.batch changes t).Done src s := by
  have hsession : (Job.batch changes t).session s = (s.applyBatch changes t).2.1 := rfl
  have hkept : ∀ q, (Job.batch changes t).kept s q = s.keptIn changes q := fun _ => rfl
  refine ⟨by rw [hsession, h.applyBatch_same.1], by rw [hsession, h.applyBatch_same.2],
    by rw [hsession]; exact h.cachesSources_applyBatch, fun {u q} hu hfile => ?_, fun {q} h => ?_⟩
  · have hleft := (remembered_batchTurns hu).left
    rw [ModuleCache.get?_congr _ hfile, ModuleCache.get?_congr _ hfile, get?_noteChanges,
      ← keptIn, ← hkept] at hleft
    rw [hsession]
    exact hleft
  · rw [hsession, hkept]
    exact get?_applyBatch_of_ne h

/-! ## What is recalled -/

section

variable (h : Begins s src out)
include h

theorem Begins.prepared {now : Session} (hroot : now.root = s.root)
    (hconfiguration : now.configuration = s.configuration) (hcached : CachesSources src now)
    {changes : List (Path × PathChange)} {t : FileTree} (hfits : (Job.batch changes t).Fits src) :
    Prepared now src out changes t where
  apart := h.apart.congr hroot hconfiguration
  modules := h.modules
  resources p hp := h.resources p (by rwa [isModule_congr hconfiguration] at hp)
  directory := hfits.2
  cached := hcached
  told := hfits.1

/-- A session keeps its project, and caches modules of the source tree only. -/
theorem Begins.after_same {jobs : List Job} (hfits : ∀ job ∈ jobs, job.Fits src) :
    (s.after jobs).root = s.root ∧ (s.after jobs).configuration = s.configuration ∧
      CachesSources src (s.after jobs) ∧
      ∀ job : Job, job.Fits src → job.Done src (s.after jobs) := by
  have hdone : ∀ {now : Session}, now.root = s.root → now.configuration = s.configuration →
      CachesSources src now → ∀ job : Job, job.Fits src → job.Done src now := by
    intro now hroot hconfiguration hcached job hfits
    cases job with
    | build write t => exact done_build (h.apart.congr hroot hconfiguration) hcached hfits write
    | batch changes t => exact (h.prepared hroot hconfiguration hcached hfits).done_batch
  induction jobs with
  | nil =>
      have hcached : CachesSources src s := fun k hk => by
        rw [h.fresh] at hk
        exact absurd hk List.not_mem_nil
      exact ⟨rfl, rfl, hcached, hdone rfl rfl hcached⟩
  | cons job earlier ih =>
      obtain ⟨hjob, hearlier⟩ := List.forall_mem_cons.1 hfits
      obtain ⟨hroot, hconfiguration, hcached, -⟩ := ih hearlier
      have hlast := hdone hroot hconfiguration hcached job hjob
      have hroot' := hlast.root.trans hroot
      have hconfiguration' := hlast.configuration.trans hconfiguration
      exact ⟨hroot', hconfiguration', hlast.cached, hdone hroot' hconfiguration' hlast.cached⟩

/-- What the cache has for a module after a history is the expansion that is recalled. -/
theorem Begins.get?_after_iff {jobs : List Job} (hfits : ∀ job ∈ jobs, job.Fits src) {q : Path}
    {m : CachedModule} : (s.after jobs).cache.get? q = some m ↔ Recalls s q jobs m := by
  induction jobs generalizing m with
  | nil =>
      refine iff_of_false (fun hm => ?_) nofun
      obtain ⟨k, hk, -⟩ := PathMap.get?_eq_some_iff.1 hm
      have hkey : k ∈ (s.after []).cache.modules.keys := List.mem_map_of_mem (f := (·.1)) hk
      rw [after, h.fresh] at hkey
      exact absurd hkey List.not_mem_nil
  | cons job earlier ih =>
      obtain ⟨hjob, hearlier⟩ := List.forall_mem_cons.1 hfits
      have hdone := (h.after_same hearlier).2.2.2 job hjob
      have hkept : job.kept (s.after earlier) q = some m ↔
          job.gone q = false ∧ Recalls s q earlier m := by
        rw [← ih hearlier, Job.kept]
        cases job.gone q <;> simp
      -- a turn that comes to nothing or fails leaves what is there
      have hspared : (∀ u ∈ job.turns (s.after earlier), u.file.components = q.components →
          u.result = .ok .fresh ∨ ∃ e, u.result = .error e) →
          (job.session (s.after earlier)).cache.get? q = job.kept (s.after earlier) q := by
        intro hturns
        by_cases hturn : ∃ u ∈ job.turns (s.after earlier), u.file.components = q.components
        · obtain ⟨u, hu, hfile⟩ := hturn
          rw [hdone.turn hu hfile, Turn.leaves]
          rcases hturns u hu hfile with hresult | ⟨e, hresult⟩ <;> rw [hresult]
        · exact hdone.noTurn fun u hu hfile => hturn ⟨u, hu, hfile⟩
      rw [after]
      constructor
      · intro hm
        by_cases hexpanded : ∃ u ∈ job.turns (s.after earlier),
            u.file.components = q.components ∧ ∃ code, u.result = .ok (.expanded code)
        · obtain ⟨u, hu, hfile, code, hresult⟩ := hexpanded
          rw [hdone.turn hu hfile, Turn.leaves, hresult] at hm
          exact .expanded hu hfile hresult hm
        · have hturns : ∀ u ∈ job.turns (s.after earlier), u.file.components = q.components →
              u.result = .ok .fresh ∨ ∃ e, u.result = .error e := by
            intro u hu hfile
            rcases hresult : u.result with e | code | text | _
            · exact .inr ⟨e, rfl⟩
            · exact absurd ⟨u, hu, hfile, code, hresult⟩ hexpanded
            · rw [hdone.turn hu hfile, Turn.leaves, hresult] at hm
              cases hm
            · exact .inl rfl
          rw [hspared hturns, hkept] at hm
          exact .spared hm.2 hm.1 hturns
      · rintro (⟨hu, hfile, hresult, hm⟩ | ⟨hm, hgone, hturns⟩)
        · rw [hdone.turn hu hfile, Turn.leaves, hresult, hm]
        · rw [hspared hturns, hkept]
          exact ⟨hgone, hm⟩

/-- What is recalled is kept unless the module is told to be gone. -/
theorem Begins.keptIn_iff {jobs : List Job} (hfits : ∀ job ∈ jobs, job.Fits src) {q : Path}
    {changes : List (Path × PathChange)} {m : CachedModule} :
    (s.after jobs).keptIn changes q = some m ↔
      Recalls s q jobs m ∧ ∀ c ∈ changes, tellsGone q c = false := by
  rw [← h.get?_after_iff hfits, keptIn]
  split
  · next hgone =>
      obtain ⟨c, hc, hgone⟩ := List.any_eq_true.1 hgone
      refine iff_of_false (fun hm => ?_) fun hm => ?_
      · cases hm
      · rw [hm.2 c hc] at hgone
        cases hgone
  · next hnot =>
      have hnone : ∀ c ∈ changes, tellsGone q c = false := by simpa using hnot
      exact (and_iff_left hnone).symm

end

/-! ## What is attempted -/

/-- A batch attempts a module that is there if the expansion that is recalled depends on
what has changed, and the module is not told to be gone; or if it is told of the module,
which has not come to the text of that expansion, or is forgotten first. -/
theorem attempted_iff (h : Begins s src out) {earlier : List Job}
    (hearlier : ∀ job ∈ earlier, job.Fits src) {changes : List (Path × PathChange)} {t : FileTree}
    (hfits : (Job.batch changes t).Fits src) {q : Path} {ks : List String}
    (hq : q.Leads (src ++ ks)) (hks : "node_modules" ∉ ks) {text : String}
    (htext : t.textAt? (src ++ ks) = some text) (hmodule : s.isModule q = true) :
    let now := s.after earlier
    (∃ u ∈ now.batchTurns changes t, u.file.components = q.components ∧
        u.result ≠ .ok .fresh) ↔
      (∃ m, Recalls s q earlier m ∧ (∀ c ∈ changes, tellsGone q c = false) ∧
        now.Affected src changes t m.dependencies) ∨
      (∃ c ∈ changes, c.1.components = q.components) ∧
        ∀ m, Recalls s q earlier m → m.fingerprint = Text.digest text →
          ∃ c ∈ changes, tellsGone q c = true := by
  dsimp only
  obtain ⟨hroot, hconfiguration, hcached, -⟩ := h.after_same hearlier
  have hprepared := h.prepared hroot hconfiguration hcached hfits
  have hsource : HasSource src t ks := ⟨by rw [htext]; rfl, hks⟩
  rw [hprepared.attempts_iff hq hsource (by rwa [isModule_congr hconfiguration]) htext]
  simp only [h.keptIn_iff hearlier, and_assoc]
  refine or_congr Iff.rfl (and_congr_right fun _ => forall_congr' fun m => ?_)
  constructor
  · intro hchanged hrecalls hfingerprint
    refine Classical.byContradiction fun hnot => hchanged ⟨hrecalls, fun c hc => ?_⟩ hfingerprint
    exact Bool.eq_false_iff.2 fun hgone => hnot ⟨c, hc, hgone⟩
  · rintro hgone ⟨hrecalls, hnot⟩ hfingerprint
    obtain ⟨c, hc, hgone⟩ := hgone hrecalls hfingerprint
    rw [hnot c hc] at hgone
    cases hgone

/-- A module all of whose turns have failed is not recalled. -/
theorem not_recalls_of_failed {q : Path} {jobs : List Job} {m : CachedModule}
    (hfailed : ∀ job earlier, job :: earlier <:+ jobs → ∀ u ∈ job.turns (s.after earlier),
      u.file.components = q.components → ∃ e, u.result = .error e) : ¬ Recalls s q jobs m := by
  intro hrecalls
  induction hrecalls with
  | expanded hu hfile hresult _ =>
      obtain ⟨e, herror⟩ := hfailed _ _ (List.suffix_refl _) _ hu hfile
      rw [hresult] at herror
      cases herror
  | spared _ _ _ ih =>
      exact ih fun job earlier hsuffix =>
        hfailed job earlier (hsuffix.trans (List.suffix_cons _ _))

/-- A module that has failed from the start is attempted again only if the batch is told of
it, whatever else has changed. -/
theorem attempted_of_failed_iff (h : Begins s src out) {earlier : List Job}
    (hearlier : ∀ job ∈ earlier, job.Fits src) {changes : List (Path × PathChange)} {t : FileTree}
    (hfits : (Job.batch changes t).Fits src) {q : Path} {ks : List String}
    (hq : q.Leads (src ++ ks)) (hsource : HasSource src t ks) (hmodule : s.isModule q = true)
    (hfailed : ∀ job past, job :: past <:+ earlier → ∀ u ∈ job.turns (s.after past),
      u.file.components = q.components → ∃ e, u.result = .error e) :
    (∃ u ∈ (s.after earlier).batchTurns changes t, u.file.components = q.components ∧
        u.result ≠ .ok .fresh) ↔ ∃ c ∈ changes, c.1.components = q.components := by
  obtain ⟨hroot, hconfiguration, hcached, -⟩ := h.after_same hearlier
  have hprepared := h.prepared hroot hconfiguration hcached hfits
  obtain ⟨text, htext⟩ := Option.isSome_iff_exists.1 hsource.1
  have hnone : ∀ m, (s.after earlier).keptIn changes q ≠ some m := fun m hm =>
    not_recalls_of_failed hfailed ((h.keptIn_iff hearlier).1 hm).1
  rw [hprepared.attempts_iff hq hsource (by rwa [isModule_congr hconfiguration]) htext]
  simp [hnone]

theorem ofProject_begins : Begins ofProject ["p", "src"] ["p", ".pagemacro", "out"] where
  apart := ofProject_apart
  modules := by decide
  resources _ hp := isResource_of_isModule (by decide) (by decide) hp
  fresh := rfl

/-- A layout comes into a directory, and the module that loads the menus of the directory is
expanded again. -/
theorem attempted_ofProject :
    let files := [("a.ts", "import\x7bloadMenus as m\x7dfrom\"pages.macro\";m(\".\",\"/a\")"),
      ("index.tsx", "")]
    let first : Job := .build true (unbuilt files)
    let tree := unbuilt (files ++ [("layout.tsx", "")])
    let changes := [(ofProject.srcDir.join "layout.tsx", PathChange.created)]
    let menus := ofProject.srcDir.join "a.ts"
    Begins ofProject ["p", "src"] ["p", ".pagemacro", "out"] ∧
    (∀ job ∈ [first], job.Fits ["p", "src"]) ∧ (Job.batch changes tree).Fits ["p", "src"] ∧
    ∃ u ∈ (ofProject.after [first]).batchTurns changes tree,
      u.file.components = menus.components ∧ u.result ≠ .ok .fresh := by
  intro files first tree changes menus
  have hfirst : ∀ job ∈ [first], job.Fits ["p", "src"] :=
    List.forall_mem_singleton.2 (unbuilt_sound ⟨by decide, by decide⟩)
  have htold : (Job.batch changes tree).Fits ["p", "src"] := by
    obtain ⟨hleads, hend⟩ := ofProject_apart.src_leads.join_name
      (by decide : Path.IsName "layout.tsx")
    exact ⟨List.forall_mem_singleton.2 ⟨_, hleads, hend, fun h => by cases h⟩, rfl⟩
  have hcached : ((ofProject.after [first]).cache.get? menus).map
      (·.dependencies.pageStructure) = some true ∧
      (ofProject.after [first]).tellsShape (ofProject.srcDir.join "layout.tsx", .created) =
        true := by
    decide +kernel
  obtain ⟨m, hm, hpages⟩ := Option.map_eq_some_iff.1 hcached.1
  refine ⟨ofProject_begins, hfirst, htold, ?_⟩
  have hmenus : menus.Leads (["p", "src"] ++ ["a.ts"]) :=
    (ofProject_apart.src_leads.join_name (by decide)).1
  refine (attempted_iff ofProject_begins hfirst htold hmenus (by decide) rfl (by decide +kernel)).2
    (.inl ⟨m, (ofProject_begins.get?_after_iff hfirst).1 hm, ?_, ?_⟩)
  · exact List.forall_mem_singleton.2 rfl
  · exact .shape List.mem_cons_self hcached.2 hpages

/-- A page that asks for its route, in a directory that no module has given one. -/
def asking : List (String × String) :=
  [("index.tsx", "import\x7bresolveRoute as r\x7dfrom\"pages.macro\";r()")]

/-- A layout of the directory, which gives it a route. -/
def mounting : String × String :=
  ("layout.tsx", "import\x7bloadMenus as m\x7dfrom\"pages.macro\";m(\".\",\"/a\")")

/-- The page fails for want of a route. The layout that comes then is a change of the page
structure, and gives the directory its route; but the page is not attempted, although it
would be expanded. -/
theorem failed_not_attempted :
    let first : Job := .build true (unbuilt asking)
    let tree := unbuilt (asking ++ [mounting])
    let page : Path := ⟨"/p/src/index.tsx"⟩
    let changes := [((⟨"/p/src/layout.tsx"⟩ : Path), PathChange.created)]
    let now := ofProject.after [first]
    let updated := now.applyBatch changes tree
    (∃ u ∈ first.turns ofProject, u.file = page ∧
      u.result = .error (.unexpanded page (.unregisteredCallSite page))) ∧
    updated.1.isFile page = true ∧
    (∃ c ∈ changes, now.tellsShape c = true) ∧
    now.registry.size < updated.2.1.registry.size ∧
    (¬ ∃ u ∈ now.batchTurns changes tree, u.file.components = page.components) ∧
    (updated.2.1.process updated.1 true page).2 = .ok (.expanded "\"/a\"") := by
  decide +kernel

end SiteMacros.Session
