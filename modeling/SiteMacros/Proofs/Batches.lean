import SiteMacros.Proofs.Rewrites

/-!
# What a batch processes

A batch processes the modules it is told of and those in the cache that depend on
what has changed. All of them are source files with the ending of a module
(`Prepared.mem_batchModules`), so the output tree gets nothing but their texts and
copies of the other files it is told of (`Prepared.applyBatch_placed`).
-/

namespace SiteMacros

namespace Session

variable {s : Session} {src out : List String}

theorem process_cached {t : FileTree} {b : Bool} {p k : Path}
    (hk : k ∈ (s.process t b p).1.cache.modules.keys) : k ∈ s.cache.modules.keys ∨ k = p := by
  rw [process] at hk
  split at hk
  · exact .inl hk
  · dsimp only at hk
    split at hk
    · exact .inl hk
    · split at hk
      · exact .inl hk
      · exact .inl (PathMap.mem_keys_erase hk)
      · exact PathMap.mem_keys_insert hk

theorem pass_cached {t : FileTree} {force : Path → Bool} {ps : List Path} {k : Path}
    (hk : k ∈ (s.pass t force ps).1.cache.modules.keys) : k ∈ s.cache.modules.keys ∨ k ∈ ps := by
  induction ps generalizing s with
  | nil => exact .inl hk
  | cons p ps ih =>
      rw [pass] at hk
      rcases ih hk with hk | hk
      · exact (process_cached hk).imp id fun heq => by rw [heq]; exact List.mem_cons_self
      · exact .inr (List.mem_cons_of_mem p hk)

theorem mem_of_mem_waiting {t : FileTree} {force : Path → Bool} {ps : List Path} {p : Path}
    (hp : p ∈ (waiting (s.pass t force ps).2).map (·.1)) : p ∈ ps := by
  obtain ⟨r, hr, rfl⟩ := List.mem_map.1 hp
  rw [← pass_paths s t force ps]
  exact List.mem_map_of_mem (List.mem_filter.1 hr).1

theorem passes_cached {t : FileTree} {force : Path → Bool} {more : Nat} {ps : List Path} {k : Path}
    (hk : k ∈ (s.passes t force more ps).1.cache.modules.keys) :
    k ∈ s.cache.modules.keys ∨ k ∈ ps := by
  induction more generalizing s force ps with
  | zero =>
      rw [passes_zero] at hk
      exact pass_cached hk
  | succ more ih =>
      rw [passes_succ] at hk
      dsimp only at hk
      split at hk
      · exact pass_cached hk
      · rcases ih hk with hk | hk
        · exact pass_cached hk
        · exact .inr (mem_of_mem_waiting hk)

/-- What is in the cache afterwards was there before or has been processed. -/
theorem processAll_cached {t : FileTree} {force : Path → Bool} {modules : List Path} {k : Path}
    (hk : k ∈ (s.processAll t force modules).1.cache.modules.keys) :
    k ∈ s.cache.modules.keys ∨ k ∈ modules :=
  (passes_cached hk).imp id (s.inOrder_perm t modules).mem_iff.1

theorem mem_select {cache : ModuleCache} {property : Dependencies → Bool} {k : Path}
    (hk : k ∈ cache.select property) : k ∈ cache.modules.keys := by
  obtain ⟨e, he, rfl⟩ := List.mem_map.1 hk
  exact List.mem_map_of_mem (List.mem_filter.1 he).1

/-- What depends on a change is in the cache. -/
theorem mem_dependents {plan : Plan} {cache : ModuleCache} {k : Path}
    (hk : k ∈ (plan.dependents cache).toList) : k ∈ cache.modules.keys := by
  rw [Plan.dependents] at hk
  rcases PathSet.mem_addAll hk with hk | hk
  · rcases PathSet.mem_addAll hk with hk | hk
    · rcases PathSet.mem_addAll hk with hk | hk
      · exact absurd hk List.not_mem_nil
      · split at hk
        · exact mem_select hk
        · exact absurd hk List.not_mem_nil
    · obtain ⟨dir, -, hk⟩ := List.mem_flatMap.1 hk
      exact mem_select hk
  · split at hk
    · exact mem_select hk
    · exact absurd hk List.not_mem_nil

/-- The modules that a batch processes. -/
def batchModules (s : Session) (t : FileTree) (plan : Plan) : List Path :=
  ((PathSet.addAll (plan.dependents s.cache) plan.sources.toList).toList).filter t.isFile

/-- What becomes of the modules in a batch. -/
def batchResults (s : Session) (changes : List (Path × PathChange)) (t : FileTree) :
    List Processed :=
  let (t, s, _, plan) := noteChanges changes {} s t
  (s.processAll t (plan.dependents s.cache).contains (s.batchModules t plan)).2

theorem applyBatch_eq (s : Session) (changes : List (Path × PathChange)) (t : FileTree) :
    s.applyBatch changes t =
      let noted := noteChanges changes {} s t
      let processed := noted.2.1.processAll noted.1
        (noted.2.2.2.dependents noted.2.1.cache).contains
        (noted.2.1.batchModules noted.1 noted.2.2.2)
      let rewritten := processed.1.rewriteAll processed.2 { pruned := noted.2.2.1 } noted.1
      let copied := processed.1.copyAll noted.2.2.2.assets.toList rewritten.2 rewritten.1
      (copied.1, processed.1, copied.2) := by
  unfold applyBatch
  rfl

theorem batchResults_eq (s : Session) (changes : List (Path × PathChange)) (t : FileTree) :
    s.batchResults changes t =
      let noted := noteChanges changes {} s t
      (noted.2.1.processAll noted.1 (noted.2.2.2.dependents noted.2.1.cache).contains
        (noted.2.1.batchModules noted.1 noted.2.2.2)).2 := by
  unfold batchResults
  rfl

theorem isModule_of_components {p q : Path} (h : p.components = q.components) :
    s.isModule p = s.isModule q := by
  rw [isModule, isModule, Configuration.isModule, Configuration.isModule, Path.extension?,
    Path.extension?, Path.fileName?, Path.fileName?, h]

/-- The cache has modules of the source tree only. -/
def CachesSources (src : List String) (s : Session) : Prop :=
  ∀ k ∈ s.cache.modules.keys, s.isModule k = true ∧
    ∃ ks, ks ≠ [] ∧ k.Leads (src ++ ks) ∧ k.EndsInName ∧ "node_modules" ∉ ks

/-- What a batch needs to know of the session and of what it is told. -/
structure Prepared (s : Session) (src out : List String) (changes : List (Path × PathChange))
    (t : FileTree) : Prop where
  apart : s.Apart src out
  modules : "node_modules" ∉ src
  resources : ∀ p, s.isModule p = true → isResource p = false
  directory : t.textAt? src = none
  cached : CachesSources src s
  told : ∀ c ∈ changes, Told src c

section

variable {changes : List (Path × PathChange)} {t : FileTree}

theorem Prepared.noted (h : Prepared s src out changes t) :
    Noted src out changes s (noteChanges changes {} s t).2.1 t (noteChanges changes {} s t).1 {}
      (noteChanges changes {} s t).2.2.2 :=
  noteChanges_noted h.apart h.modules h.resources h.directory h.told {}

theorem Prepared.mem_files (h : Prepared s src out changes t) (modules : Bool) {p : Path}
    (hp : p ∈ ((noteChanges changes {} s t).2.2.2.files modules).toList) :
    IsSource src t p ∧ s.isModule p = modules := by
  rcases h.noted.files modules p hp with hp | hp
  · cases modules <;> exact absurd hp List.not_mem_nil
  · exact hp.2

/-- What may have to be processed are modules of the source tree. -/
theorem Prepared.mem_candidates (h : Prepared s src out changes t) {p : Path}
    (hp : p ∈ (PathSet.addAll
      ((noteChanges changes {} s t).2.2.2.dependents (noteChanges changes {} s t).2.1.cache)
      (noteChanges changes {} s t).2.2.2.sources.toList).toList) :
    s.isModule p = true ∧
      ∃ ks, ks ≠ [] ∧ p.Leads (src ++ ks) ∧ p.EndsInName ∧ "node_modules" ∉ ks := by
  rcases PathSet.mem_addAll hp with hp | hp
  · exact h.cached p (h.noted.cached p (mem_dependents hp))
  · obtain ⟨⟨ks, hks, hleads, hend, hns⟩, hmodule⟩ := h.mem_files true hp
    exact ⟨hmodule, ks, hks, hleads, hend, hns.2⟩

theorem Prepared.isFile_iff (h : Prepared s src out changes t) {p : Path} {ks : List String}
    (hp : p.Leads (src ++ ks)) (hend : p.EndsInName) :
    (noteChanges changes {} s t).1.isFile p = true ↔ (t.textAt? (src ++ ks)).isSome = true := by
  rw [FileTree.isFile_iff hp hend, h.noted.outside _ (h.apart.not_below ks)]

theorem Prepared.mem_batchModules (h : Prepared s src out changes t) {p : Path}
    (hp : p ∈ (noteChanges changes {} s t).2.1.batchModules (noteChanges changes {} s t).1
      (noteChanges changes {} s t).2.2.2) : IsSource src t p ∧ s.isModule p = true := by
  obtain ⟨hp, hfile⟩ := List.mem_filter.1 hp
  obtain ⟨hmodule, ks, hks, hleads, hend, hnot⟩ := h.mem_candidates hp
  exact ⟨⟨ks, hks, hleads, hend, (h.isFile_iff hleads hend).1 hfile, hnot⟩, hmodule⟩

theorem batchModules_distinct (s : Session) (t : FileTree) (plan : Plan) :
    Distinct (s.batchModules t plan) :=
  (PathMap.keys_distinct _).filter _

theorem Prepared.mem_batchResults (h : Prepared s src out changes t) {r : Processed}
    (hr : r ∈ s.batchResults changes t) : IsSource src t r.1 ∧ s.isModule r.1 = true := by
  rw [batchResults_eq] at hr
  exact h.mem_batchModules ((processAll_paths_perm _ _ _ _).mem_iff.1 (List.mem_map_of_mem hr))

theorem batchResults_distinct (s : Session) (changes : List (Path × PathChange))
    (t : FileTree) : Distinct ((s.batchResults changes t).map (·.1)) := by
  rw [batchResults_eq]
  exact ((processAll_paths_perm _ _ _ _).pairwise_iff fun hne => Ne.symm hne).2
    (batchModules_distinct _ _ _)

theorem Prepared.belowSource_batchResults (h : Prepared s src out changes t) :
    BelowSource src ((s.batchResults changes t).map (·.1)) := by
  refine belowSource_of_isSource (t := t) ?_
  rw [List.forall_mem_map]
  exact fun r hr => (h.mem_batchResults hr).1

/-- The files and the report when a batch has noted the changes and written the texts. -/
def rewrittenIn (s : Session) (changes : List (Path × PathChange)) (t : FileTree) :
    FileTree × BatchReport :=
  s.rewriteAll (s.batchResults changes t) { pruned := (noteChanges changes {} s t).2.2.1 }
    (noteChanges changes {} s t).1

/-- Then it copies the other files of which it is told. -/
theorem Prepared.applyBatch_copies (h : Prepared s src out changes t) :
    ((s.applyBatch changes t).1, (s.applyBatch changes t).2.2) =
      s.copyAll ((noteChanges changes {} s t).2.2.2.files false).toList
        (s.rewrittenIn changes t).2 (s.rewrittenIn changes t).1 := by
  have hnoted := h.noted
  rw [rewrittenIn, applyBatch_eq, batchResults_eq]
  generalize noteChanges changes {} s t = noted at *
  obtain ⟨t₁, s₁, pruned, plan⟩ := noted
  have hlater := s₁.processAll_later t₁ (plan.dependents s₁.cache).contains
    (s₁.batchModules t₁ plan)
  have hroot := hlater.root.trans hnoted.root
  have hconfiguration := hlater.configuration.trans hnoted.configuration
  dsimp only
  rw [rewriteAll_congr hroot hconfiguration, copyAll_congr hroot hconfiguration]
  rfl

/-- If nothing is in the way, a batch puts the texts of the modules that it
processes and copies of other files into their places. -/
theorem Prepared.applyBatch_placed (h : Prepared s src out changes t)
    (hok : Unhindered (s.applyBatch changes t).2.2) :
    Placed out
      (fun ns =>
        (if hasPath (noteChanges changes {} s t).2.2.2.assets.toList (src ++ ns) then
          t.textAt? (src ++ ns) else none).or
        (textFor? (s.batchResults changes t) (src ++ ns)))
      (noteChanges changes {} s t).1 (s.applyBatch changes t).1 := by
  obtain ⟨htree, hreport⟩ := Prod.mk.inj h.applyBatch_copies
  rw [hreport] at hok
  have hrewritten := rewriteAll_placed h.apart h.belowSource_batchResults
    (batchResults_distinct s changes t) fun f hf => hok f (copyAll_failures hf)
  have hcopied := copyAll_placed h.apart
    (belowSource_of_isSource (t := t) fun p hp => (h.mem_files false hp).1) hok
  rw [htree]
  refine (hrewritten.trans hcopied).congr fun ns => ?_
  rw [rewrittenIn, hrewritten.outside _ (h.apart.not_below ns),
    h.noted.outside _ (h.apart.not_below ns)]
  rfl

end

end Session

end SiteMacros
