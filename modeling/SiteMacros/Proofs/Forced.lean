import SiteMacros.Proofs.Remembered

/-!
# What a batch has to process

Which modules a batch processes is settled once its changes have been noted, by the
dependencies in the cache and by the plan. And what is noted can be told from the changes
themselves: whether one of them is about the shape of a pages tree, of which directories
the resources have changed, and what was removed (`noteChanges_structural`,
`mem_translationDirs_iff`, `get?_noteChanges`). So a module gets a turn in a batch if its
last expansion depends on what has changed, or if it is told of, and for no other reason
(`Prepared.mem_turns_iff`). If it is only told of, the turn comes to nothing as long as
the text is the one of the last expansion (`Prepared.attempts_iff`).
-/

namespace SiteMacros.Session

variable {s : Session} {src out : List String} {t : FileTree}
  {changes : List (Path × PathChange)}

/-! ## What a change tells -/

/-- Does the change tell that the shape of a pages tree may be another? -/
def tellsShape (s : Session) (c : Path × PathChange) : Bool :=
  Change.concerns s c.1 && c.2 != .modified && Change.isStructural (c.1.fileName?.getD "")

/-- The directory of which the change tells that its resources have changed. -/
def toldResources? (s : Session) (c : Path × PathChange) : Option Path :=
  if Change.concerns s c.1 && !s.tellsShape c && isResource c.1 then
    some (c.1.parent?.getD c.1)
  else none

/-- Does the change tell that something was removed which is at a path or around it? -/
def tellsGone (q : Path) (c : Path × PathChange) : Bool :=
  c.2 == .removed && q.startsWith c.1

theorem concerns_congr {s' : Session} (hroot : s'.root = s.root)
    (hconfiguration : s'.configuration = s.configuration) (p : Path) :
    Change.concerns s' p = Change.concerns s p := by
  simp only [Change.concerns, srcDir, outDir, hroot, hconfiguration]

theorem tellsShape_congr {s' : Session} (hroot : s'.root = s.root)
    (hconfiguration : s'.configuration = s.configuration) (c : Path × PathChange) :
    s'.tellsShape c = s.tellsShape c := by
  rw [tellsShape, tellsShape, concerns_congr hroot hconfiguration]

theorem toldResources?_congr {s' : Session} (hroot : s'.root = s.root)
    (hconfiguration : s'.configuration = s.configuration) (c : Path × PathChange) :
    s'.toldResources? c = s.toldResources? c := by
  rw [toldResources?, toldResources?, concerns_congr hroot hconfiguration,
    tellsShape_congr hroot hconfiguration]

/-- The session cares for what is among the sources. -/
theorem concerns_of_leads (h : s.Apart src out) (hmodules : "node_modules" ∉ src) {p : Path}
    {ks : List String} (hp : p.Leads (src ++ ks)) (hks : "node_modules" ∉ ks) :
    Change.concerns s p = true := by
  have hnot : p.components.contains (.name "node_modules") = false := by
    rw [Bool.eq_false_iff, ne_eq, components_contains_name hp, List.mem_append, not_or]
    exact ⟨hmodules, hks⟩
  rw [Change.concerns, (hp.startsWith_iff h.src_leads).2 (List.prefix_append src ks),
    h.startsWith_outDir hp, hnot]
  rfl

section

variable (h : s.Apart src out) (hmodules : "node_modules" ∉ src) {c : Path × PathChange}
  {ks : List String} {n : String} (hp : c.1.Leads (src ++ (ks ++ [n]))) (hks : "node_modules" ∉ ks)
include h hmodules hp hks

/-- A change tells of the shape of a pages tree if something has come or gone among the
sources under a name that counts there. -/
theorem tellsShape_of_leads (hn : Change.isStructural n = true) (hc : c.2 ≠ .modified) :
    s.tellsShape c = true := by
  have hname : n ≠ "node_modules" := by
    rintro rfl
    exact absurd hn (by decide)
  have hlast : c.1.fileName? = some n := by
    rw [← List.append_assoc] at hp
    exact hp.fileName?_concat
  rw [tellsShape, concerns_of_leads h hmodules hp (by simp [hks, Ne.symm hname]), hlast]
  simp [hc, hn]

/-- A change tells of the resources of a directory if it is about a resource there, unless the
name counts in a pages tree. -/
theorem toldResources?_of_leads (hn : isResourceName n = true)
    (hstructural : Change.isStructural n = false) :
    ∃ dir, s.toldResources? c = some dir ∧ dir.Leads (src ++ ks) := by
  have hname : n ≠ "node_modules" := by
    rintro rfl
    exact absurd hn (by decide)
  have hconcerns := concerns_of_leads h hmodules hp (by simp [hks, Ne.symm hname])
  rw [← List.append_assoc] at hp
  obtain ⟨dir, hdir, hleads⟩ := hp.parent?_concat
  have hlast := hp.fileName?_concat
  have hresource : isResource c.1 = true := by rwa [isResource, hlast]
  have hshape : s.tellsShape c = false := by
    rw [tellsShape, hlast, Option.getD_some, hstructural, Bool.and_false]
  exact ⟨dir, by simp [toldResources?, hconcerns, hresource, hshape, hdir], hleads⟩

end

theorem classify_eq (s : Session) (t : FileTree) (c : Path × PathChange) :
    Change.classify s t c.1 c.2 =
      if s.tellsShape c then .shape
      else match s.toldResources? c with
        | some dir => .translation dir
        | none =>
            if !Change.concerns s c.1 then .ignored
            else if s.isModule c.1 then .source c.1
            else if c.2 == .modified && t.isDir c.1 then .ignored
            else .asset c.1 := by
  rw [Change.classify, toldResources?, tellsShape, isResource]
  generalize Change.concerns s c.1 = concerned
  generalize (c.2 != .modified) = moved
  generalize Change.isStructural (c.1.fileName?.getD "") = structural
  generalize Text.endsWith ".yaml" (c.1.fileName?.getD "") = yaml
  generalize Text.endsWith ".yml" (c.1.fileName?.getD "") = yml
  cases concerned <;> cases moved <;> cases structural <;> cases yaml <;> cases yml <;> rfl

/-! ## The plan -/

theorem note_structural (plan : Plan) (s : Session) (t : FileTree) (c : Path × PathChange) :
    (plan.note s t c.1 (Change.classify s t c.1 c.2)).structural =
      (plan.structural || s.tellsShape c) := by
  rw [classify_eq]
  cases hshape : s.tellsShape c with
  | true =>
      rw [if_pos rfl, Plan.note, Bool.or_true]
      split
      · rw [Plan.addFile]
        split <;> rfl
      · rfl
  | false =>
      rw [if_neg Bool.false_ne_true, Bool.or_false]
      repeat' split
      all_goals first
        | rfl
        | (rw [Plan.note]; split <;> rfl)

theorem note_translationDirs (plan : Plan) (s : Session) (t : FileTree)
    (c : Path × PathChange) :
    (plan.note s t c.1 (Change.classify s t c.1 c.2)).translationDirs =
      match s.toldResources? c with
      | some dir => plan.translationDirs.add dir
      | none => plan.translationDirs := by
  rw [classify_eq]
  cases hshape : s.tellsShape c with
  | true =>
      have hnone : s.toldResources? c = none := by simp [toldResources?, hshape]
      rw [if_pos rfl, hnone, Plan.note]
      split
      · rw [Plan.addFile]
        split <;> rfl
      · rfl
  | false =>
      rw [if_neg Bool.false_ne_true]
      cases s.toldResources? c with
      | some dir =>
          dsimp only
          rw [Plan.note]
          split <;> rfl
      | none =>
          dsimp only
          repeat' split
          all_goals first
            | rfl
            | (rw [Plan.note]; split <;> rfl)

theorem noteChanges_structural (plan : Plan) (s : Session) (t : FileTree)
    (changes : List (Path × PathChange)) :
    (noteChanges changes plan s t).2.2.2.structural =
      (plan.structural || changes.any s.tellsShape) := by
  induction changes generalizing plan s t with
  | nil => exact (Bool.or_false _).symm
  | cons c changes ih =>
      obtain ⟨hroot, hconfiguration⟩ := s.heed_same t c
      have hsame : (s.heed t c).2.1.tellsShape = s.tellsShape :=
        funext (tellsShape_congr hroot hconfiguration)
      rw [noteChanges_cons]
      dsimp only
      rw [ih, note_structural, hsame, List.any_cons, Bool.or_assoc]

theorem mem_translationDirs_iff (plan : Plan) (s : Session) (t : FileTree)
    (changes : List (Path × PathChange)) {q : Path} :
    (noteChanges changes plan s t).2.2.2.translationDirs.contains q = true ↔
      plan.translationDirs.contains q = true ∨
        ∃ c ∈ changes, ∃ dir, s.toldResources? c = some dir ∧
          dir.components = q.components := by
  induction changes generalizing plan s t with
  | nil => simp [noteChanges]
  | cons c changes ih =>
      obtain ⟨hroot, hconfiguration⟩ := s.heed_same t c
      have hsame := toldResources?_congr hroot hconfiguration
      rw [noteChanges_cons]
      dsimp only
      rw [ih, note_translationDirs, hsame]
      simp only [hsame, List.mem_cons, or_and_right, exists_or, exists_eq_left]
      cases s.toldResources? c with
      | none => simp
      | some dir => simp [PathSet.contains_add, or_assoc]

/-- What is in the cache is forgotten if it is gone. -/
theorem get?_noteChanges (plan : Plan) (s : Session) (t : FileTree)
    (changes : List (Path × PathChange)) (q : Path) :
    (noteChanges changes plan s t).2.1.cache.get? q =
      if changes.any (tellsGone q) then none else s.cache.get? q := by
  induction changes generalizing plan s t with
  | nil => rfl
  | cons c changes ih =>
      rw [noteChanges_cons]
      dsimp only
      rw [ih, heed_session, List.any_cons]
      by_cases hc : c.2 = .removed
      · have hgone : tellsGone q c = q.startsWith c.1 := by rw [tellsGone, hc]; rfl
        rw [if_pos hc, hgone]
        dsimp only
        rw [ModuleCache.eraseUnder, ModuleCache.get?, PathMap.get?_eraseUnder]
        cases q.startsWith c.1 with
        | true => simp
        | false => rfl
      · have hgone : tellsGone q c = false := by rw [tellsGone, beq_eq_false_iff_ne.2 hc]; rfl
        rw [if_neg hc, hgone, Bool.false_or]

/-! ## What is forced -/

theorem mem_select_iff {cache : ModuleCache} {property : Dependencies → Bool} {q : Path} :
    (∃ k ∈ cache.select property, k.components = q.components) ↔
      ∃ m, cache.get? q = some m ∧ property m.dependencies = true := by
  simp only [ModuleCache.get?, PathMap.get?_eq_some_iff]
  constructor
  · rintro ⟨k, hk, hsame⟩
    obtain ⟨e, he, rfl⟩ := List.mem_map.1 hk
    obtain ⟨he, hproperty⟩ := List.mem_filter.1 he
    exact ⟨e.2, ⟨e.1, he, hsame⟩, hproperty⟩
  · rintro ⟨m, ⟨k, hk, hsame⟩, hproperty⟩
    exact ⟨k, List.mem_map_of_mem (f := (·.1)) (List.mem_filter.2 ⟨hk, hproperty⟩), hsame⟩

theorem contains_dependents_iff {plan : Plan} {cache : ModuleCache} {q : Path} :
    (plan.dependents cache).contains q = true ↔ ∃ m, cache.get? q = some m ∧
      ((plan.structural = true ∧ m.dependencies.pageStructure = true) ∨
        (∃ dir ∈ plan.translationDirs.toList, m.dependencies.watches dir = true) ∨
        (plan.touchesRegistry cache = true ∧ m.dependencies.namespaces = true)) := by
  have hif : ∀ (b : Bool) (property : Dependencies → Bool),
      (∃ k ∈ if b = true then cache.select property else [], k.components = q.components) ↔
        ∃ m, cache.get? q = some m ∧ b = true ∧ property m.dependencies = true := by
    intro b property
    cases b with
    | true => simpa using mem_select_iff
    | false => simp
  have hdirs : (∃ k ∈ plan.translationDirs.toList.flatMap cache.watchersOf,
      k.components = q.components) ↔ ∃ m, cache.get? q = some m ∧
        ∃ dir ∈ plan.translationDirs.toList, m.dependencies.watches dir = true := by
    simp only [List.mem_flatMap]
    constructor
    · rintro ⟨k, ⟨dir, hdir, hk⟩, hsame⟩
      obtain ⟨m, hm, hwatches⟩ := mem_select_iff.1 ⟨k, hk, hsame⟩
      exact ⟨m, hm, dir, hdir, hwatches⟩
    · rintro ⟨m, hm, dir, hdir, hwatches⟩
      obtain ⟨k, hk, hsame⟩ := (@mem_select_iff cache (·.watches dir) q).2 ⟨m, hm, hwatches⟩
      exact ⟨k, ⟨dir, hdir, hk⟩, hsame⟩
  rw [Plan.dependents, PathSet.contains_addAll, PathSet.contains_addAll, PathSet.contains_addAll,
    ModuleCache.pageDependents, ModuleCache.namespaceDependents, hif, hif, hdirs]
  have hnone : PathMap.contains ({} : PathSet) q = false := rfl
  simp only [hnone, Bool.false_eq_true, false_or, ← exists_or, ← and_or_left, or_assoc]

/-- What the cache still has for a module when the changes have been noted. -/
def keptIn (s : Session) (changes : List (Path × PathChange)) (q : Path) : Option CachedModule :=
  if changes.any (tellsGone q) then none else s.cache.get? q

/-- Can what the changes tell of have an effect on the registry? -/
inductive TouchesRegistry (s : Session) (src : List String) (changes : List (Path × PathChange))
    (t : FileTree) : Prop
  | shape {c : Path × PathChange} (hc : c ∈ changes) (h : s.tellsShape c = true)
  | resources {c : Path × PathChange} (hc : c ∈ changes) {dir : Path}
      (h : s.toldResources? c = some dir)
  | source {c : Path × PathChange} (hc : c ∈ changes) (hsource : IsSource src t c.1)
      (hmodule : s.isModule c.1 = true) {m : CachedModule} (hm : s.keptIn changes c.1 = some m)
      (h : m.dependencies.registers = true)

/-- Is what the dependencies are about among what has changed? -/
inductive Affected (s : Session) (src : List String) (changes : List (Path × PathChange))
    (t : FileTree) (d : Dependencies) : Prop
  | shape {c : Path × PathChange} (hc : c ∈ changes) (h : s.tellsShape c = true)
      (hd : d.pageStructure = true)
  | resources {c : Path × PathChange} (hc : c ∈ changes) {dir : Path}
      (h : s.toldResources? c = some dir) (hd : d.watches dir = true)
  | registry (h : s.TouchesRegistry src changes t) (hd : d.namespaces = true)

/-- What has to be expanded even if it is fresh. -/
def forcedIn (s : Session) (changes : List (Path × PathChange)) (t : FileTree) : PathSet :=
  (noteChanges changes {} s t).2.2.2.dependents (noteChanges changes {} s t).2.1.cache

theorem noted_structural_iff :
    (noteChanges changes {} s t).2.2.2.structural = true ↔ ∃ c ∈ changes, s.tellsShape c = true := by
  rw [noteChanges_structural, Bool.or_eq_true, List.any_eq_true]
  exact or_iff_right Bool.false_ne_true

theorem noted_resources_iff {q : Path} :
    (∃ dir ∈ (noteChanges changes {} s t).2.2.2.translationDirs.toList,
      dir.components = q.components) ↔
      ∃ c ∈ changes, ∃ dir, s.toldResources? c = some dir ∧ dir.components = q.components := by
  refine PathMap.contains_iff.symm.trans ((mem_translationDirs_iff {} s t changes).trans ?_)
  exact or_iff_right Bool.false_ne_true

theorem watches_congr (d : Dependencies) {p q : Path} (h : p.components = q.components) :
    d.watches p = d.watches q := by
  have hstarts : p.startsWith = q.startsWith := funext fun dir => by
    rw [Path.startsWith, Path.startsWith, h]
  rw [Dependencies.watches, Dependencies.watches, hstarts]

/-- What is noted may have an effect on the registry if the changes may have. -/
theorem Prepared.touchesRegistry_iff (h : Prepared s src out changes t) :
    (noteChanges changes {} s t).2.2.2.touchesRegistry (noteChanges changes {} s t).2.1.cache =
      true ↔ s.TouchesRegistry src changes t := by
  have hcached : ∀ q, (noteChanges changes {} s t).2.1.cache.get? q = s.keptIn changes q :=
    get?_noteChanges {} s t changes
  have hfiles := h.noted.files true
  have htold := h.noted.told true
  have hshape := @noted_structural_iff s t changes
  have hresources := fun q => @noted_resources_iff s t changes q
  generalize noteChanges changes {} s t = noted at *
  rw [Plan.touchesRegistry, Bool.or_eq_true, Bool.or_eq_true, hshape]
  constructor
  · rintro ((⟨c, hc, hstructural⟩ | hsize) | hsource)
    · exact .shape hc hstructural
    · obtain ⟨dir, hdir⟩ := List.exists_mem_of_length_pos (l := noted.2.2.2.translationDirs.toList)
        (by simpa [PathMap.size, PathSet.toList, PathMap.keys, Nat.pos_iff_ne_zero] using hsize)
      obtain ⟨c, hc, dir', hdir', -⟩ := (hresources dir).1 ⟨dir, hdir, rfl⟩
      exact .resources hc hdir'
    · obtain ⟨q, hq, hany⟩ := List.any_eq_true.1 hsource
      obtain ⟨m, hm, hregisters⟩ := (Option.any_eq_true _ _).1 hany
      rw [hcached] at hm
      rcases hfiles q hq with hq | ⟨hq, hissource, hmodule⟩
      · exact absurd hq List.not_mem_nil
      · obtain ⟨c, hc, rfl⟩ := List.mem_map.1 hq
        exact .source hc hissource hmodule hm hregisters
  · rintro (⟨hc, hstructural⟩ | ⟨hc, hdir⟩ | ⟨hc, hissource, hmodule, hm, hregisters⟩)
    · exact .inl (.inl ⟨_, hc, hstructural⟩)
    · obtain ⟨dir', hdir', -⟩ := (hresources _).2 ⟨_, hc, _, hdir, rfl⟩
      refine .inl (.inr ?_)
      have hpos := List.length_pos_of_mem hdir'
      simpa [PathMap.size, PathSet.toList, PathMap.keys, Nat.pos_iff_ne_zero] using hpos
    · obtain ⟨k, hk, hsame⟩ := PathMap.contains_iff.1
        (htold _ (.inr ⟨_, hc, rfl, hissource, hmodule⟩))
      refine .inr (List.any_eq_true.2 ⟨k, hk, (Option.any_eq_true _ _).2 ⟨_, ?_, hregisters⟩⟩)
      rw [ModuleCache.get?_congr _ hsame, hcached]
      exact hm

/-- A module is forced if what it depends on has changed. -/
theorem Prepared.forced_iff (h : Prepared s src out changes t) {q : Path} :
    (s.forcedIn changes t).contains q = true ↔
      ∃ m, s.keptIn changes q = some m ∧ s.Affected src changes t m.dependencies := by
  rw [forcedIn, contains_dependents_iff, noted_structural_iff, h.touchesRegistry_iff,
    get?_noteChanges]
  refine exists_congr fun m => and_congr_right fun _ => ⟨?_, ?_⟩
  · rintro (⟨⟨c, hc, hshape⟩, hd⟩ | ⟨dir, hdir, hd⟩ | ⟨htouches, hd⟩)
    · exact .shape hc hshape hd
    · obtain ⟨c, hc, dir', hdir', hsame⟩ := noted_resources_iff.1 ⟨dir, hdir, rfl⟩
      exact .resources hc hdir' ((watches_congr _ hsame).trans hd)
    · exact .registry htouches hd
  · rintro (⟨hc, hshape, hd⟩ | ⟨hc, hdir, hd⟩ | ⟨htouches, hd⟩)
    · exact .inl ⟨⟨_, hc, hshape⟩, hd⟩
    · obtain ⟨dir', hdir', hsame⟩ := noted_resources_iff.2 ⟨_, hc, _, hdir, rfl⟩
      exact .inr (.inl ⟨dir', hdir', (watches_congr _ hsame).trans hd⟩)
    · exact .inr (.inr ⟨htouches, hd⟩)

/-! ## The turns of a batch -/

/-- The last turn of each module in a batch. -/
def batchTurns (s : Session) (changes : List (Path × PathChange)) (t : FileTree) : List Turn :=
  (noteChanges changes {} s t).2.1.turns (noteChanges changes {} s t).1
    (s.forcedIn changes t).contains
    ((noteChanges changes {} s t).2.1.batchModules (noteChanges changes {} s t).1
      (noteChanges changes {} s t).2.2.2)

theorem batchTurns_processed (s : Session) (changes : List (Path × PathChange)) (t : FileTree) :
    (s.batchTurns changes t).map Turn.processed = s.batchResults changes t := by
  rw [batchTurns, turns_processed, batchResults_eq]
  rfl

/-- A module that depends on what has changed or is told of has a turn. -/
theorem Prepared.mem_turns_iff (h : Prepared s src out changes t) {q : Path} {ks : List String}
    (hq : q.Leads (src ++ ks)) (hsource : HasSource src t ks)
    (hmodule : s.isModule q = true) :
    (∃ u ∈ s.batchTurns changes t, u.file.components = q.components) ↔
      (s.forcedIn changes t).contains q = true ∨
        ∃ c ∈ changes, c.1.components = q.components := by
  have hks : ks ≠ [] := by
    rintro rfl
    rw [HasSource, List.append_nil, h.directory] at hsource
    cases hsource.1
  have hturn : (∃ u ∈ s.batchTurns changes t, u.file.components = q.components) ↔
      ∃ k ∈ (noteChanges changes {} s t).2.1.batchModules (noteChanges changes {} s t).1
        (noteChanges changes {} s t).2.2.2, k.components = q.components := by
    constructor
    · rintro ⟨u, hu, hsame⟩
      refine ⟨u.file, ?_, hsame⟩
      exact (inOrder_perm _ _ _).mem_iff.1 (file_mem_of_lastTurns hu)
    · rintro ⟨k, hk, hsame⟩
      obtain ⟨u, hu, rfl⟩ := exists_turn hk
      exact ⟨u, hu, hsame⟩
  rw [hturn]
  constructor
  · rintro ⟨k, hk, hsame⟩
    rcases PathSet.mem_addAll (List.mem_filter.1 hk).1 with hk | hk
    · exact .inl (PathMap.contains_iff.2 ⟨k, hk, hsame⟩)
    · rcases h.noted.files true k hk with hk | ⟨hk, -⟩
      · exact absurd hk List.not_mem_nil
      · obtain ⟨c, hc, rfl⟩ := List.mem_map.1 hk
        exact .inr ⟨c, hc, hsame⟩
  · intro hq'
    have hcandidate : (PathSet.addAll (s.forcedIn changes t)
        (noteChanges changes {} s t).2.2.2.sources.toList).contains q = true := by
      refine PathSet.contains_addAll.2 (hq'.imp id fun htold => ?_)
      obtain ⟨c, hc, hsame⟩ := htold
      obtain ⟨ms, hms, hends, -⟩ := h.told c hc
      have hleads := hms.names_eq hq hsame
      refine PathMap.contains_iff.1 (h.noted.told true q (.inr ⟨c, hc, hsame, ?_, ?_⟩))
      · exact ⟨ks, hks, hleads ▸ hms, hends, hsource⟩
      · rw [isModule_of_components hsame, hmodule]
    obtain ⟨k, hk, hsame⟩ := PathMap.contains_iff.1 hcandidate
    obtain ⟨-, ks', -, hleads, hends, -⟩ := h.mem_candidates hk
    obtain rfl := List.append_cancel_left (hleads.names_eq hq hsame)
    exact ⟨k, List.mem_filter.2 ⟨hk, (h.isFile_iff hleads hends).2 hsource.1⟩, hsame⟩

theorem remembered_batchTurns {u : Turn}
    (hu : u ∈ s.batchTurns changes t) :
    u.Remembered (noteChanges changes {} s t).1 (s.forcedIn changes t).contains
      (noteChanges changes {} s t).2.1.cache (s.applyBatch changes t).2.1.cache := by
  have hremembered := remembered_turns (batchModules_distinct _ _ _) hu
  rw [applyBatch_eq]
  exact hremembered

theorem get?_applyBatch_of_ne {q : Path}
    (h : ∀ u ∈ s.batchTurns changes t, u.file.components ≠ q.components) :
    (s.applyBatch changes t).2.1.cache.get? q = s.keptIn changes q := by
  rw [applyBatch_eq, keptIn, ← get?_noteChanges {} s t changes q]
  refine get?_processAll_of_ne fun p hp hsame => ?_
  obtain ⟨u, hu, rfl⟩ := exists_turn hp
  exact h u hu hsame.symm

/-- A module that fails in a batch is reported. -/
theorem applyBatch_reports {u : Turn} (hu : u ∈ s.batchTurns changes t) {e : Failure}
    (h : u.result = .error e) : (u.file, e) ∈ (s.applyBatch changes t).2.2.failures := by
  have hmem : (u.file, .error e) ∈ s.batchResults changes t := by
    rw [← batchTurns_processed, ← h]
    exact List.mem_map_of_mem (f := Turn.processed) hu
  rw [batchResults_eq] at hmem
  rw [applyBatch_eq]
  exact copyAll_failures (rewriteAll_reports hmem)

section

variable (h : Prepared s src out changes t)
include h

theorem Prepared.batchTurns_source {u : Turn} (hu : u ∈ s.batchTurns changes t) :
    IsSource src t u.file ∧ s.isModule u.file = true :=
  h.mem_batchModules ((inOrder_perm _ _ _).mem_iff.1 (file_mem_of_lastTurns hu))

/-- The text that a turn finds. -/
theorem Prepared.batchTurns_text {u : Turn} (hu : u ∈ s.batchTurns changes t) {q : Path}
    {ks : List String} (hq : q.Leads (src ++ ks)) (hsame : u.file.components = q.components)
    {text : String} (htext : t.textAt? (src ++ ks) = some text) :
    (noteChanges changes {} s t).1.readText u.file = .ok text := by
  obtain ⟨⟨ks', -, hleads, hend, -⟩, -⟩ := h.batchTurns_source hu
  obtain rfl := List.append_cancel_left (hleads.names_eq hq hsame)
  rw [FileTree.readText_eq_ok_iff hleads hend, h.noted.outside _ (h.apart.not_below ks'), htext]

/-- A turn comes to nothing if the module is not forced and has the text of its last
expansion. -/
theorem Prepared.fresh_iff {u : Turn} (hu : u ∈ s.batchTurns changes t) {q : Path}
    {ks : List String} (hq : q.Leads (src ++ ks)) (hsame : u.file.components = q.components)
    {text : String} (htext : t.textAt? (src ++ ks) = some text) :
    u.result = .ok .fresh ↔ (s.forcedIn changes t).contains q = false ∧
      ∃ m, s.keptIn changes q = some m ∧ m.fingerprint = Text.digest text := by
  have hforced : (s.forcedIn changes t).contains u.file = (s.forcedIn changes t).contains q := by
    rw [Bool.eq_iff_iff, PathMap.contains_iff, PathMap.contains_iff, hsame]
  have hkept : (noteChanges changes {} s t).2.1.cache.get? u.file = s.keptIn changes q :=
    (ModuleCache.get?_congr _ hsame).trans (get?_noteChanges {} s t changes q)
  rw [(remembered_batchTurns hu).fresh, hforced, h.batchTurns_text hu hq hsame htext]
  simp only [ModuleCache.isFresh, hkept, Except.ok.injEq, exists_eq_left', Option.any_eq_true,
    beq_iff_eq]

/-- A batch attempts a module if what its last expansion depends on has changed, or if it
is told of the module and the text is not the one of the last expansion. -/
theorem Prepared.attempts_iff {q : Path} {ks : List String} (hq : q.Leads (src ++ ks))
    (hsource : HasSource src t ks) (hmodule : s.isModule q = true) {text : String}
    (htext : t.textAt? (src ++ ks) = some text) :
    (∃ u ∈ s.batchTurns changes t, u.file.components = q.components ∧ u.result ≠ .ok .fresh) ↔
      (∃ m, s.keptIn changes q = some m ∧ s.Affected src changes t m.dependencies) ∨
        (∃ c ∈ changes, c.1.components = q.components) ∧
          ∀ m, s.keptIn changes q = some m → m.fingerprint ≠ Text.digest text := by
  have hturns := h.mem_turns_iff hq hsource hmodule
  rw [← h.forced_iff]
  constructor
  · rintro ⟨u, hu, hsame, hattempted⟩
    rcases hturns.1 ⟨u, hu, hsame⟩ with hforced | htold
    · exact .inl hforced
    · refine Classical.or_iff_not_imp_left.2 fun hforced => ⟨htold, fun m hm hfingerprint => ?_⟩
      exact hattempted ((h.fresh_iff hu hq hsame htext).2
        ⟨Bool.not_eq_true _ ▸ hforced, m, hm, hfingerprint⟩)
  · rintro (hforced | ⟨htold, hchanged⟩)
    · obtain ⟨u, hu, hsame⟩ := hturns.2 (.inl hforced)
      refine ⟨u, hu, hsame, fun hresult => ?_⟩
      rw [((h.fresh_iff hu hq hsame htext).1 hresult).1] at hforced
      exact nomatch hforced
    · obtain ⟨u, hu, hsame⟩ := hturns.2 (.inr htold)
      refine ⟨u, hu, hsame, fun hresult => ?_⟩
      obtain ⟨-, m, hm, hfingerprint⟩ := (h.fresh_iff hu hq hsame htext).1 hresult
      exact hchanged m hm hfingerprint

theorem Prepared.applyBatch_same :
    (s.applyBatch changes t).2.1.root = s.root ∧
      (s.applyBatch changes t).2.1.configuration = s.configuration := by
  rw [applyBatch_eq]
  have hlater := (noteChanges changes {} s t).2.1.processAll_later (noteChanges changes {} s t).1
  exact ⟨(hlater _ _).root.trans h.noted.root,
    (hlater _ _).configuration.trans h.noted.configuration⟩

theorem Prepared.batchTurns_same {u : Turn} (hu : u ∈ s.batchTurns changes t) :
    u.before.root = s.root ∧ u.before.configuration = s.configuration := by
  have hreached := (between_lastTurns (covers_inOrder _ _ _) hu).reached
  exact ⟨hreached.root.trans h.noted.root, hreached.configuration.trans h.noted.configuration⟩

/-- After the batch, too, the cache has modules of the source tree only. -/
theorem Prepared.cachesSources_applyBatch :
    CachesSources src (s.applyBatch changes t).2.1 := by
  intro k hk
  rw [isModule_congr h.applyBatch_same.2]
  rw [applyBatch_eq] at hk
  rcases processAll_cached hk with hk | hk
  · exact h.cached k (h.noted.cached k hk)
  · obtain ⟨⟨ks, hks, hleads, hend, hsource⟩, hmodule⟩ := h.mem_batchModules hk
    exact ⟨hmodule, ks, hks, hleads, hend, hsource.2⟩

end

end SiteMacros.Session
