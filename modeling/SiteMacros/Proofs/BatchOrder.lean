import SiteMacros.Proofs.Forced
import SiteMacros.Proofs.ReadOrder
import SiteMacros.Proofs.Removals
import SiteMacros.Proofs.Repeats

/-!
# A batch is the set of its changes

Changes are noted one by one, and what is told as removed is forgotten at once. Still a batch
comes to the same in every order of its changes, and however often one of them is told
(`applyBatch_of_members`). What each change asks for is settled by the session and the files
that there were at the beginning (`noteChanges_plan`), since nothing that is taken away is on
the way to a source file. And what all of them ask for together is told by members: a table
loses what one of the changes tells is gone, the output tree what one of them clears, and the
sets of the plan have what one of them puts there.

A set keeps the spelling in which a path came first. That is why a path has to be told in one
spelling (`PathSet.addAll_eq_of_members`).
-/

namespace SiteMacros

namespace PathMap

variable {α : Type} {m : PathMap α} {p : Path} {c : Path × PathChange}
  {changes changes' : List (Path × PathChange)}

/-- The table without what the changes tell is gone. -/
def without (m : PathMap α) (changes : List (Path × PathChange)) : PathMap α :=
  ⟨m.entries.filter fun e => !changes.any (Session.tellsGone e.1), m.inOrder.filter _⟩

theorem without_nil (m : PathMap α) : m.without [] = m :=
  ext_entries (List.filter_eq_self.2 fun _ _ => rfl)

theorem without_cons (m : PathMap α) (c : Path × PathChange) (changes : List (Path × PathChange)) :
    m.without (c :: changes) =
      (if c.2 = .removed then m.eraseUnder c.1 else m).without changes := by
  refine ext_entries ?_
  split
  · next hc =>
      show _ = (m.entries.filter _).filter _
      rw [List.filter_filter]
      refine List.filter_congr fun e _ => ?_
      rw [List.any_cons, Session.tellsGone, hc, Bool.not_or, Bool.and_comm]
      rfl
  · next hc =>
      refine List.filter_congr fun e _ => ?_
      rw [List.any_cons, Session.tellsGone, beq_eq_false_iff_ne.2 hc, Bool.false_and, Bool.false_or]

theorem without_congr (h : ∀ c, c ∈ changes ↔ c ∈ changes') :
    m.without changes' = m.without changes := by
  refine ext_entries (List.filter_congr fun e _ => congrArg (!·) (Bool.eq_iff_iff.2 ?_))
  simp only [List.any_eq_true, h]

theorem size_ne_zero_iff {m : PathMap α} : m.size ≠ 0 ↔ ∃ q, m.contains q = true := by
  constructor
  · intro hsize
    obtain ⟨e, he⟩ :=
      List.exists_mem_of_ne_nil _ fun hnil => hsize (List.length_eq_zero_iff.2 hnil)
    exact ⟨e.1, contains_iff.2 ⟨e.1, List.mem_map_of_mem he, rfl⟩⟩
  · rintro ⟨q, hq⟩ hsize
    obtain ⟨k, hk, -⟩ := contains_iff.1 hq
    obtain ⟨e, he, -⟩ := List.mem_map.1 hk
    exact List.not_mem_nil (List.length_eq_zero_iff.1 hsize ▸ he)

theorem size_eraseUnder_le (m : PathMap α) (dir : Path) : (m.eraseUnder dir).size ≤ m.size :=
  List.length_filter_le _ _

end PathMap

namespace PathSet

variable {ps qs : List Path}

/-- A set of paths has the same members in the same spellings if each path is written in one
way. -/
theorem addAll_eq_of_members (h : ∀ p, p ∈ ps ↔ p ∈ qs)
    (hone : ∀ p ∈ ps, ∀ q ∈ ps, p.components = q.components → p = q) :
    addAll {} qs = addAll {} ps := by
  have hmem : ∀ {rs : List Path}, (∀ p ∈ rs, ∀ q ∈ rs, p.components = q.components → p = q) →
      ∀ p, (p, ()) ∈ (addAll {} rs).entries ↔ p ∈ rs := by
    intro rs hone p
    have hkeys : p ∈ (addAll {} rs).toList ↔ (p, ()) ∈ (addAll {} rs).entries :=
      List.mem_map.trans ⟨fun ⟨_, he, heq⟩ => heq ▸ he, fun he => ⟨_, he, rfl⟩⟩
    have hsub : ∀ q ∈ (addAll {} rs).toList, q ∈ rs := fun q hq =>
      (mem_addAll hq).resolve_left List.not_mem_nil
    rw [← hkeys]
    refine ⟨hsub p, fun hp => ?_⟩
    obtain ⟨k, hk, hsame⟩ := PathMap.contains_iff.1
      (contains_addAll.2 (.inr ⟨p, hp, rfl⟩) : (addAll {} rs).contains p = true)
    rwa [hone k (hsub k hk) p hp hsame] at hk
  have hone' : ∀ p ∈ qs, ∀ q ∈ qs, p.components = q.components → p = q := fun p hp q hq =>
    hone p ((h p).2 hp) q ((h q).2 hq)
  exact PathMap.ext_mem fun e => (hmem hone' e.1).trans ((h e.1).symm.trans (hmem hone e.1).symm)

end PathSet

namespace Session

variable {s s' : Session} {t t' : FileTree} {changes changes' : List (Path × PathChange)}

/-! ## What is forgotten -/

/-- The session without what the changes tell is gone. -/
def without (s : Session) (changes : List (Path × PathChange)) : Session :=
  { s with
    registry := { s.registry with routes := s.registry.routes.without changes }
    cache := ⟨s.cache.modules.without changes⟩ }

theorem noteChanges_session (plan : Plan) (s : Session) (t : FileTree)
    (changes : List (Path × PathChange)) :
    (noteChanges changes plan s t).2.1 = s.without changes := by
  induction changes generalizing plan s t with
  | nil =>
      rw [without, PathMap.without_nil, PathMap.without_nil]
      rfl
  | cons c changes ih =>
      rw [noteChanges_cons]
      dsimp only
      rw [ih, heed_session, without, without, PathMap.without_cons, PathMap.without_cons]
      split <;> rfl

theorem without_congr (h : ∀ c, c ∈ changes ↔ c ∈ changes') :
    s.without changes' = s.without changes := by
  rw [without, without, PathMap.without_congr h, PathMap.without_congr h]

/-- A change prunes as many routes as the registry loses by it. -/
theorem heed_pruned (s : Session) (t : FileTree) (c : Path × PathChange) :
    (s.heed t c).2.2 + (s.heed t c).2.1.registry.size = s.registry.size := by
  rw [heed]
  split
  · have hle : (s.registry.pruneUnder c.1).size ≤ s.registry.size :=
      Nat.add_le_add_right (PathMap.size_eraseUnder_le _ _) _
    exact Nat.sub_add_cancel hle
  · exact Nat.zero_add _

/-- The changes of a batch prune as many routes as the registry loses by them. -/
theorem noteChanges_pruned (plan : Plan) (s : Session) (t : FileTree)
    (changes : List (Path × PathChange)) :
    (noteChanges changes plan s t).2.2.1 + (s.without changes).registry.size =
      s.registry.size := by
  rw [← noteChanges_session plan s t]
  induction changes generalizing plan s t with
  | nil => exact Nat.zero_add _
  | cons c changes ih =>
      rw [noteChanges_cons, ← heed_pruned s t c]
      dsimp only
      rw [Nat.add_assoc, ih]

/-! ## What is planned -/

/-- The plan with what a change asks for. -/
def withChange (s : Session) (t : FileTree) (plan : Plan) (c : Path × PathChange) : Plan :=
  plan.note s t c.1 (Change.classify s t c.1 c.2)

/-- What a change asks for is told by whether its path is a file or a directory, if the session
cares for the path. -/
theorem withChange_congr (hroot : s'.root = s.root)
    (hconfiguration : s'.configuration = s.configuration) {c : Path × PathChange}
    (hsame : Change.concerns s c.1 = true →
      t'.isFile c.1 = t.isFile c.1 ∧ t'.isDir c.1 = t.isDir c.1) (plan : Plan) :
    s'.withChange t' plan c = s.withChange t plan c := by
  rw [withChange, withChange, classify_eq, classify_eq, tellsShape_congr hroot hconfiguration,
    toldResources?_congr hroot hconfiguration, concerns_congr hroot hconfiguration,
    isModule_congr hconfiguration]
  cases hconcerns : Change.concerns s c.1 with
  | false =>
      have hshape : s.tellsShape c = false := by rw [tellsShape, hconcerns]; rfl
      have hresources : s.toldResources? c = none := by rw [toldResources?, hconcerns]; rfl
      rw [hshape, hresources]
      rfl
  | true =>
      obtain ⟨hfile, hdir⟩ := hsame hconcerns
      rw [hdir]
      repeat' split
      all_goals simp only [Plan.note, Plan.addFile, hfile, isModule_congr hconfiguration]

/-- What a change asks for among the modules, or among the other files. -/
def asks? (s : Session) (t : FileTree) (modules : Bool) (c : Path × PathChange) : Option Path :=
  if t.isFile c.1 && Change.concerns s c.1 &&
      (s.isModule c.1 && (s.tellsShape c || !isResource c.1)) == modules then
    some c.1
  else none

theorem asks?_eq_some {modules : Bool} {c : Path × PathChange} {p : Path}
    (h : s.asks? t modules c = some p) :
    c.1 = p ∧ Change.concerns s c.1 = true ∧ t.isFile c.1 = true := by
  rw [asks?] at h
  split at h
  · next hasked =>
      obtain ⟨hboth, -⟩ := Bool.and_eq_true_iff.1 hasked
      obtain ⟨hfile, hconcerns⟩ := Bool.and_eq_true_iff.1 hboth
      exact ⟨Option.some.inj h, hconcerns, hfile⟩
  · cases h

theorem withChange_files (plan : Plan) (modules : Bool) (c : Path × PathChange) :
    (s.withChange t plan c).files modules =
      match s.asks? t modules c with
      | some p => (plan.files modules).add p
      | none => plan.files modules := by
  rw [withChange, classify_eq, asks?, toldResources?]
  cases hconcerns : Change.concerns s c.1 with
  | false =>
      have hshape : s.tellsShape c = false := by rw [tellsShape, hconcerns]; rfl
      simp [hshape, Plan.note]
  | true =>
      cases hfile : t.isFile c.1 with
      | false =>
          repeat' split
          all_goals cases modules <;> simp_all [Plan.note, Plan.files]
      | true =>
          have hdir := FileTree.isDir_of_isFile hfile
          cases hshape : s.tellsShape c <;> cases hresource : isResource c.1 <;>
            cases hmodule : s.isModule c.1 <;> cases modules <;>
            simp [Plan.note, Plan.addFile, Plan.files, hfile, hdir, hmodule]

theorem withChanges_files (plan : Plan) (modules : Bool) :
    (changes.foldl (s.withChange t) plan).files modules =
      (plan.files modules).addAll (changes.filterMap (s.asks? t modules)) := by
  induction changes generalizing plan with
  | nil => rfl
  | cons c changes ih =>
      rw [List.foldl_cons, ih, withChange_files, List.filterMap_cons]
      cases s.asks? t modules c <;> rfl

/-- The path does not lead through the output tree. -/
def StaysOut (s : Session) (p : Path) : Prop :=
  p.isAbsolute = true ∧ ∀ ns, p.PassesThrough ns → ¬ s.outDir.destination <+: ns

instance (s : Session) (p : Path) : Decidable (s.StaysOut p) :=
  inferInstanceAs (Decidable (_ ∧ _))

theorem StaysOut.congr {p : Path} (h : s.StaysOut p) (hroot : s'.root = s.root)
    (hconfiguration : s'.configuration = s.configuration) : s'.StaysOut p := by
  rw [StaysOut, outDir, hroot, hconfiguration]
  exact h

/-- What is removed is not on the way of such a path. -/
theorem isFile_heed (h : s.Severed) {c : Path × PathChange}
    (hplain : c.2 = .removed → s.Plain c.1) {p : Path} (hp : s.StaysOut p) (t : FileTree) :
    (s.heed t c).1.isFile p = t.isFile p ∧ (s.heed t c).1.isDir p = t.isDir p := by
  refine FileTree.isFile_eq_of_way hp.1 fun ns hns => ?_
  rw [bareAt?_heed h hplain, if_neg]
  exact fun hgone => hp.2 ns hns (tellsCleared_below h hplain (Bool.and_eq_true_iff.1 hgone).2)

/-- What each of the changes asks for is settled by the session and the files that there were
before any of them was noted. -/
theorem noteChanges_plan (h : s.Severed)
    (hplain : ∀ c ∈ changes, c.2 = .removed → s.Plain c.1)
    (hclear : ∀ c ∈ changes, Change.concerns s c.1 = true → s.StaysOut c.1) (plan : Plan)
    (t : FileTree) :
    (noteChanges changes plan s t).2.2.2 = changes.foldl (s.withChange t) plan := by
  induction changes generalizing plan s t with
  | nil => rfl
  | cons c changes ih =>
      obtain ⟨hc, hplain'⟩ := List.forall_mem_cons.1 hplain
      obtain ⟨hroot, hconfiguration⟩ := s.heed_same t c
      have hnow : ∀ c' ∈ c :: changes, ∀ plan,
          (s.heed t c).2.1.withChange (s.heed t c).1 plan c' = s.withChange t plan c' :=
        fun c' hc' => withChange_congr hroot hconfiguration fun hconcerns =>
          isFile_heed h hc (hclear c' hc' hconcerns) t
      have hrest := ih (h.congr hroot hconfiguration)
        (fun c' hc' hremoved => (hplain' c' hc' hremoved).congr hroot hconfiguration)
        (fun c' hc' hconcerns => by
          rw [concerns_congr hroot hconfiguration] at hconcerns
          exact (hclear c' (List.mem_cons_of_mem c hc') hconcerns).congr hroot hconfiguration)
      rw [noteChanges_cons, List.foldl_cons]
      dsimp only
      rw [hrest, ← hnow c List.mem_cons_self]
      exact List.foldl_ext _ _ _ fun plan c' hc' => hnow c' (List.mem_cons_of_mem c hc') plan

/-! ## What depends on it -/

theorem touchesRegistry_congr {plan plan' : Plan} (cache : ModuleCache)
    (hstructural : plan'.structural = plan.structural)
    (hdirs : ∀ q, plan'.translationDirs.contains q = plan.translationDirs.contains q)
    (hsources : plan'.sources = plan.sources) :
    plan'.touchesRegistry cache = plan.touchesRegistry cache := by
  have hsize : (plan'.translationDirs.size != 0) = (plan.translationDirs.size != 0) := by
    rw [Bool.eq_iff_iff, bne_iff_ne, bne_iff_ne, PathMap.size_ne_zero_iff,
      PathMap.size_ne_zero_iff]
    simp only [hdirs]
  rw [Plan.touchesRegistry, Plan.touchesRegistry, hstructural, hsize, hsources]

theorem mem_keys_of_mem_select {cache : ModuleCache} {property : Dependencies → Bool} {k : Path}
    (h : k ∈ cache.select property) : k ∈ cache.modules.keys := by
  obtain ⟨e, he, rfl⟩ := List.mem_map.1 h
  exact List.mem_map_of_mem (List.mem_filter.1 he).1

/-- Of the directories whose resources have changed only the members count, and not their
spellings. -/
theorem dependents_congr {plan plan' : Plan} (cache : ModuleCache)
    (hstructural : plan'.structural = plan.structural)
    (hdirs : ∀ q, plan'.translationDirs.contains q = plan.translationDirs.contains q)
    (hsources : plan'.sources = plan.sources) :
    plan'.dependents cache = plan.dependents cache := by
  have hjoin : ∀ xs ys zs : List Path, ((PathSet.addAll {} xs).addAll ys).addAll zs =
      PathSet.addAll {} (xs ++ ys ++ zs) := fun xs ys zs => by
    rw [PathSet.addAll, PathSet.addAll, PathSet.addAll, PathSet.addAll, List.foldl_append,
      List.foldl_append]
  have hwatchers : ∀ {ds es : PathSet}, (∀ q, ds.contains q = true → es.contains q = true) →
      ∀ k ∈ ds.toList.flatMap cache.watchersOf, k ∈ es.toList.flatMap cache.watchersOf := by
    intro ds es hsub k hk
    obtain ⟨dir, hdir, hk⟩ := List.mem_flatMap.1 hk
    obtain ⟨dir', hdir', hsame⟩ :=
      PathMap.contains_iff.1 (hsub dir (PathMap.contains_iff.2 ⟨dir, hdir, rfl⟩))
    refine List.mem_flatMap.2 ⟨dir', hdir', ?_⟩
    rwa [ModuleCache.watchersOf, funext fun d => watches_congr d hsame]
  rw [Plan.dependents, Plan.dependents, hjoin, hjoin,
    touchesRegistry_congr cache hstructural hdirs hsources, hstructural]
  refine PathSet.addAll_eq_of_members (fun k => ?_) fun k hk k' hk' hsame => ?_
  · have hsame : k ∈ plan.translationDirs.toList.flatMap cache.watchersOf ↔
        k ∈ plan'.translationDirs.toList.flatMap cache.watchersOf :=
      ⟨hwatchers (fun q hq => (hdirs q).trans hq) k,
        hwatchers (fun q hq => (hdirs q).symm.trans hq) k⟩
    simp only [List.mem_append, hsame]
  · have hkeys : ∀ k ∈ (if plan.structural = true then cache.pageDependents else []) ++
        plan.translationDirs.toList.flatMap cache.watchersOf ++
        (if plan.touchesRegistry cache = true then cache.namespaceDependents else []),
        k ∈ cache.modules.keys := by
      intro k hk
      rcases List.mem_append.1 hk with hk | hk
      · rcases List.mem_append.1 hk with hk | hk
        · split at hk
          · exact mem_keys_of_mem_select hk
          · exact absurd hk List.not_mem_nil
        · obtain ⟨dir, -, hk⟩ := List.mem_flatMap.1 hk
          exact mem_keys_of_mem_select hk
      · split at hk
        · exact mem_keys_of_mem_select hk
        · exact absurd hk List.not_mem_nil
    exact Distinct.eq (PathMap.keys_distinct cache.modules) (hkeys k hk) (hkeys k' hk') hsame

/-! ## The whole batch -/

theorem rewriteAll_eq_of_alike (s : Session) (rs : List Processed) (report : BatchReport)
    (h : t.Alike t') :
    (s.rewriteAll rs report t').2 = (s.rewriteAll rs report t).2 ∧
      (s.rewriteAll rs report t).1.Alike (s.rewriteAll rs report t').1 := by
  induction rs generalizing report t t' with
  | nil => exact ⟨rfl, h⟩
  | cons r rs ih =>
      obtain ⟨p, result⟩ := r
      rw [rewriteAll_cons, rewriteAll_cons]
      cases result.toOption.bind (·.output?) with
      | none => exact ih _ h
      | some text =>
          obtain ⟨hresult, htree⟩ := s.blind_writeOutput p text t t' h
          dsimp only
          revert hresult htree
          rcases (s.writeOutput p text).run t with ⟨written, u⟩
          rcases (s.writeOutput p text).run t' with ⟨written', u'⟩
          rintro rfl htree
          exact ih _ htree

theorem copyAll_eq_of_alike (s : Session) (ps : List Path) (report : BatchReport)
    (h : t.Alike t') :
    (s.copyAll ps report t').2 = (s.copyAll ps report t).2 ∧
      (s.copyAll ps report t).1.Alike (s.copyAll ps report t').1 := by
  induction ps generalizing report t t' with
  | nil => exact ⟨rfl, h⟩
  | cons p ps ih =>
      obtain ⟨hresult, htree⟩ := s.blind_copyOutput p t t' h
      rw [copyAll_cons, copyAll_cons]
      revert hresult htree
      rcases (s.copyOutput p).run t with ⟨result, u⟩
      rcases (s.copyOutput p).run t' with ⟨result', u'⟩
      rintro rfl htree
      cases result' with
      | ok done => exact ih _ htree
      | error e => exact ih _ htree

/-- How changes have to be told for their order not to matter: what is removed, by names after
the path of the sources; what is there, by a path that does not lead through the output tree;
and each file in one spelling. -/
structure PlainlyTold (s : Session) (t : FileTree) (changes : List (Path × PathChange)) :
    Prop where
  plain : ∀ c ∈ changes, c.2 = .removed → s.Plain c.1
  clear : ∀ c ∈ changes, c.2 ≠ .removed → Change.concerns s c.1 = true → s.StaysOut c.1
  once : ∀ c ∈ changes, ∀ c' ∈ changes, Change.concerns s c.1 = true → t.isFile c.1 = true →
    c.1.components = c'.1.components → c.1 = c'.1

instance (s : Session) (t : FileTree) (changes : List (Path × PathChange)) :
    Decidable (s.PlainlyTold t changes) :=
  decidable_of_iff ((∀ c ∈ changes, c.2 = .removed → s.Plain c.1) ∧
    (∀ c ∈ changes, c.2 ≠ .removed → Change.concerns s c.1 = true → s.StaysOut c.1) ∧
    ∀ c ∈ changes, ∀ c' ∈ changes, Change.concerns s c.1 = true → t.isFile c.1 = true →
      c.1.components = c'.1.components → c.1 = c'.1)
    ⟨fun ⟨ha, hb, hc⟩ => ⟨ha, hb, hc⟩, fun ⟨ha, hb, hc⟩ => ⟨ha, hb, hc⟩⟩

namespace PlainlyTold

theorem congr (h : s.PlainlyTold t changes) (hsame : ∀ c, c ∈ changes ↔ c ∈ changes') :
    s.PlainlyTold t changes' where
  plain c hc := h.plain c ((hsame c).2 hc)
  clear c hc := h.clear c ((hsame c).2 hc)
  once c hc c' hc' := h.once c ((hsame c).2 hc) c' ((hsame c').2 hc')

/-- No change is told of the sources by a path through the output tree. -/
theorem staysOut (htold : s.PlainlyTold t changes) (h : s.Severed) :
    ∀ c ∈ changes, Change.concerns s c.1 = true → s.StaysOut c.1 := by
  intro c hc hconcerns
  by_cases hremoved : c.2 = .removed
  · have hsrc : c.1.startsWith s.srcDir = true :=
      (Bool.and_eq_true_iff.1 (Bool.and_eq_true_iff.1 hconcerns).1).1
    obtain ⟨ks, hks⟩ := (htold.plain c hc hremoved).extends h hsrc
    exact ⟨hks.absolute, fun ns => h.way_clear hks⟩
  · exact htold.clear c hc hremoved hconcerns

end PlainlyTold

/-- Two batches come to the same: the session afterwards is the same, with its registry and its
cache, and so are the report and the files. -/
def SameBatch (s : Session) (t : FileTree) (changes changes' : List (Path × PathChange)) : Prop :=
  (s.applyBatch changes' t).2 = (s.applyBatch changes t).2 ∧
    (s.applyBatch changes t).1.Alike (s.applyBatch changes' t).1

section

variable (h : s.Severed) (htold : s.PlainlyTold t changes) (hsame : ∀ c, c ∈ changes ↔ c ∈ changes')
include h htold hsame

/-- The files of the plan are told by the members of the batch. -/
theorem files_of_members (modules : Bool) :
    (noteChanges changes' {} s t).2.2.2.files modules =
      (noteChanges changes {} s t).2.2.2.files modules := by
  have hnone : ({} : Plan).files modules = {} := by cases modules <;> rfl
  have htold' := htold.congr hsame
  rw [noteChanges_plan h htold.plain (htold.staysOut h),
    noteChanges_plan h htold'.plain (htold'.staysOut h), withChanges_files, withChanges_files,
    hnone]
  refine PathSet.addAll_eq_of_members (fun p => ?_) fun p hp q hq heq => ?_
  · simp only [List.mem_filterMap, hsame]
  · obtain ⟨c, hc, hasks⟩ := List.mem_filterMap.1 hp
    obtain ⟨c', hc', hasks'⟩ := List.mem_filterMap.1 hq
    obtain ⟨rfl, hconcerns, hfile⟩ := asks?_eq_some hasks
    obtain ⟨rfl, -⟩ := asks?_eq_some hasks'
    exact htold.once c hc c' hc' hconcerns hfile heq

theorem dependents_of_members (cache : ModuleCache) :
    (noteChanges changes' {} s t).2.2.2.dependents cache =
      (noteChanges changes {} s t).2.2.2.dependents cache := by
  refine dependents_congr cache ?_ (fun q => ?_) (files_of_members h htold hsame true)
  · rw [noteChanges_structural, noteChanges_structural, Bool.eq_iff_iff]
    simp only [Bool.or_eq_true, List.any_eq_true, hsame]
  · rw [Bool.eq_iff_iff, mem_translationDirs_iff, mem_translationDirs_iff]
    simp only [hsame]

theorem twins_of_members (hsound : t.Sound) :
    (noteChanges changes {} s t).1.Twins (noteChanges changes' {} s t).1 where
  sound := sound_noteChanges h htold.plain _ hsound
  sound' := sound_noteChanges h (htold.congr hsame).plain _ hsound
  alike ns := by
    have hany : changes'.any (s.tellsCleared ns) = changes.any (s.tellsCleared ns) := by
      rw [Bool.eq_iff_iff]
      simp only [List.any_eq_true, hsame]
    show (noteChanges changes {} s t).1.bareAt? ns = (noteChanges changes' {} s t).1.bareAt? ns
    rw [bareAt?_noteChanges h htold.plain, bareAt?_noteChanges h (htold.congr hsame).plain, hany]

/-- A batch comes to the same in every order of its changes, and however often one of them is
told. -/
theorem applyBatch_of_members (hsound : t.Sound) : s.SameBatch t changes changes' := by
  have htwins := twins_of_members h htold hsame hsound
  have hsession : (noteChanges changes' {} s t).2.1 = (noteChanges changes {} s t).2.1 := by
    rw [noteChanges_session, noteChanges_session, without_congr hsame]
  have hpruned : (noteChanges changes' {} s t).2.2.1 = (noteChanges changes {} s t).2.2.1 := by
    have hbefore := noteChanges_pruned {} s t changes
    have hafter := noteChanges_pruned {} s t changes'
    rw [without_congr hsame] at hafter
    omega
  have hdependents := dependents_of_members h htold hsame
  have hsources : (noteChanges changes' {} s t).2.2.2.sources = _ :=
    files_of_members h htold hsame true
  have hassets : (noteChanges changes' {} s t).2.2.2.assets = _ :=
    files_of_members h htold hsame false
  have hfiles := funext htwins.alike.isFile_eq
  rw [SameBatch, applyBatch_eq, applyBatch_eq]
  generalize noteChanges changes {} s t = noted at *
  generalize noteChanges changes' {} s t = noted' at *
  have hmodules : noted'.2.1.batchModules noted'.1 noted'.2.2.2 =
      noted.2.1.batchModules noted.1 noted.2.2.2 := by
    rw [batchModules, batchModules, hdependents, hsources, hfiles, hsession]
    rfl
  dsimp only
  rw [hmodules, hdependents, hsession, hpruned, hassets, processAll_eq_of_twins htwins]
  generalize noted.2.1.processAll noted.1 _ _ = processed
  obtain ⟨hreport, htree⟩ :=
    processed.1.rewriteAll_eq_of_alike processed.2 { pruned := noted.2.2.1 } htwins.alike
  rw [hreport]
  obtain ⟨hcopied, hcopies⟩ := processed.1.copyAll_eq_of_alike (noted.2.2.2.files false).toList
    (processed.1.rewriteAll processed.2 { pruned := noted.2.2.1 } noted.1).2 htree
  exact ⟨Prod.ext rfl hcopied, hcopies⟩

end

/-- A directory and a file in it are removed, a module and another file are there: in two
orders, and the removal of the file is told twice. -/
theorem applyBatch_of_members_nested :
    let s := { ofProject with registry := Registry.registerRoute {} ⟨"/p/src/x/pages"⟩ "/x" }
    let t := FileTree.dir [("p", .dir
      [("src", flat [("a.ts", "import\x7bloadI18n\x7dfrom\"i18n.macro\"\nloadI18n(\"./*.yaml\")"),
        ("b.css", "b")]),
      (".pagemacro", .dir [("out", .dir [("x", flat [("y.css", "")])])])])]
    let gone : List (Path × PathChange) :=
      [(⟨"/p/src/x"⟩, .removed), (⟨"/p/src/x/y.css"⟩, .removed)]
    let there : List (Path × PathChange) :=
      [(⟨"/p/src/b.css"⟩, .modified), (⟨"/p/src/a.ts"⟩, .modified)]
    let changes := gone ++ there
    let changes' := there.reverse ++ gone.reverse ++ gone
    (s.Severed ∧ t.Sound ∧ s.PlainlyTold t changes ∧ ∀ c, c ∈ changes ↔ c ∈ changes') ∧
      s.SameBatch t changes changes' ∧
      (s.applyBatch changes' t).2.2.pruned = 1 ∧ (s.applyBatch changes' t).2.2.rebuilt = 1 ∧
      (s.applyBatch changes' t).1.textAt? ["p", ".pagemacro", "out", "x", "y.css"] = none := by
  intro s t gone there changes changes'
  have hsevered : s.Severed := by decide +kernel
  have hsound : t.Sound := by decide +kernel
  have htold : s.PlainlyTold t changes := by decide +kernel
  have hsame : ∀ c, c ∈ changes ↔ c ∈ changes' := fun c =>
    ⟨fun hc => (by decide +kernel : ∀ c ∈ changes, c ∈ changes') c hc,
      fun hc => (by decide +kernel : ∀ c ∈ changes', c ∈ changes) c hc⟩
  obtain ⟨hresult, halike⟩ := applyBatch_of_members hsevered htold hsame hsound
  refine ⟨⟨hsevered, hsound, htold, hsame⟩, ⟨hresult, halike⟩, ?_⟩
  decide +kernel

/-- Disjoint roots are not enough for the order of changes not to matter. A path may step out
of what is removed along with it; a file may be told in two spellings, and its failure is
reported in the first one; a path may lead through what is removed; and so may the roots of the
sources and of the output tree. -/
theorem members_insufficient :
    (¬ ∀ (s : Session) (t : FileTree) (changes changes' : List (Path × PathChange)),
      s.DisjointRoots → t.Sound → (∀ c, c ∈ changes ↔ c ∈ changes') →
      s.SameBatch t changes changes') ∧
    (¬ ∀ (s : Session) (t : FileTree) (changes changes' : List (Path × PathChange)),
      s.Severed → t.Sound → (∀ c, c ∈ changes ↔ c ∈ changes') →
      (∀ c ∈ changes, s.StaysOut c.1) →
      (∀ c ∈ changes, ∀ c' ∈ changes, c.1.components = c'.1.components → c.1 = c'.1) →
      s.SameBatch t changes changes') ∧
    (¬ ∀ (s : Session) (t : FileTree) (changes changes' : List (Path × PathChange)),
      s.Severed → t.Sound → (∀ c, c ∈ changes ↔ c ∈ changes') →
      (∀ c ∈ changes, s.Plain c.1) → s.SameBatch t changes changes') ∧
    (¬ ∀ (s : Session) (t : FileTree) (changes changes' : List (Path × PathChange)),
      s.Severed → t.Sound → (∀ c, c ∈ changes ↔ c ∈ changes') →
      (∀ c ∈ changes, c.2 = .removed → s.Plain c.1) →
      (∀ c ∈ changes, ∀ c' ∈ changes, c.1.components = c'.1.components → c.1 = c'.1) →
      s.SameBatch t changes changes') ∧
    (¬ ∀ (s : Session) (t : FileTree) (changes changes' : List (Path × PathChange)),
      s.DisjointRoots →
      (∀ ns, s.outDir.PassesThrough ns →
        (s.outDir.destination <+: ns → ns = s.outDir.destination)) →
      t.Sound → (∀ c, c ∈ changes ↔ c ∈ changes') → s.PlainlyTold t changes →
      s.SameBatch t changes changes') ∧
    ¬ ∀ (s : Session) (t : FileTree) (changes changes' : List (Path × PathChange)),
      s.DisjointRoots →
      (∀ ns, s.srcDir.PassesThrough ns → ¬ s.outDir.destination <+: ns) →
      t.Sound → (∀ c, c ∈ changes ↔ c ∈ changes') → s.PlainlyTold t changes →
      s.SameBatch t changes changes' := by
  have hswap : ∀ a b c : Path × PathChange, c ∈ [a, b] ↔ c ∈ [b, a] := by simp [or_comm]
  let t : FileTree := .dir [("p", .dir [("src", flat [("b.css", "x")]),
    (".pagemacro", .dir [("out", .dir [("a.css", .file "x"), ("x", .dir [])])])])]
  -- the first step out of `x` empties the output tree, if `x` is there
  have hstep : ¬ ofProject.SameBatch t
      [(⟨"/p/src/x/.."⟩, .removed), (⟨"/p/src/x"⟩, .removed)]
      [(⟨"/p/src/x"⟩, .removed), (⟨"/p/src/x/.."⟩, .removed)] := fun hsame =>
    absurd (hsame.2 ["p", ".pagemacro", "out", "a.css"]) (by decide +kernel)
  refine ⟨fun hclaim => ?_, fun hclaim => ?_, fun hclaim => ?_, fun hclaim => ?_,
    fun hclaim => ?_, fun hclaim => ?_⟩
  · exact hstep (hclaim _ _ _ _ (by decide +kernel) (by decide +kernel) (hswap _ _))
  · exact hstep (hclaim _ _ _ _ (by decide +kernel) (by decide +kernel) (hswap _ _)
      (by decide +kernel) (by decide +kernel))
  · have hsame := hclaim ofProject
      (unbuilt [("a.ts", "import\x7bresolveRoute\x7dfrom\"pages.macro\"\nresolveRoute()")])
      [(⟨"/p/src/a.ts"⟩, .modified), (⟨"/p/src//a.ts"⟩, .modified)]
      [(⟨"/p/src//a.ts"⟩, .modified), (⟨"/p/src/a.ts"⟩, .modified)]
      (by decide +kernel) (by decide +kernel) (hswap _ _) (by decide +kernel)
    exact absurd (congrArg (·.2.failures.map (·.1)) hsame.1) (by decide +kernel)
  · have hsame := hclaim ofProject t
      [(⟨"/p/src/x"⟩, .removed), (⟨"/p/src/../.pagemacro/out/x/../../../src/b.css"⟩, .modified)]
      [(⟨"/p/src/../.pagemacro/out/x/../../../src/b.css"⟩, .modified), (⟨"/p/src/x"⟩, .removed)]
      (by decide +kernel) (by decide +kernel) (hswap _ _) (by decide +kernel) (by decide +kernel)
    exact absurd (congrArg (·.2.failures.length) hsame.1) (by decide +kernel)
  · have hsame := hclaim (withRoots "x/../out/../src" "out")
      (.dir [("p", .dir [("src", flat [("b.css", "x")]), ("x", .dir []), ("out", .dir [])])])
      [(⟨"/p/x/../out/../src"⟩, .removed), (⟨"/p/x/../out/../src/b.css"⟩, .removed)]
      [(⟨"/p/x/../out/../src/b.css"⟩, .removed), (⟨"/p/x/../out/../src"⟩, .removed)]
      (by decide +kernel) (by decide +kernel) (by decide +kernel) (hswap _ _) (by decide +kernel)
    exact absurd (congrArg (·.2.copied) hsame.1) (by decide +kernel)
  · have hsame := hclaim (withRoots "src" "out/y/..")
      (.dir [("p", .dir [("src", .dir []), ("out", .dir [("y", .dir []), ("b.css", .file "x")])])])
      [(⟨"/p/src/y"⟩, .removed), (⟨"/p/src/b.css"⟩, .removed)]
      [(⟨"/p/src/b.css"⟩, .removed), (⟨"/p/src/y"⟩, .removed)]
      (by decide +kernel) (by decide +kernel) (by decide +kernel) (hswap _ _) (by decide +kernel)
    exact absurd (hsame.2 ["p", "out", "b.css"]) (by decide +kernel)

end Session

end SiteMacros
