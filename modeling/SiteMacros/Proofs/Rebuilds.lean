import SiteMacros.Proofs.FlatProjects

/-!
# Batches and builds

After a batch of changes the output tree ought to be the one that a new session
would build. Whether it is depends on the modules alone: what was removed is gone,
every other file is a copy of what it is now, and a module whose text has changed
has been processed again. So the trees agree exactly if for every module that a new
build has a text for, the last text that the output tree has got for it, in the batch
or else in the build before it, is that one (`applyBatch_agrees_iff`).

It need not be: a module that depends on a route is not processed again when the
module that registers the route has another base for it
(`applyBatch_keeps_old_route`).
-/

namespace SiteMacros.Session

variable {s : Session} {src out : List String}

/-- After a batch that nothing hinders, what is gone is gone from the output tree, and
the modules whose text has changed have been processed. The output tree has all that
a new build puts into it exactly if this is so of the texts of the modules: the last
text that the session has come to for a module, in the batch or else in the build
before it, or else what was there, is the one of the new build. -/
theorem applyBatch_agrees_iff {before after clean : FileTree} {changes : List (Path × PathChange)}
    (h : Edited s src out before after clean changes)
    (hok : Unhindered ((s.afterBuild before).applyBatch changes after).2.2) :
    let session := s.afterBuild before
    let updated := (session.applyBatch changes after).1
    (∀ ns, after.get? (src ++ ns) = none →
      before.textAt? (src ++ ns) ≠ none ∨ before.textAt? (out ++ ns) = none →
      updated.textAt? (out ++ ns) = none) ∧
    (∀ ns, HasSource src after ns → s.isModule (s.srcDir.below ns) = true →
      before.textAt? (src ++ ns) ≠ after.textAt? (src ++ ns) →
      ∃ r ∈ session.batchResults changes after, r.1.Leads (src ++ ns)) ∧
    ((∀ ns text, (s.builtTree clean).textAt? (out ++ ns) = some text →
        updated.textAt? (out ++ ns) = some text) ↔
      ∀ ns text, textFor? (s.buildResults clean) (src ++ ns) = some text →
        (textFor? (session.batchResults changes after) (src ++ ns)).or
          ((textFor? (s.buildResults before) (src ++ ns)).or (before.textAt? (out ++ ns))) =
            some text) := by
  intro session updated
  refine ⟨fun ns hns hbefore => h.applyBatch_gone hok hns hbefore,
    fun ns hns hmodule hchanged => h.batchResults_of_changed hns hmodule hchanged, ?_⟩
  have hsource : ∀ ns text, s.buildText? src clean ns = some text → HasSource src after ns := by
    intro ns text htext
    refine Classical.byContradiction fun hnot => ?_
    rw [buildText?_eq_none h.apart h.sound_clean h.rebuilds ?_] at htext
    · exact nomatch htext
    · rwa [HasSource, h.clean_textAt?]
  constructor
  · intro hagrees ns text htext
    have hmodule : s.isModule (s.srcDir.below ns) = true := by
      cases hmodule : s.isModule (s.srcDir.below ns) with
      | true => rfl
      | false =>
          rw [textFor?_buildResults_of_not_module h.apart h.sound_clean h.rebuilds hmodule] at htext
          exact nomatch htext
    have hbuilt : s.buildText? src clean ns = some text := by
      rw [buildText?, if_pos hmodule, htext]
    rw [← h.applyBatch_module hok (hsource ns text hbuilt) hmodule]
    exact hagrees ns text (by rw [h.fresh_textAt?, hbuilt])
  · intro hlast ns text htext
    rw [h.fresh_textAt?] at htext
    have hns := hsource ns text htext
    rw [buildText?] at htext
    cases hmodule : s.isModule (s.srcDir.below ns) with
    | true =>
        rw [hmodule, if_pos rfl] at htext
        rw [h.applyBatch_module hok hns hmodule]
        exact hlast ns text htext
    | false =>
        rw [hmodule, if_neg Bool.false_ne_true, if_neg hns.2, h.clean_textAt?] at htext
        rw [h.applyBatch_copied hok hns hmodule, htext]

/-- A module that is changed, a style sheet that is changed and one that is removed. -/
theorem applyBatch_agrees_ofProject :
    let files := [("a.ts", "1"), ("b.css", "x"), ("c.css", "z")]
    let edited := [("a.ts", "2"), ("b.css", "y")]
    let changes := [("a.ts", PathChange.modified), ("b.css", .modified), ("c.css", .removed)].map
      fun c => (ofProject.srcDir.join c.1, c.2)
    Edited ofProject ["p", "src"] ["p", ".pagemacro", "out"] (unbuilt files) (built edited files)
      (unbuilt edited) changes ∧
    Unhindered
      ((ofProject.afterBuild (unbuilt files)).applyBatch changes (built edited files)).2.2 ∧
    ∀ ns text,
      (ofProject.builtTree (unbuilt edited)).textAt? (["p", ".pagemacro", "out"] ++ ns) =
        some text →
      ((ofProject.afterBuild (unbuilt files)).applyBatch changes (built edited files)).1.textAt?
        (["p", ".pagemacro", "out"] ++ ns) = some text := by
  intro files edited changes
  have hedited : Edited ofProject ["p", "src"] ["p", ".pagemacro", "out"] (unbuilt files)
      (built edited files) (unbuilt edited) changes :=
    edited_ofProject (by decide +kernel) (by decide +kernel) ⟨by decide, by decide⟩
      ⟨by decide, by decide⟩ ⟨by decide, by decide⟩ (by decide) (by decide) (by decide)
  have hok : Unhindered
      ((ofProject.afterBuild (unbuilt files)).applyBatch changes (built edited files)).2.2 := by
    unfold Unhindered
    decide +kernel
  have hresults : (ofProject.afterBuild (unbuilt files)).batchResults changes (built edited files) =
      ofProject.buildResults (unbuilt edited) := by decide +kernel
  refine ⟨hedited, hok, (applyBatch_agrees_iff hedited hok).2.2.2 fun ns text htext => ?_⟩
  rw [hresults, htext, Option.some_or]

/-- The files of a project with a module that loads the menus of its directory and a
page that asks for its route. -/
def mounted (base : String) : List (String × String) :=
  [("a.ts", "import\x7bloadMenus as m\x7dfrom\"pages.macro\";m(\".\",\"" ++ base ++ "\")"),
   ("index.tsx", "import\x7bresolveRoute as r\x7dfrom\"pages.macro\";r()")]

/-- A batch of changes after a build. -/
def batchAfter (files edited output : List (String × String))
    (changes : List (String × PathChange)) : FileTree × Session × BatchReport :=
  (ofProject.afterBuild (unbuilt files)).applyBatch
    (changes.map fun c => (ofProject.srcDir.join c.1, c.2)) (built edited output)

/-- The output of a build of these files. -/
def mountedOutput (base : String) : List (String × String) :=
  [("a.ts", "[]"), ("index.tsx", "\"" ++ base ++ "\"")]

/-- The page keeps the route that the directory had before the module was changed. -/
theorem applyBatch_keeps_old_route :
    Edited ofProject ["p", "src"] ["p", ".pagemacro", "out"] (unbuilt (mounted "/a"))
      (built (mounted "/b") (mountedOutput "/a")) (unbuilt (mounted "/b"))
      ([("a.ts", PathChange.modified)].map fun c => (ofProject.srcDir.join c.1, c.2)) ∧
    Unhindered (batchAfter (mounted "/a") (mounted "/b") (mountedOutput "/a")
      [("a.ts", .modified)]).2.2 ∧
    ¬ ∀ ns text,
      (ofProject.builtTree (unbuilt (mounted "/b"))).textAt? (["p", ".pagemacro", "out"] ++ ns) =
        some text →
      (batchAfter (mounted "/a") (mounted "/b") (mountedOutput "/a")
        [("a.ts", .modified)]).1.textAt? (["p", ".pagemacro", "out"] ++ ns) = some text := by
  have hbuilt : ofProject.Builds (unbuilt (mounted "/a")) ∧
      ofProject.builtTree (unbuilt (mounted "/a")) = built (mounted "/a") (mountedOutput "/a") := by
    decide +kernel
  have hrebuilt : ofProject.Builds (unbuilt (mounted "/b")) ∧
      (ofProject.builtTree (unbuilt (mounted "/b"))).textAt?
        (["p", ".pagemacro", "out"] ++ ["index.tsx"]) = some "\"/b\"" := by
    decide +kernel
  have hbatch : (batchAfter (mounted "/a") (mounted "/b") (mountedOutput "/a")
        [("a.ts", .modified)]).2.2.failures = [] ∧
      (batchAfter (mounted "/a") (mounted "/b") (mountedOutput "/a")
        [("a.ts", .modified)]).1.textAt?
        (["p", ".pagemacro", "out"] ++ ["index.tsx"]) = some "\"/a\"" := by
    decide +kernel
  refine ⟨?_, ?_, fun hagrees => ?_⟩
  · exact edited_ofProject hbuilt hrebuilt.1 ⟨by decide, by decide⟩ ⟨by decide, by decide⟩
      ⟨by decide, by decide⟩ (by decide) (by decide) (by decide)
  · intro f hf
    rw [hbatch.1] at hf
    exact absurd hf List.not_mem_nil
  · have hroute := hbatch.2.symm.trans (hagrees ["index.tsx"] _ hrebuilt.2)
    exact absurd hroute (by decide)

end SiteMacros.Session
