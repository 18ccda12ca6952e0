import SiteMacros.Proofs.Edits

/-!
# Flat projects

A project that has all its files in one directory is given by their names and texts.
What `Edited` asks of a build and a batch can be computed for such a project
(`edited_ofProject`).
-/

namespace SiteMacros.Session

/-- A directory of files with these texts. -/
def flat (files : List (String × String)) : FileTree :=
  .dir (files.map fun f => (f.1, .file f.2))

theorem flat_get? (files : List (String × String)) (n : String) (ns : List String) :
    (flat files).get? (n :: ns) =
      match ns with
      | [] => (files.lookup n).map .file
      | _ :: _ => none := by
  rw [flat, FileTree.get?, FileTree.child?_dir]
  induction files with
  | nil => cases ns <;> rfl
  | cons f files ih =>
      rw [List.map_cons, List.lookup_cons, List.lookup_cons]
      cases n == f.1 with
      | true => cases ns <;> rfl
      | false => exact ih

/-- The names of the files are names, each of one file. -/
structure FlatNames (files : List (String × String)) : Prop where
  names : ∀ n ∈ files.map (·.1), Path.IsName n
  distinct : (files.map (·.1)).Nodup

theorem flat_sound {files : List (String × String)} (h : FlatNames files) : (flat files).Sound := by
  refine FileTree.sound_dir (files.map (·.1)) (List.map_map ..) h.names h.distinct fun e he => ?_
  obtain ⟨f, -, rfl⟩ := List.mem_map.1 he
  exact FileTree.sound_file f.2

/-- The session of a project in the directory `p`. -/
def ofProject : Session := { root := ⟨"/p"⟩, configuration := {} }

/-- A session of the project at `/p` with its sources and its output there. -/
def withRoots (dir outDir : String) : Session where
  root := ⟨"/p"⟩
  configuration := { sources := { dir, outDir } }

/-- The project before a build. -/
def unbuilt (files : List (String × String)) : FileTree :=
  .dir [("p", .dir [("src", flat files)])]

/-- The project with the output of a build. -/
def built (files output : List (String × String)) : FileTree :=
  .dir [("p", .dir [("src", flat files), (".pagemacro", .dir [("out", flat output)])])]

theorem unbuilt_sound {files : List (String × String)} (h : FlatNames files) :
    (unbuilt files).Sound :=
  FileTree.sound_singleton (by decide) (FileTree.sound_singleton (by decide) (flat_sound h))

theorem built_sound {files output : List (String × String)} (h : FlatNames files)
    (h' : FlatNames output) : (built files output).Sound := by
  refine FileTree.sound_singleton (by decide)
    (FileTree.sound_dir ["src", ".pagemacro"] rfl (by decide) (by decide) ?_)
  rw [List.forall_mem_cons, List.forall_mem_singleton]
  exact ⟨flat_sound h, FileTree.sound_singleton (by decide) (flat_sound h')⟩

theorem ofProject_apart : ofProject.Apart ["p", "src"] ["p", ".pagemacro", "out"] where
  src_leads := ⟨by decide +kernel, by decide +kernel⟩
  out_leads := ⟨by decide +kernel, by decide +kernel⟩
  src_not_above := by decide
  out_not_above := by decide

theorem built_get? (files output : List (String × String)) {ns : List String}
    (hout : ¬ ["p", ".pagemacro", "out"] <+: ns) (hns : ¬ ns <+: ["p", ".pagemacro", "out"]) :
    (built files output).get? ns = (unbuilt files).get? ns := by
  have hset : built files output =
      (unbuilt files).set ["p", ".pagemacro", "out"] (flat output) := rfl
  rw [hset, FileTree.get?_set_of_apart hout hns]

theorem built_get?_src (files output : List (String × String)) (ns : List String) :
    (built files output).get? (["p", "src"] ++ ns) = (flat files).get? ns := rfl

theorem mem_of_lookup_ne {files edited : List (String × String)} {n : String}
    (h : files.lookup n ≠ edited.lookup n) : n ∈ (files ++ edited).map (·.1) := by
  refine Classical.byContradiction fun hnot => h ?_
  rw [List.map_append, List.mem_append, not_or] at hnot
  have hnone : ∀ fs : List (String × String), n ∉ fs.map (·.1) → fs.lookup n = none := by
    intro fs hfs
    refine List.lookup_eq_none_iff.2 fun f hf => bne_iff_ne.2 fun heq => hfs ?_
    exact List.mem_map.2 ⟨f, hf, heq.symm⟩
  rw [hnone files hnot.1, hnone edited hnot.2]

/-- What there is to know of a build and a batch of changes in such a project. -/
theorem edited_ofProject {files edited output : List (String × String)}
    {changes : List (String × PathChange)}
    (hbuilt : ofProject.Builds (unbuilt files) ∧
      ofProject.builtTree (unbuilt files) = built files output)
    (hrebuilds : ofProject.Builds (unbuilt edited))
    (hfiles : FlatNames files) (hedited : FlatNames edited) (houtput : FlatNames output)
    (hnames : ∀ c ∈ changes, Path.IsName c.1)
    (hgone : ∀ c ∈ changes, c.2 = .removed → edited.lookup c.1 = none)
    (hcovered : ∀ n ∈ (files ++ edited).map (·.1), files.lookup n ≠ edited.lookup n →
      ∃ c ∈ changes, c.1 = n ∧ (edited.lookup n = none → c.2 = .removed)) :
    Edited ofProject ["p", "src"] ["p", ".pagemacro", "out"] (unbuilt files) (built edited output)
      (unbuilt edited) (changes.map fun c => (ofProject.srcDir.join c.1, c.2)) where
  apart := ofProject_apart
  modules := by decide
  yaml := by decide
  yml := by decide
  fresh := rfl
  sound_before := unbuilt_sound hfiles
  sound_after := built_sound hedited houtput
  sound_clean := unbuilt_sound hedited
  builds := hbuilt.1
  output ns := by rw [hbuilt.2]; rfl
  told := by
    rw [List.forall_mem_map]
    intro c hc
    obtain ⟨hleads, hend⟩ := ofProject_apart.src_leads.join_name (hnames c hc)
    refine ⟨_, hleads, hend, fun hremoved => ?_⟩
    rw [built_get?_src, flat_get?, hgone c hc hremoved]
    rfl
  covered ns hchanged := by
    have htexts : (flat files).textAt? ns ≠ (flat edited).textAt? ns := hchanged
    rw [FileTree.textAt?, FileTree.textAt?] at htexts
    rcases ns with _ | ⟨n, _ | ⟨n', ns⟩⟩
    · exact absurd rfl htexts
    · rw [flat_get?, flat_get?] at htexts
      have hne : files.lookup n ≠ edited.lookup n := fun heq => htexts (by rw [heq])
      obtain ⟨c, hc, rfl, hremoved⟩ := hcovered n (mem_of_lookup_ne hne) hne
      have hleads := (ofProject_apart.src_leads.join_name (hnames c hc)).1
      refine ⟨_, List.mem_map_of_mem hc, hleads, fun hnone => hremoved ?_⟩
      rw [built_get?_src, flat_get?] at hnone
      exact Option.map_eq_none_iff.1 hnone
    · rw [flat_get?, flat_get?] at htexts
      exact absurd rfl htexts
  cleaned ns hout hns := (built_get? edited output hout hns).symm
  noCleanOutput ns := FileTree.textAt?_append_of_none rfl ns
  rebuilds := hrebuilds

end SiteMacros.Session
