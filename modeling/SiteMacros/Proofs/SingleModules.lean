import SiteMacros.CommandLine.Run
import SiteMacros.Proofs.Removals
import SiteMacros.Proofs.SourceSafety

/-!
# Single modules

The expansion of a single module is read off a build that writes nothing: from its failures,
its cache, or else from the file. It comes to what a build that writes puts into the output
tree (`expandFile_agrees`). For the cache has an entry for each module that was expanded in
the build, and for no other file: a module without macros has lost the one that it had.

A file is among the sources if its path is, once it is free of steps. The path of the sources is
not made free of them for that, so that a source directory which is written with `..` has no
files that can be expanded (`expandFile_outside`), though a build finds all of them.
-/

namespace SiteMacros

namespace Path

/-- A path that does not step out leads to its destination by names. -/
theorem leads_destination {p : Path} (hp : p.isAbsolute = true) (hup : .parent ∉ p.components) :
    p.Leads p.destination := by
  rw [components_absolute hp, List.mem_cons, not_or] at hup
  obtain ⟨ns, hns⟩ := exists_names hp (List.Subset.refl _) hup.2
  have hleads : p.Leads ns := ⟨hp, hns⟩
  rwa [hleads.destination_eq]

end Path

namespace FileTree

variable {t : FileTree} {ns : List String}

theorem leads_pathOf (hns : ∀ n ∈ ns, Path.IsName n) : (pathOf ns).Leads ns := by
  by_cases hnil : ns = []
  · subst hnil
    exact ⟨by decide, by decide⟩
  · obtain ⟨hrelative, hnames⟩ := Session.steps_intercalate hnil hns
    have hjoin : pathOf ns = (⟨"/"⟩ : Path).join ("/".intercalate ns) := by
      rw [Path.join, hrelative]
      rfl
    have hroot : (⟨"/"⟩ : Path).isAbsolute = true := by decide
    refine ⟨hjoin ▸ Path.isAbsolute_join hroot _, ?_⟩
    rw [hjoin, Path.pieces_join_names hroot hrelative hnames]
    rfl

theorem endsInName_pathOf (hnil : ns ≠ []) (hns : ∀ n ∈ ns, Path.IsName n) :
    (pathOf ns).EndsInName := by
  have htext : (pathOf ns).text.toList = '/' :: ("/".intercalate ns).toList := by
    rw [pathOf, String.toList_append]
    rfl
  intro q hq
  rw [Path.pieces_absolute htext, Session.pieces_names hnil hns, List.getLast?_map,
    List.getLast?_map] at hq
  obtain ⟨r, hr, rfl⟩ := Option.map_eq_some_iff.1 hq
  obtain ⟨n, hn, rfl⟩ := Option.map_eq_some_iff.1 hr
  have hname := hns n (List.mem_of_getLast? hn)
  simp [Path.idle, Path.pieces.inner, hname.ne_empty, hname.ne_here, hname.ne_parent]

end FileTree

namespace Session

open FileTree Expansion

variable {s s' : Session} {t t' : FileTree} {ns : List String} {cwd file p : Path} {text : String}

theorem build_false_eq {files : List Path} (hfiles : s.sourceFiles t = .ok files) :
    s.build false t =
      ((t, (s.processAll t (fun _ => true) (files.filter s.isModule)).1),
        .ok (BuildReport.ofProcessed
          (s.processAll t (fun _ => true) (files.filter s.isModule)).2)) := by
  unfold build
  rw [hfiles]
  dsimp only
  rw [List.partition_eq_filter_filter]
  rfl

/-- A build that writes nothing leaves all files as they are. -/
theorem build_false_tree (s : Session) (t : FileTree) : (s.build false t).1.1 = t := by
  cases hfiles : s.sourceFiles t with
  | error e =>
      unfold build
      rw [hfiles]
  | ok files => rw [build_false_eq hfiles]

/-- What is read off a build for a file: its failure, its expansion, or else its text. -/
def answerFor (report : BuildReport) (cache : ModuleCache) (t : FileTree) (p : Path) :
    Except Failure String :=
  match report.failures.find? (·.1.same p) with
  | some (_, e) => .error (.reported e.describe)
  | none =>
      match cache.get? p with
      | some m => .ok m.output
      | none => (t.readText p).mapError (.unreadable p)

section

variable {address : List String} (haddress : t.address (cwd.join file.text) = .ok address)
include haddress

theorem expandFile_eq_answerFor (hbelow : (pathOf address).startsWith s.srcDir = true)
    {files : List Path} (hfiles : s.sourceFiles t = .ok files) :
    (s.expandFile cwd file t).2 =
      answerFor (BuildReport.ofProcessed
          (s.processAll t (fun _ => true) (files.filter s.isModule)).2)
        (s.processAll t (fun _ => true) (files.filter s.isModule)).1.cache t (pathOf address) := by
  have hcanonical : t.canonical (cwd.join file.text) = .ok (pathOf address) := by
    rw [canonical, haddress]
    rfl
  unfold expandFile
  rw [hcanonical]
  dsimp only
  rw [hbelow, build_false_eq hfiles, answerFor, if_neg (by decide)]
  generalize s.processAll t (fun _ => true) (files.filter s.isModule) = run
  dsimp only [bind, Except.bind]
  cases (BuildReport.ofProcessed run.2).failures.find? (·.1.same (pathOf address)) with
  | some reported => rfl
  | none =>
      cases run.1.cache.get? (pathOf address) with
      | some m => rfl
      | none => cases t.readText (pathOf address) <;> rfl

/-- A source directory that is written with a step out of a directory has no files that can be
expanded. -/
theorem expandFile_outside (hup : .parent ∈ s.srcDir.components)
    (hnames : ∀ n ∈ address, Path.IsName n) :
    (s.expandFile cwd file t).2 = .error (.outsideSource (pathOf address) s.srcDir) := by
  have houtside : (pathOf address).startsWith s.srcDir = false := by
    rw [Bool.eq_false_iff, Path.startsWith, ne_eq, List.isPrefixOf_iff_prefix,
      (leads_pathOf hnames).components_eq]
    intro hbelow
    have hmem := hbelow.subset hup
    simp at hmem
  have hcanonical : t.canonical (cwd.join file.text) = .ok (pathOf address) := by
    rw [canonical, haddress]
    rfl
  unfold expandFile
  rw [hcanonical]
  dsimp only
  rw [houtside]
  rfl

end

/-! ## Where a source file is -/

/-- Sources that are not written with a step out of a directory are not written through the
output tree. -/
theorem Parted.of_no_parent (hroot : s.root.isAbsolute = true)
    (hup : .parent ∉ s.srcDir.components)
    (hsrc : ¬ s.srcDir.destination <+: s.outDir.destination)
    (hout : ¬ s.outDir.destination <+: s.srcDir.destination) : s.Parted := by
  refine ⟨hroot, hsrc, hout, ?_⟩
  rw [Bool.eq_false_iff]
  intro hthrough
  have hcomponents : s.outDir.components <+: s.srcDir.components :=
    List.isPrefixOf_iff_prefix.1 hthrough
  have hsrcLeads := Path.leads_destination (Path.isAbsolute_join hroot _) hup
  have houtLeads := Path.leads_destination (Path.isAbsolute_join hroot _)
    fun hmem => hup (hcomponents.subset hmem)
  exact hout ((hsrcLeads.startsWith_iff houtLeads).1 hthrough)

/-- A source file is at the address that its path leads to. -/
theorem address_of_source (hsrc : s.srcDir.isAbsolute = true) (hsound : t.Sound)
    {files : List Path} (hfiles : s.sourceFiles t = .ok files) (hns : s.HasSourceAt t ns) :
    t.address (s.srcDir.below ns) = .ok (s.srcDir.destination ++ ns) := by
  obtain ⟨node, hnode⟩ : ∃ node, t.find s.srcDir = .ok node := by
    unfold sourceFiles at hfiles
    split at hfiles
    · cases hfiles
    · next es hes =>
        obtain ⟨node, hnode, -⟩ := exists_of_bind_eq_ok hes
        exact ⟨node, hnode⟩
  obtain ⟨text, htext⟩ := Option.isSome_iff_exists.1 hns.1
  have hfind := find_below hsrc hnode (hns.isName hsound) (textAt?_eq_some.1 htext)
  obtain ⟨address, haddress, -⟩ := exists_of_bind_eq_ok hfind
  obtain ⟨habs, hpieces⟩ := Path.pieces_below hsrc (hns.isName hsound)
  rw [haddress, address_eq_destination habs haddress,
    (Path.extends_below hsrc (hns.isName hsound)).destination_eq]

/-- The path that is free of steps is the one that is listed, but for how it is written. -/
theorem components_pathOf (h : s.Parted) (hup : .parent ∉ s.srcDir.components)
    (hns : ∀ n ∈ ns, Path.IsName n) :
    (pathOf (s.srcDir.destination ++ ns)).components = (s.srcDir.below ns).components := by
  have hbelow := ((Path.leads_destination h.src_absolute hup).below hns).1
  exact (leads_pathOf hbelow.isName).components_inj hbelow

/-! ## What the build knows of it -/

namespace Built

variable {files : List Path} {rs : List Processed} {between : FileTree} {report : BuildReport}
  (hb : s.Built t files rs between t' s' report)
include hb

/-- The cache forgets a module that has no macros any more. -/
theorem get?_of_unchanged (hdistinct : Distinct files)
    (hr : (p, .ok (.unchanged text)) ∈ rs) : s'.cache.get? p = none := by
  have hprocessed := s.turns_processed t (fun _ => true) (files.filter s.isModule)
  rw [hb.processed] at hprocessed
  dsimp only at hprocessed
  rw [← hprocessed] at hr
  obtain ⟨turn, hturn, heq⟩ := List.mem_map.1 hr
  obtain ⟨rfl, hresult⟩ := Prod.mk.inj heq
  have hleft := (remembered_turns (hdistinct.filter s.isModule) hturn).left
  rw [hb.processed, Turn.leaves, hresult] at hleft
  exact hleft

/-- The cache has only modules, if it was empty. -/
theorem get?_of_no_module (hfresh : s.cache = {}) (hmodule : s.isModule p = false) :
    s'.cache.get? p = none := by
  have hkept : (s.processAll t (fun _ => true) (files.filter s.isModule)).1.cache.get? p =
      s.cache.get? p := by
    refine get?_processAll_of_ne fun q hq heq => ?_
    rw [isModule_of_components heq, (List.mem_filter.1 hq).2] at hmodule
    cases hmodule
  rw [hb.processed, hfresh] at hkept
  exact hkept

variable (h : s.Parted) (hsound : t.Sound) (hup : .parent ∉ s.srcDir.components)
include h hsound hup

/-- Only the failure of the module itself is found for it. -/
theorem find?_failures (hns : s.HasSourceAt t ns) {r : Path × Failure}
    (hr : report.failures.find? (·.1.same (pathOf (s.srcDir.destination ++ ns))) = some r) :
    r.1 = s.srcDir.below ns ∧ r ∈ report.failures := by
  have hmem := List.mem_of_find?_eq_some hr
  have hsame := List.find?_some hr
  rw [Path.same_iff, components_pathOf h hup (hns.isName hsound)] at hsame
  obtain ⟨ms, hms, hpath⟩ :=
    (mem_sourceFiles h hsound hb.listed).1 (hb.file_of_result (hb.mem_failures.1 hmem)).1
  rw [hpath] at hsame
  rw [hpath, below_inj h (hms.isName hsound) (hns.isName hsound) hsame]
  exact ⟨rfl, hmem⟩

/-- What is read off the build for a source file is the report of its failure, or else what
the build has written for it. -/
theorem answer_of_source (hfresh : s.cache = {}) (hns : s.HasSourceAt t ns) :
    (∃ e, (s.srcDir.below ns, e) ∈ report.failures ∧
      answerFor report s'.cache t (pathOf (s.srcDir.destination ++ ns)) =
        .error (.reported e.describe)) ∨
    (∀ e, (s.srcDir.below ns, e) ∉ report.failures) ∧
      ∃ text, t'.textAt? (s.outDir.destination ++ ns) = some text ∧
        answerFor report s'.cache t (pathOf (s.srcDir.destination ++ ns)) = .ok text := by
  obtain ⟨text, htext⟩ := Option.isSome_iff_exists.1 hns.1
  have hsame := components_pathOf h hup (hns.isName hsound)
  have hread : t.readText (pathOf (s.srcDir.destination ++ ns)) = .ok text := by
    have hnames := hsound.isName (textAt?_eq_some.1 htext)
    have hne : s.srcDir.destination ++ ns ≠ [] := fun hnil =>
      h.src_not_above ((List.append_eq_nil_iff.1 hnil).1 ▸ List.nil_prefix)
    exact (readText_eq_ok_iff (leads_pathOf hnames) (endsInName_pathOf hne hnames)).2 htext
  rw [answerFor]
  cases hfind : report.failures.find?
      (·.1.same (pathOf (s.srcDir.destination ++ ns))) with
  | some r =>
      obtain ⟨p, e⟩ := r
      obtain ⟨rfl, hr⟩ := hb.find?_failures h hsound hup hns hfind
      exact .inl ⟨e, hr, rfl⟩
  | none =>
      have hunreported : ∀ e, (s.srcDir.below ns, e) ∉ report.failures := by
        intro e he
        exact List.find?_eq_none.1 hfind _ he (Path.same_iff.2 hsame.symm)
      refine .inr ⟨hunreported, ?_⟩
      rw [s'.cache.get?_congr hsame]
      cases hmodule : s.isModule (s.srcDir.below ns) with
      | false =>
          rw [hb.get?_of_no_module hfresh hmodule, hread]
          rcases hb.account_other h hsound hns hmodule htext with
            ⟨-, hcopy, -⟩ | ⟨_, _, hmodule', -⟩ | ⟨_, hmodule', -⟩
          · exact ⟨text, hcopy, rfl⟩
          all_goals
            rw [hmodule] at hmodule'
            cases hmodule'
      | true =>
          rcases hb.result_of_module h hsound hns hmodule htext with
            ⟨-, hr⟩ | ⟨-, ⟨e, hr⟩ | ⟨r, m, -, hr, hcached⟩⟩
          · rw [hb.get?_of_unchanged (distinct_sources h hsound hb.listed) hr, hread]
            exact ⟨text, hb.textAt?_output h hsound hns hr rfl, rfl⟩
          · exact absurd (hb.mem_failures.2 hr) (hunreported e)
          · rw [hcached]
            exact ⟨m.code, hb.textAt?_output h hsound hns hr rfl, rfl⟩

theorem answer_agrees (hfresh : s.cache = {}) (hns : s.HasSourceAt t ns) :
    (∀ text, answerFor report s'.cache t (pathOf (s.srcDir.destination ++ ns)) = .ok text ↔
      (∀ e, (s.srcDir.below ns, e) ∉ report.failures) ∧
        t'.textAt? (s.outDir.destination ++ ns) = some text) ∧
    ∀ failure, answerFor report s'.cache t (pathOf (s.srcDir.destination ++ ns)) =
      .error failure ↔
        ∃ e, (s.srcDir.below ns, e) ∈ report.failures ∧ failure = .reported e.describe := by
  rcases hb.answer_of_source h hsound hup hfresh hns with
    ⟨e, he, hfailed⟩ | ⟨hunreported, text, hwritten, hok⟩
  · rw [hfailed]
    refine ⟨fun text => iff_of_false (fun heq => ?_) fun hunreported => hunreported.1 e he,
      fun failure => ⟨fun heq => ?_, ?_⟩⟩
    · cases heq
    · cases heq
      exact ⟨e, he, rfl⟩
    · rintro ⟨e', he', rfl⟩
      cases result_unique (hb.results_distinct h hsound) (hb.mem_failures.1 he)
        (hb.mem_failures.1 he')
      rfl
  · rw [hok, hwritten]
    refine ⟨fun text' => ?_, fun failure => iff_of_false (fun heq => ?_) ?_⟩
    · rw [Except.ok.injEq, Option.some.injEq, and_iff_right hunreported]
    · cases heq
    · rintro ⟨e, he, -⟩
      exact hunreported e he

end Built

/-! ## Agreement -/

theorem run_expand_tree (r : Option Path) (t : FileTree) :
    ((Command.expand file r).run cwd t).1 = t := by
  unfold Command.run
  split <;> rfl

/-- The expansion of a source file, by whatever path, comes to what a build puts into the output
tree for it, and fails with the report of the build if the build reports the file, as long as
the sources are not written with a step out of a directory. No file is changed for it. -/
theorem expandFile_agrees {report : BuildReport} (cwd : Path) (hroot : s.root.isAbsolute = true)
    (hsrc : ¬ s.srcDir.destination <+: s.outDir.destination)
    (hout : ¬ s.outDir.destination <+: s.srcDir.destination) (hsound : t.Sound)
    (hfresh : s.cache = {}) (hbuild : s.build true t = ((t', s'), .ok report))
    (hns : s.HasSourceAt t ns) :
    t.address (cwd.join (s.srcDir.below ns).text) = .ok (s.srcDir.destination ++ ns) ∧
    (s.build false t).1.1 = t ∧
    ∀ file : Path, t.address (cwd.join file.text) = .ok (s.srcDir.destination ++ ns) →
      (∀ r, ((Command.expand file r).run cwd t).1 = t) ∧
      (.parent ∉ s.srcDir.components →
        (∀ text, (s.expandFile cwd file t).2 = .ok text ↔
          (∀ e, (s.srcDir.below ns, e) ∉ report.failures) ∧
            t'.textAt? (s.outDir.destination ++ ns) = some text) ∧
        ∀ failure, (s.expandFile cwd file t).2 = .error failure ↔
          ∃ e, (s.srcDir.below ns, e) ∈ report.failures ∧ failure = .reported e.describe) ∧
      (.parent ∈ s.srcDir.components →
        (s.expandFile cwd file t).2 =
          .error (.outsideSource (pathOf (s.srcDir.destination ++ ns)) s.srcDir)) := by
  obtain ⟨files, rs, between, hb⟩ := exists_built hbuild
  have habs : s.srcDir.isAbsolute = true := Path.isAbsolute_join hroot _
  obtain ⟨text, htext⟩ := Option.isSome_iff_exists.1 hns.1
  have hnames := hsound.isName (textAt?_eq_some.1 htext)
  refine ⟨?_, build_false_tree s t, fun file haddress =>
    ⟨fun r => run_expand_tree r t, fun hup => ?_,
      fun hup => expandFile_outside haddress hup hnames⟩⟩
  · rw [Path.join, if_pos (Path.pieces_below habs (hns.isName hsound)).1]
    exact address_of_source habs hsound hb.listed hns
  have h := Parted.of_no_parent hroot hup hsrc hout
  have hbelow : (pathOf (s.srcDir.destination ++ ns)).startsWith s.srcDir = true := by
    rw [(leads_pathOf hnames).startsWith_iff (Path.leads_destination habs hup)]
    exact List.prefix_append _ ns
  have hanswer : (s.expandFile cwd file t).2 =
      answerFor report s'.cache t (pathOf (s.srcDir.destination ++ ns)) := by
    rw [expandFile_eq_answerFor haddress hbelow hb.listed, hb.processed, hb.reported]
    rfl
  rw [hanswer]
  exact hb.answer_agrees h hsound hup hfresh hns

/-- The expansions of a style sheet, of a module without macros, of one that is expanded, and of
one that does not parse, by the paths that are written below the project. -/
theorem expandFile_agrees_ofProject :
    let files := [("a.ts", "import\x7bloadMenus as m\x7dfrom\"pages.macro\";m(\".\",\"/\")"),
      ("b.css", "x"), ("c.ts", "1"), ("d.ts", "\"pages.macro\"("), ("index.tsx", "")]
    let t := unbuilt files
    t.Sound ∧ ofProject.cache = {} ∧ .parent ∉ ofProject.srcDir.components ∧ ∃ report,
      ofProject.build true t = ((ofProject.builtTree t, ofProject.afterBuild t), .ok report) ∧
      ∀ f ∈ files, ofProject.HasSourceAt t [f.1] ∧
        (∀ text, (ofProject.expandFile ⟨"/p"⟩ ⟨"src/" ++ f.1⟩ t).2 = .ok text ↔
          (∀ e, (ofProject.srcDir.below [f.1], e) ∉ report.failures) ∧
            (ofProject.builtTree t).textAt? (ofProject.outDir.destination ++ [f.1]) = some text) ∧
        ∀ failure, (ofProject.expandFile ⟨"/p"⟩ ⟨"src/" ++ f.1⟩ t).2 = .error failure ↔
          ∃ e, (ofProject.srcDir.below [f.1], e) ∈ report.failures ∧
            failure = .reported e.describe := by
  intro files t
  have hsound : t.Sound := by decide +kernel
  have hbuilds : ofProject.Builds t := by decide +kernel
  have hup : .parent ∉ ofProject.srcDir.components := by decide +kernel
  have hsources : ∀ f ∈ files,
      (t.textAt? (ofProject.srcDir.destination ++ [f.1])).isSome = true ∧
      "node_modules" ∉ [f.1] := by decide +kernel
  have haddresses : ∀ f ∈ files, t.address ((⟨"/p"⟩ : Path).join ("src/" ++ f.1)) =
      .ok (ofProject.srcDir.destination ++ [f.1]) := by decide +kernel
  obtain ⟨report, hbuild⟩ := hbuilds.eq_ok
  refine ⟨hsound, rfl, hup, report, hbuild, fun f hf => ⟨hsources f hf, ?_⟩⟩
  obtain ⟨-, -, hagree⟩ := expandFile_agrees ⟨"/p"⟩ (by decide +kernel) (by decide +kernel)
    (by decide +kernel) hsound rfl hbuild (hsources f hf)
  exact (hagree ⟨"src/" ++ f.1⟩ (haddresses f hf)).2.1 hup

/-- A build finds the sources that lie beside the project and writes their output. None of them
can be expanded by the path that the build lists, or by any other. -/
theorem expandFile_refuses_sources :
    let s : Session :=
      { root := ⟨"/p/app"⟩, configuration := { sources := { dir := "../web/src" } } }
    let t : FileTree :=
      .dir [("p", .dir [("app", .dir []), ("web", .dir [("src", flat [("a.ts", "1")])])])]
    s.DisjointRoots ∧ t.Sound ∧ s.sourceFiles t = .ok [⟨"/p/app/../web/src/a.ts"⟩] ∧
    ((s.build true t).2.toOption.map (·.failures)) = some [] ∧
    (s.builtTree t).textAt? (s.outDir.destination ++ ["a.ts"]) = some "1" ∧
    ∀ p ∈ ["/p/app/../web/src/a.ts", "../web/src/a.ts", "/p/web/src/a.ts"],
      (s.expandFile s.root ⟨p⟩ t).2 =
        .error (.outsideSource ⟨"/p/web/src/a.ts"⟩ ⟨"/p/app/../web/src"⟩) := by
  decide +kernel

end Session

end SiteMacros
